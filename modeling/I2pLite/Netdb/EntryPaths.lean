import I2pLite.Netdb.Files
import I2pLite.Netdb.Skiplist

/-!
# The paths of the entries and the directories of the netdb

The first character of an encoded hash is one of those that the directories
are created for.
-/

namespace I2pLite.EntryPaths

open I2pLite.CRun
open I2pLite.CBytes
open I2pLite.FileSystem
open I2pLite.Base64
open I2pLite.Hashmap
open I2pLite.Netdb
open I2pLite.Files
open I2pLite.Skiplist

variable {Ri : Type}

/-- The directory of a character. -/
def subdirOf (root : CString) (c : Byte) : CString := slash root (ofBuffer [ch 'r', c])

section Directories

variable {root : CString}

theorem strlen_subdirOf (c : Byte) : strlen (subdirOf root c) ≤ strlen root + 3 := by
  have hname : strlen (ofBuffer [ch 'r', c]) ≤ 2 :=
    (List.takeWhile_sublist _).length_le
  rw [subdirOf, strlen_slash]
  omega

/-- The loop goes on as long as every directory is there or is created. -/
theorem ensureSubdirs_eq (calls : DirectoryCalls) (hroot : root.bytes ≠ [])
    (hshort : strlen root + 3 < 256) (chars : List Byte) :
    ensureSubdirs calls root chars =
      .ok (if chars.all fun c => ensureSubdir calls (subdirOf root c) then 1 else 0) := by
  induction chars with
  | nil => simp [ensureSubdirs]
  | cons c chars ih =>
      have hjoin : pathJoin root [ofBuffer [ch 'r', c]] = .ok (subdirOf root c) :=
        pathJoin_eq hroot (by
          have := @strlen_subdirOf root c
          rw [subdirOf] at this
          simp only [List.foldl_cons, List.foldl_nil]
          omega)
      rw [ensureSubdirs, hjoin, ok_bind, ih]
      by_cases hsubdir : ensureSubdir calls (subdirOf root c) = true
      · rw [if_pos hsubdir]
        simp [hsubdir]
      · rw [if_neg hsubdir]
        simp [hsubdir]

theorem exists_parentOf_pathOf (root : CString) (ident : IdentHash) :
    ∃ c ∈ mnetBase64Chars, parentOf (pathOf root ident) = some (subdirOf root c) := by
  obtain ⟨c, hc, _, hbytes⟩ := exists_skipName_bytes ident
  refine ⟨c, base64Chars_eq ▸ hc, ?_⟩
  have hname : skipName ident = ofBuffer [ch 'r', c] := by
    rw [← hbytes, ofBuffer_bytes]
  rw [pathOf, parentOf_slash (isName_fileName ident).2.1, hname, subdirOf]

end Directories

end I2pLite.EntryPaths
