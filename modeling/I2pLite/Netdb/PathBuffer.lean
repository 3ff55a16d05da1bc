import I2pLite.Core.CInt
import I2pLite.Netdb.Files

/-!
# Paths in a buffer

`path_join` counts what it would have written, and goes on writing there.  One
byte over the end of the buffer is noticed, and more of them are not.
-/

namespace I2pLite.PathBuffer

open I2pLite.CRun
open I2pLite.CBytes
open I2pLite.CInt
open I2pLite.Memory
open I2pLite.FileSystem

/-! ## The code -/

/-- The loop of `path_join`, from the buffer and `idx` on. -/
def joinParts (path : List Byte) (idx : ℤ) : List CString → Run CString
  | [] => .ok (ofBuffer path)
  | part :: parts => do
      let (i, path) ← snprintf path idx.toNat (toSize (256 - idx)) (ch '/' :: part.bytes)
      if i ≤ 0 then .error .assertFailed
      else
        let idx ← inInt32 (idx + i)
        joinParts path idx parts

def pathJoin (base : CString) (parts : List CString) : Run CString := do
  let (idx, path) ← snprintf (List.replicate 256 0) 0 256 base.bytes
  if idx ≤ 0 then .error .assertFailed
  else joinParts path idx parts

/-! ## What is to be delivered -/

/-- The base and the parts behind it, with a slash in front of each. -/
def wholePath (base : CString) (parts : List CString) : CString := parts.foldl slash base

/-- The longest prefix with this many bytes at most. -/
structure LongestPrefix (limit : ℕ) (whole path : CString) : Prop where
  isPrefix : path.bytes <+: whole.bytes
  fits : strlen path ≤ limit
  longest : ∀ other : CString, other.bytes <+: whole.bytes → strlen other ≤ limit →
    strlen other ≤ strlen path

/-- No byte outside of the buffer is written, and the path is cut to what the
buffer holds. -/
def JoinsPath (base : CString) (parts : List CString) : Prop :=
  ∃ path, pathJoin base parts = .ok path ∧ LongestPrefix 255 (wholePath base parts) path

/-- Before every part the buffer is at most full, and lengths stay in the range
of an `int`. -/
def PartsFit (path : CString) : List CString → Prop
  | [] => True
  | part :: parts =>
      strlen path ≤ 256 ∧ strlen (slash path part) < 2 ^ 31 ∧ PartsFit (slash path part) parts

/-- The path so far, cut to what the buffer holds. -/
def HoldsText (path : List Byte) (text : CString) : Prop :=
  path.length = 256 ∧ ∃ rest, path = text.bytes.take 255 ++ 0 :: rest

section Join

variable {path : List Byte} {text base part : CString} {parts : List CString}

theorem ofBuffer_of_holdsText (hholds : HoldsText path text) :
    (ofBuffer path).bytes = text.bytes.take 255 := by
  obtain ⟨_, rest, rfl⟩ := hholds
  have hcut : ∀ byte ∈ text.bytes.take 255, byte ≠ 0 := fun byte hbyte =>
    text.noNul byte (List.mem_of_mem_take hbyte)
  exact congrArg CString.bytes (ofBuffer_append_nul ⟨text.bytes.take 255, hcut⟩ rest)

theorem longestPrefix_of_take {path whole : CString} {limit : ℕ}
    (htake : path.bytes = whole.bytes.take limit) : LongestPrefix limit whole path where
  isPrefix := htake ▸ List.take_prefix limit whole.bytes
  fits := by
    rw [strlen, htake, List.length_take]
    exact Nat.min_le_left _ _
  longest := by
    intro other hother hfits
    rw [strlen, strlen, htake, List.length_take]
    exact le_min hfits hother.length_le

/-! ## One part -/

theorem strlen_slash_eq (text part : CString) :
    strlen (slash text part) = strlen text + (ch '/' :: part.bytes).length :=
  List.length_append

/-- With room for a part, or none, the buffer holds the path with it. -/
theorem exists_snprintf (hholds : HoldsText path text) (hroom : strlen text ≤ 256)
    (part : CString) :
    ∃ path', HoldsText path' (slash text part) ∧
      snprintf path (strlen text) (256 - strlen text) (ch '/' :: part.bytes) =
        .ok (if (ch '/' :: part.bytes).length < 2 ^ 31 then (ch '/' :: part.bytes).length else -1,
          path') := by
  obtain ⟨hlength, rest, hpath⟩ := id hholds
  have hbytes : (slash text part).bytes.take 255 =
      text.bytes.take 255 ++ (ch '/' :: part.bytes).take (255 - strlen text) :=
    List.take_append
  by_cases hfull : 256 - strlen text = 0
  · refine ⟨path, ⟨hlength, rest, ?_⟩, by rw [hfull, snprintf_zero]⟩
    rw [hbytes, show 255 - strlen text = 0 by omega, List.take_zero, List.append_nil]
    exact hpath
  · obtain ⟨rest', hcall, hrest⟩ := @snprintf_eq path (strlen text) (256 - strlen text)
      (ch '/' :: part.bytes) (by omega) hfull
    have hshort : text.bytes.take 255 = text.bytes :=
      List.take_of_length_le (show strlen text ≤ 255 by omega)
    have htaken : path.take (strlen text) = text.bytes.take 255 := by
      rw [hpath, hshort]
      exact List.take_left
    rw [htaken, show 256 - strlen text - 1 = 255 - strlen text by omega, ← hbytes] at hcall
    refine ⟨_, ⟨?_, rest', rfl⟩, hcall⟩
    rw [List.length_append, hbytes, List.length_append, hshort, List.length_cons]
    rw [show 256 - strlen text - 1 = 255 - strlen text by omega] at hrest
    have hstrlen : strlen text = text.bytes.length := rfl
    omega

/-- Beyond the buffer, the size that is left wraps around. -/
theorem joinParts_outside (hholds : HoldsText path text) (hidx : 256 < strlen text)
    (hint : strlen text < 2 ^ 31) :
    joinParts path (strlen text) (part :: parts) = .error .outOfBounds := by
  have hsize : toSize (256 - strlen text) ≠ 0 := by
    rw [toSize]
    omega
  rw [joinParts, snprintf_outside (by rw [hholds.1, Int.toNat_natCast]; omega) hsize]
  rfl

theorem joinParts_inside (hholds : HoldsText path text) (hroom : strlen text ≤ 256)
    (part : CString) (parts : List CString) :
    ∃ path', HoldsText path' (slash text part) ∧
      joinParts path (strlen text) (part :: parts) =
        if (ch '/' :: part.bytes).length < 2 ^ 31 then
          inInt32 (strlen (slash text part)) >>= fun idx => joinParts path' idx parts
        else .error .assertFailed := by
  obtain ⟨path', hholds', hcall⟩ := exists_snprintf hholds hroom part
  have hsize : toSize (256 - strlen text) = 256 - strlen text := by
    rw [toSize_of_lt (by omega) (by omega)]
    omega
  refine ⟨path', hholds', ?_⟩
  rw [joinParts, Int.toNat_natCast, hsize, hcall, ok_bind, strlen_slash_eq, Int.natCast_add]
  have hpos : 0 < (ch '/' :: part.bytes).length := Nat.succ_pos _
  by_cases hint : (ch '/' :: part.bytes).length < 2 ^ 31
  · rw [if_pos hint, if_pos hint]
    exact if_neg (by omega)
  · rw [if_neg hint, if_neg hint]
    rfl

/-- Where the length stays an `int`, the loop goes on behind the part. -/
theorem joinParts_cons (hholds : HoldsText path text) (hroom : strlen text ≤ 256)
    (hint : strlen (slash text part) < 2 ^ 31) :
    ∃ path', HoldsText path' (slash text part) ∧
      joinParts path (strlen text) (part :: parts) =
        joinParts path' (strlen (slash text part)) parts := by
  obtain ⟨path', hholds', hstep⟩ := joinParts_inside hholds hroom part parts
  refine ⟨path', hholds', ?_⟩
  rw [strlen_slash_eq] at hint
  rw [hstep, if_pos (by omega), strlen_slash_eq, inInt32_of_lt (by omega) (by omega)]
  rfl

theorem joinParts_tooLong (hholds : HoldsText path text) (hroom : strlen text ≤ 256)
    (hint : 2 ^ 31 ≤ strlen (slash text part)) :
    ∃ fault, joinParts path (strlen text) (part :: parts) = .error fault := by
  obtain ⟨path', _, hstep⟩ := joinParts_inside hholds hroom part parts
  rw [hstep]
  split_ifs
  · rw [inInt32, if_neg (by omega)]
    exact ⟨_, rfl⟩
  · exact ⟨_, rfl⟩

/-! ## All parts -/

theorem joinParts_fits (hholds : HoldsText path text) (hfits : PartsFit text parts) :
    ∃ joined, joinParts path (strlen text) parts = .ok joined ∧
      joined.bytes = (parts.foldl slash text).bytes.take 255 := by
  induction parts generalizing path text with
  | nil => exact ⟨ofBuffer path, rfl, ofBuffer_of_holdsText hholds⟩
  | cons part parts ih =>
      obtain ⟨hroom, hint, hrest⟩ := hfits
      obtain ⟨path', hholds', hstep⟩ := @joinParts_cons path text part parts hholds hroom hint
      rw [hstep]
      exact ih hholds' hrest

theorem joinParts_ne_ok {joined : CString} (hholds : HoldsText path text)
    (hint : strlen text < 2 ^ 31) (hfits : ¬ PartsFit text parts) :
    joinParts path (strlen text) parts ≠ .ok joined := by
  induction parts generalizing path text with
  | nil => exact absurd trivial hfits
  | cons part parts ih =>
      intro hcall
      by_cases hroom : strlen text ≤ 256
      · by_cases hlong : strlen (slash text part) < 2 ^ 31
        · obtain ⟨path', hholds', hstep⟩ := @joinParts_cons path text part parts hholds hroom hlong
          rw [hstep] at hcall
          exact ih hholds' hlong (fun hrest => hfits ⟨hroom, hlong, hrest⟩) hcall
        · obtain ⟨fault, hfault⟩ := @joinParts_tooLong path text part parts hholds hroom (by omega)
          rw [hfault] at hcall
          cases hcall
      · rw [joinParts_outside hholds (by omega) hint] at hcall
        cases hcall

/-- The base in the buffer. -/
theorem exists_snprintf_base (base : CString) :
    ∃ path, HoldsText path base ∧
      snprintf (List.replicate 256 0) 0 256 base.bytes =
        .ok (if strlen base < 2 ^ 31 then strlen base else -1, path) := by
  obtain ⟨rest, hcall, hrest⟩ := @snprintf_eq (List.replicate 256 0) 0 256 base.bytes
    (List.length_replicate ..).ge (by omega)
  refine ⟨_, ⟨?_, rest, rfl⟩, hcall⟩
  rw [List.length_replicate, show 256 - 1 = 255 from rfl] at hrest
  rw [List.length_append, List.length_cons]
  omega

/-! ## The paths of the netdb -/

theorem ofBuffer_eq (hholds : HoldsText path text) :
    ofBuffer path = ofBuffer (text.bytes.take 255) := by
  rw [← ofBuffer_of_holdsText hholds, ofBuffer_bytes]

theorem joinParts_eq_netdb (hholds : HoldsText path text)
    (hint : strlen (wholePath text parts) < 2 ^ 31) :
    joinParts path (strlen text) parts =
      Netdb.joinParts (text.bytes.take 255) (strlen text) parts >>= fun joined =>
        .ok (ofBuffer joined) := by
  induction parts generalizing path text with
  | nil => exact congrArg Except.ok (ofBuffer_eq hholds)
  | cons part parts ih =>
      have hlong := Files.strlen_le_foldl_slash (slash text part) parts
      have hlast : strlen (parts.foldl slash (slash text part)) < 2 ^ 31 := hint
      have hcut : (slash text part).bytes.take 255 =
          text.bytes.take 255 ++ (ch '/' :: part.bytes).take (255 - strlen text) := List.take_append
      have hnext := strlen_slash_eq text part
      rw [Netdb.joinParts]
      by_cases hroom : strlen text ≤ 256
      · obtain ⟨path', hholds', hstep⟩ := @joinParts_cons path text part parts hholds hroom
          (by omega)
        rw [hstep, ih hholds' hlast, hcut, hnext, if_neg (by omega)]
      · rw [joinParts_outside hholds (by omega) (by omega), if_pos (by omega)]
        rfl

/-- In the range of an `int`, this is how the netdb joins its paths. -/
theorem pathJoin_eq_netdb (hint : strlen (wholePath base parts) < 2 ^ 31) :
    pathJoin base parts = Netdb.pathJoin base parts := by
  obtain ⟨path, hholds, hbase⟩ := exists_snprintf_base base
  have hlong : strlen base < 2 ^ 31 := (Files.strlen_le_foldl_slash base parts).trans_lt hint
  rw [pathJoin, hbase, ok_bind]
  dsimp only [Netdb.pathJoin]
  rw [if_pos hlong]
  by_cases hempty : strlen base = 0
  · rw [if_pos hempty, if_pos (by omega)]
  · rw [if_neg hempty, if_neg (by omega)]
    exact joinParts_eq_netdb hholds hint

/-! ## Paths that fit -/

/-- The base is a string of an `int` length, and every part fits. -/
def PathFits (base : CString) (parts : List CString) : Prop :=
  0 < strlen base ∧ strlen base < 2 ^ 31 ∧ PartsFit base parts

theorem exists_pathJoin (hfits : PathFits base parts) :
    ∃ path, pathJoin base parts = .ok path ∧
      path.bytes = (wholePath base parts).bytes.take 255 := by
  obtain ⟨path, hholds, hbase⟩ := exists_snprintf_base base
  obtain ⟨hpos, hint, hparts⟩ := hfits
  obtain ⟨joined, hcall, htake⟩ := joinParts_fits hholds hparts
  refine ⟨joined, ?_, htake⟩
  rw [pathJoin, hbase, ok_bind]
  dsimp only
  rw [if_pos hint, if_neg (by omega), hcall]

theorem pathFits_of_pathJoin {joined : CString} (hcall : pathJoin base parts = .ok joined) :
    PathFits base parts := by
  obtain ⟨path, hholds, hbase⟩ := exists_snprintf_base base
  rw [pathJoin, hbase, ok_bind] at hcall
  dsimp only at hcall
  split_ifs at hcall with hint hpos hpos
  · refine ⟨by omega, hint, ?_⟩
    by_contra hfits
    exact joinParts_ne_ok hholds hint hfits hcall
  · omega

/-- A path is joined as it should be exactly if the base is not empty, and
before every part the path is at most one byte too long. -/
theorem joinsPath_iff (base : CString) (parts : List CString) :
    JoinsPath base parts ↔ PathFits base parts := by
  constructor
  · rintro ⟨joined, hcall, _⟩
    exact pathFits_of_pathJoin hcall
  · intro hfits
    obtain ⟨joined, hcall, htake⟩ := exists_pathJoin hfits
    exact ⟨joined, hcall, longestPrefix_of_take htake⟩

end Join

/-- A base of 257 bytes. -/
def longBase : CString where
  bytes := List.replicate 257 (ch 'a')
  noNul := fun byte hbyte => by
    rw [List.eq_of_mem_replicate hbyte]
    decide

/-- A part behind it is written outside of the buffer. -/
theorem not_joinsPath_longBase :
    pathJoin longBase [dot] = .error .outOfBounds ∧ ¬ JoinsPath longBase [dot] := by
  have hlength : strlen longBase = 257 := List.length_replicate
  have hcall : pathJoin longBase [dot] = .error .outOfBounds := by
    obtain ⟨path, hholds, hbase⟩ := exists_snprintf_base longBase
    rw [if_pos (show strlen longBase < 2 ^ 31 by omega)] at hbase
    rw [pathJoin, hbase, ok_bind]
    have hpos : ¬ (strlen longBase : ℤ) ≤ 0 := by omega
    exact (if_neg hpos).trans (joinParts_outside hholds (by omega) (by omega))
  refine ⟨hcall, ?_⟩
  rintro ⟨path, hjoined, _⟩
  rw [hcall] at hjoined
  cases hjoined

end I2pLite.PathBuffer
