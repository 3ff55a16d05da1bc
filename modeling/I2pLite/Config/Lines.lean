import Mathlib.Data.List.TakeWhile
import I2pLite.Core.Pieces
import I2pLite.Config.Config

/-!
# What is read from a configuration file

The loop of a load reads the pieces of the file that fit into its buffer and
ends at the first bad one.  Its cursors give the longest prefixes of a piece
that they skip.
-/

namespace I2pLite.ConfigLines

open I2pLite.CRun
open I2pLite.CBytes
open I2pLite.Stdio
open I2pLite.Pieces
open I2pLite.Config

def isNewline (byte : Byte) : Bool := byte = ch '\n'

theorem isNewline_eq_false {text : List Byte} (htext : ch '\n' ∉ text) :
    ∀ byte ∈ text, isNewline byte = false := by
  intro byte hbyte
  rw [isNewline, decide_eq_false_iff_not]
  rintro rfl
  exact htext hbyte

/-- What is made of the pieces of a file, one after the other. -/
def readsOf (f : InFile) : List LineRead := (pieces isNewline 1023 f).map readLine

/-- The entries in front of the first bad line. -/
def entriesBefore : List LineRead → List MnetConfigEntry
  | [] => []
  | .skipped :: reads => entriesBefore reads
  | .bad :: _ => []
  | .entry k v :: reads => { name := k, value := v } :: entriesBefore reads

/-- The result of a load, which appends the entries to a configuration. -/
def loaded (reads : List LineRead) (cfg : MnetConfig) : ℤ × MnetConfig :=
  (if .bad ∈ reads then 0 else 1,
    { list := (entriesBefore reads).reverse ++ cfg.list
      size := cfg.size + (entriesBefore reads).length })

variable {f : InFile} {reads : List LineRead} {cfg : MnetConfig} {k v : CString}

theorem readsOf_of_ne_nil (hf : f ≠ []) :
    readsOf f =
      readLine (firstPiece isNewline 1023 f) ::
        readsOf (f.drop (firstPiece isNewline 1023 f).length) := by
  rw [readsOf, pieces_of_ne_nil (by decide) hf, List.map_cons, readsOf]

theorem loaded_skipped : loaded (.skipped :: reads) cfg = loaded reads cfg := by
  simp [loaded, entriesBefore]

theorem loaded_bad : loaded (.bad :: reads) cfg = (0, cfg) := by
  simp [loaded, entriesBefore]

theorem loaded_entry :
    loaded (.entry k v :: reads) cfg = loaded reads (mnetConfigAppendEntry cfg k v) := by
  simp only [loaded, entriesBefore, mnetConfigAppendEntry, List.mem_cons, reduceCtorEq, false_or,
    List.reverse_cons, List.append_assoc, List.singleton_append, List.length_cons]
  rw [Nat.add_assoc, Nat.add_comm 1]

theorem loadLoop_eq {fuel : ℕ} (hfuel : f.length < fuel) :
    loadLoop fuel f cfg = .ok (loaded (readsOf f) cfg) := by
  induction fuel generalizing f cfg with
  | zero => exact absurd hfuel (Nat.not_lt_zero _)
  | succ fuel ih =>
      by_cases hf : f = []
      · subst hf
        simp [loadLoop, fgets, readsOf, loaded, entriesBefore]
      · have hpiece : 0 < (firstPiece isNewline 1023 f).length :=
          List.length_pos_iff.mpr (firstPiece_ne_nil (by decide) hf)
        have hrest : (f.drop (firstPiece isNewline 1023 f).length).length < fuel := by
          have := List.length_pos_iff.mpr hf
          rw [List.length_drop]
          omega
        have hfgets : fgets 1024 f = (some (firstPiece isNewline 1023 f),
            f.drop (firstPiece isNewline 1023 f).length) := if_neg hf
        rw [loadLoop, hfgets, readsOf_of_ne_nil hf]
        cases hread : readLine (firstPiece isNewline 1023 f) with
        | skipped => simp only [hread, ih hrest, loaded_skipped]
        | bad => simp only [hread, loaded_bad]
        | entry k v => simp only [hread, ih hrest, loaded_entry]

/-- A load ends, with the entries in front of the first bad piece. -/
theorem mnetConfigLoad_eq (f : InFile) :
    mnetConfigLoad (some f) = .ok (loaded (readsOf f) mnetConfigAlloc) :=
  loadLoop_eq (Nat.lt_succ_self _)

/-! ## Cursors -/

theorem ofBuffer_of_noNul {bytes : List Byte} (hbytes : ∀ byte ∈ bytes, byte ≠ 0) :
    (ofBuffer bytes).bytes = bytes :=
  congrArg CString.bytes (ofBuffer_bytes ⟨bytes, hbytes⟩)

/-- The bytes that a cursor has skipped are a string of their own. -/
theorem strndup_dropWhile (skips : Byte → Bool) (str : List Byte) :
    strndup str (str.dropWhile skips) = ofBuffer (str.takeWhile skips) := by
  have hparts := List.takeWhile_append_dropWhile (p := skips) (l := str)
  have hlength : str.length - (str.dropWhile skips).length = (str.takeWhile skips).length := by
    have hsum := congrArg List.length hparts
    rw [List.length_append] at hsum
    omega
  rw [strndup, hlength]
  nth_rewrite 2 [← hparts]
  rw [List.take_left]

theorem dropWhile_dropWhile_of_imp {first second : Byte → Bool}
    (himp : ∀ byte, first byte = true → second byte = true) (str : List Byte) :
    (str.dropWhile first).dropWhile second = str.dropWhile second := by
  induction str with
  | nil => rfl
  | cons byte str ih =>
      by_cases hfirst : first byte = true
      · rw [List.dropWhile_cons_of_pos hfirst, List.dropWhile_cons_of_pos (himp byte hfirst), ih]
      · rw [List.dropWhile_cons_of_neg hfirst]

def isNameByte (byte : Byte) : Bool := byte = ch '.' || isalnum byte

def isValueByte (byte : Byte) : Bool := byte ≠ ch '#' && byte ≠ ch '\n'

theorem isValueByte_of_isNameByte (byte : Byte) (hname : isNameByte byte = true) :
    isValueByte byte = true := by
  rw [isValueByte, Bool.and_eq_true, decide_eq_true_iff, decide_eq_true_iff]
  constructor
  · rintro rfl
    revert hname
    decide
  · rintro rfl
    revert hname
    decide

theorem skipSpaces_cons_of_ne {byte : Byte} (hspace : byte ≠ ch ' ') (rest : List Byte) :
    skipSpaces (byte :: rest) = byte :: rest :=
  List.dropWhile_cons_of_neg (by simpa using hspace)

theorem skipChars_eq (str : List Byte) : skipChars str = str.dropWhile isNameByte := rfl

/-- A value goes on to the first `#`, or to the end of the line. -/
theorem readToComment_dropWhile (str : List Byte) :
    readToComment (str.dropWhile isNameByte) = str.dropWhile isValueByte :=
  dropWhile_dropWhile_of_imp isValueByte_of_isNameByte str

theorem readLine_eq (linebuf : List Byte) :
    readLine linebuf =
      let line := (ofBuffer linebuf).bytes
      let start := skipSpaces line
      let rest := skipSpaces (start.dropWhile isNameByte)
      if isCommentLine line ∨ isEmtpyLine line then .skipped
      else if rest.head? ≠ some (ch '=') then .bad
      else
        .entry (ofBuffer (start.takeWhile isNameByte))
          (ofBuffer ((skipSpaces (rest.drop 1)).takeWhile isValueByte)) := by
  simp only [readLine, skipChars_eq, readToComment_dropWhile, strndup_dropWhile, ite_or]

end I2pLite.ConfigLines
