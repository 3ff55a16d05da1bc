import Mathlib.Data.Int.Notation
import Mathlib.Data.List.TakeWhile
import I2pLite.Core.CBytes
import I2pLite.Core.Pieces

/-!
# Streams of the C library

A stream open for writing remembers what has reached the file and which of the
following calls fail; a failing call may leave some of its bytes behind.  A
stream open for reading is the bytes still to be read.  Sizes and counts are
unbounded: no object and no file has 2^63 bytes.
-/

namespace I2pLite.Stdio

open I2pLite.CBytes
open I2pLite.Pieces

structure OutFile where
  bytes : List Byte := []
  calls : ℕ := 0
  /-- whether a call fails, and the number of bytes that it then emits -/
  fails : ℕ → Option ℕ

/-- The bytes of one call that reach the file; a failing call never emits all
of its bytes. -/
def OutFile.emitted (f : OutFile) (data : List Byte) : List Byte :=
  match f.fails f.calls with
  | none => data
  | some count => data.take (min count (data.length - 1))

def OutFile.put (f : OutFile) (data : List Byte) : OutFile :=
  { f with bytes := f.bytes ++ f.emitted data, calls := f.calls + 1 }

/-- `fprintf` of the formatted bytes: their number, or -1. -/
def fprintf (f : OutFile) (data : List Byte) : ℤ × OutFile :=
  match f.fails f.calls with
  | none => (data.length, f.put data)
  | some _ => (-1, f.put data)

def fputc (byte : Byte) (f : OutFile) : ℤ × OutFile :=
  match f.fails f.calls with
  | none => (byte.toNat, f.put [byte])
  | some _ => (-1, f.put [byte])

/-- `fwrite` of `data.length` items of one byte: the number of items written. -/
def fwrite (data : List Byte) (f : OutFile) : ℕ × OutFile :=
  ((f.emitted data).length, f.put data)

/-- `fwrite` of one item of all the bytes: the number of complete items. -/
def fwriteItem (data : List Byte) (f : OutFile) : ℕ × OutFile :=
  if data = [] then (0, f) else ((f.emitted data).length / data.length, f.put data)

def OutFile.NeverFails (f : OutFile) : Prop := ∀ call, f.fails call = none

section NeverFails

variable {f : OutFile}

@[simp]
theorem OutFile.put_fails (data : List Byte) : (f.put data).fails = f.fails := rfl

theorem OutFile.NeverFails.put (hf : f.NeverFails) (data : List Byte) :
    (f.put data).NeverFails := hf

theorem OutFile.NeverFails.emitted (hf : f.NeverFails) (data : List Byte) :
    f.emitted data = data := by
  simp [OutFile.emitted, hf f.calls]

theorem OutFile.NeverFails.put_bytes (hf : f.NeverFails) (data : List Byte) :
    (f.put data).bytes = f.bytes ++ data := by
  simp [OutFile.put, hf.emitted data]

theorem OutFile.NeverFails.fprintf_eq (hf : f.NeverFails) (data : List Byte) :
    fprintf f data = ((data.length : ℤ), f.put data) := by
  simp [fprintf, hf f.calls]

theorem OutFile.NeverFails.fputc_eq (hf : f.NeverFails) (byte : Byte) :
    fputc byte f = ((byte.toNat : ℤ), f.put [byte]) := by
  simp [fputc, hf f.calls]

theorem OutFile.NeverFails.fwrite_eq (hf : f.NeverFails) (data : List Byte) :
    fwrite data f = (data.length, f.put data) := by
  simp [fwrite, hf.emitted data]

theorem OutFile.NeverFails.fwriteItem_eq (hf : f.NeverFails) {data : List Byte}
    (hdata : data ≠ []) : fwriteItem data f = (1, f.put data) := by
  rw [fwriteItem, if_neg hdata, hf.emitted data, Nat.div_self (List.length_pos_iff.mpr hdata)]

end NeverFails

abbrev InFile := List Byte

def fgetc (f : InFile) : Option Byte × InFile :=
  match f with
  | [] => (none, [])
  | byte :: rest => (some byte, rest)

/-- The bytes up to the first delimiter and with it, and what follows. -/
def splitLine (delim : Byte) : List Byte → List Byte × List Byte
  | [] => ([], [])
  | byte :: rest =>
      if byte = delim then ([byte], rest)
      else (byte :: (splitLine delim rest).1, (splitLine delim rest).2)

/-- The line with its delimiter; a last line may lack it, and at the end of
the file there is none. -/
def getdelim (delim : Byte) (f : InFile) : Option (List Byte) × InFile :=
  if f = [] then (none, [])
  else (some (splitLine delim f).1, (splitLine delim f).2)

/-- `fgets` into a buffer of `size` bytes: the bytes before the NUL that ends the
string.  A longer line is cut, and at the end of the file there is none. -/
def fgets (size : ℕ) (f : InFile) : Option (List Byte) × InFile :=
  if f = [] then (none, [])
  else
    let line := firstPiece (fun byte => byte = ch '\n') (size - 1) f
    (some line, f.drop line.length)

/-- `fread` of one item of `size` bytes: the number of complete items, and
what is in the buffer. -/
def freadItem (size : ℕ) (f : InFile) : (ℕ × List Byte) × InFile :=
  if size ≤ f.length then ((1, f.take size), f.drop size)
  else ((0, f), [])

/-- `fread` of `nmemb` items of `size` bytes: the number of complete items, and
what is in the buffer.  Without a byte to read the stream is left alone. -/
def fread (size nmemb : ℕ) (f : InFile) : (ℕ × List Byte) × InFile :=
  if size * nmemb = 0 then ((0, []), f)
  else ((min nmemb (f.length / size), f.take (size * nmemb)), f.drop (size * nmemb))

theorem fread_item {size : ℕ} (hsize : size ≠ 0) (f : InFile) :
    fread size 1 f = ((min 1 (f.length / size), f.take size), f.drop size) := by
  rw [fread, Nat.mul_one, if_neg hsize]

/-- A line and what follows it are the file. -/
theorem splitLine_append (delim : Byte) (f : List Byte) :
    (splitLine delim f).1 ++ (splitLine delim f).2 = f := by
  induction f with
  | nil => rfl
  | cons byte rest ih =>
      rw [splitLine]
      split_ifs
      · rfl
      · rw [List.cons_append, ih]

theorem splitLine_delim {delim : Byte} {body rest : List Byte} (hbody : delim ∉ body) :
    splitLine delim (body ++ delim :: rest) = (body ++ [delim], rest) := by
  induction body with
  | nil => simp [splitLine]
  | cons byte body ih =>
      rw [List.mem_cons, not_or] at hbody
      rw [List.cons_append, splitLine, if_neg (Ne.symm hbody.1), ih hbody.2, List.cons_append]

theorem getdelim_of_ne_nil {delim : Byte} {f : InFile} (hf : f ≠ []) :
    getdelim delim f = (some (splitLine delim f).1, (splitLine delim f).2) := if_neg hf

theorem getdelim_append {delim : Byte} {body rest : List Byte} (hbody : delim ∉ body) :
    getdelim delim (body ++ delim :: rest) = (some (body ++ [delim]), rest) := by
  rw [getdelim_of_ne_nil (by simp), splitLine_delim hbody]

end I2pLite.Stdio
