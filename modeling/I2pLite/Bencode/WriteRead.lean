import I2pLite.Bencode.ReadSound
import I2pLite.Bencode.Write

/-!
# Reading back what was written

The reader takes its own counts and lengths and knows no integers, so of all
that the writer can write it gives back only the empty string.
-/

namespace I2pLite.WriteRead

open I2pLite.CRun
open I2pLite.CBytes
open I2pLite.Decimal
open I2pLite.Stdio
open I2pLite.Bencoding
open I2pLite.BencodeObject
open I2pLite.Denotation
open I2pLite.Write
open I2pLite.Read
open I2pLite.ReadSound

/-- In front of any suffix, the reader returns the count of the writer, has
consumed that many bytes, and delivers an object equal to the one written. -/
def ReadsBack (obj : BencodeObj) (n : ℤ) (out : List Byte) : Prop :=
  ∀ suffix, ∃ fuel obj' data rest,
    bencodeReadFile fuel (out ++ suffix) = .ok (n, some obj', rest) ∧
    out ++ suffix = data ++ rest ∧ n = data.length ∧ SameObj obj obj'

section Written

variable {fuel : ℕ} {obj : BencodeObj} {f f' : OutFile} {n : ℤ} {out : List Byte}

/-- The context that a write starts from, and the one it ends in. -/
theorem exists_bencodeWrite (hwrite : bencodeWriteFile (fuel + 1) (.live obj) f = .ok (n, f')) :
    bencodeWrite (fuel + 1) (.live obj) { f := f, written := 0 } =
      .ok { f := f', written := n } := by
  obtain ⟨ctx, hctx, hresult⟩ := bind_eq_ok.mp hwrite
  obtain ⟨rfl, rfl⟩ := ok_pair_inj hresult
  exact hctx

/-- The bytes that a write emits, and the count of them that it returns. -/
theorem out_eq_of_wrote {data : List Byte}
    (hwrote : Wrote data { f := f, written := 0 } { f := f', written := n })
    (hout : f'.bytes = f.bytes ++ out) : out = data ∧ n = data.length := by
  have hbytes := hwrote.bytes
  rw [hout, List.append_cancel_left_eq] at hbytes
  exact ⟨hbytes, by simpa using hwrote.written⟩

/-- What opens with the letter of a list or a dict is not read back. -/
theorem not_readsBack_of_opens {letter : Byte} {data : List Byte} (hn : n = (letter :: data).length)
    (hopens : letter = ch 'l' ∨ letter = ch 'd') : ¬ ReadsBack obj n (letter :: data) := by
  intro hreads
  obtain ⟨readFuel, obj', consumed, rest, hread, hsplit, hcount, _⟩ := hreads []
  rw [List.append_nil] at hread hsplit
  have hlt := count_lt_of_opens hread (by omega) hopens
  rw [hsplit, List.length_append] at hlt
  omega

theorem not_readsBack_integer {data : List Byte} (hn : n = (ch 'i' :: data).length) :
    ¬ ReadsBack obj n (ch 'i' :: data) := by
  intro hreads
  obtain ⟨readFuel, obj', consumed, rest, hread, _⟩ := hreads []
  obtain ⟨fuel', hcall⟩ := exists_dispatch hread
  have hcount : -1 = n := congrArg ReadCtx.read (ok_pair_inj hcall).2
  omega

theorem eq_nil_of_readsBack_str {data : List Byte} (hn : n = (encodeStr data).length)
    (hreads : ReadsBack (.str data) n (encodeStr data)) : data = [] := by
  obtain ⟨readFuel, obj', consumed, rest, hread, hsplit, hcount, value, hvalue, hvalue'⟩ :=
    hreads []
  obtain ⟨rfl, rfl⟩ : encodeStr data = consumed ∧ [] = rest :=
    List.append_inj hsplit (by omega)
  have hsame : value = .str data := by
    cases value with
    | str bytes => exact congrArg BencodeValue.str (BencodeObj.str.inj hvalue).symm
    | int value => obtain ⟨_, hobj, _⟩ := hvalue; cases hobj
    | list items => obtain ⟨_, hobj, _⟩ := hvalue; cases hobj
    | dict entries => obtain ⟨_, ⟨_, _, _, hobj, _⟩, _⟩ := hvalue; cases hobj
  rw [hsame] at hvalue'
  have hsound : SoundlyRead (encodeStr data ++ []) n (some obj') [] :=
    ⟨_, _, _, rfl, hn, encodes_encodeStr data, rfl, hvalue'⟩
  obtain ⟨digits, tail, hzero, _⟩ :=
    startsWithZeroLength_of_soundlyRead hread (by omega) hsound
  have hlength : data.length = 0 := by
    cases hdecimal : decimal data.length with
    | nil => exact absurd hdecimal (decimal_ne_nil _)
    | cons byte rest =>
        rw [encodeStr, hdecimal, List.cons_append, List.cons_append] at hzero
        rw [(List.cons.inj hzero).1] at hdecimal
        exact eq_zero_of_decimal_cons hdecimal
  exact List.length_eq_zero_iff.mp hlength

theorem readsBack_empty : ReadsBack (.str []) 2 (encodeStr []) := by
  intro suffix
  refine ⟨1, .str [], encodeStr [], suffix, ?_, rfl, rfl, .str [], rfl, rfl⟩
  change dispatch (bencodeRead 0) 0 (some (ch '0')) { f := ch ':' :: suffix, read := 1 } >>= _ = _
  rw [dispatch_digit (by decide), bencodeReadStr_colon]
  rfl

/-- Of the objects that the writer writes, only the empty string is read back. -/
theorem readsBack_iff (hf : f.NeverFails)
    (hwrite : bencodeWriteFile fuel (.live obj) f = .ok (n, f'))
    (hout : f'.bytes = f.bytes ++ out) : ReadsBack obj n out ↔ obj = .str [] := by
  cases fuel with
  | zero => simp [bencodeWriteFile, bencodeWrite] at hwrite
  | succ fuel =>
      have hcall := exists_bencodeWrite hwrite
      have hready : Ready { f := f, written := 0 } := ⟨hf, le_rfl⟩
      cases obj with
      | str data =>
          rw [bencodeWrite_str hready.written_ne] at hcall
          have hwrote := hready.wrote_str data
          rw [Except.ok.inj hcall] at hwrote
          obtain ⟨rfl, hn⟩ := out_eq_of_wrote hwrote hout
          constructor
          · intro hreads
            rw [eq_nil_of_readsBack_str hn hreads]
          · intro hempty
            obtain rfl := BencodeObj.str.inj hempty
            rw [hn]
            exact readsBack_empty
      | integer value =>
          rw [bencodeWrite_integer hready.written_ne] at hcall
          have hwrote := hready.wrote_integer value
          rw [Except.ok.inj hcall] at hwrote
          obtain ⟨rfl, hn⟩ := out_eq_of_wrote hwrote hout
          exact iff_of_false (not_readsBack_integer hn) (by simp)
      | dict nodes =>
          rw [bencodeWrite_dict hready.written_ne] at hcall
          obtain ⟨data, hwrote⟩ := exists_wrote_opened (bencodeObjIterDict_writing
            (bencodeDictWrite_writing (bencodeWrite_writing fuel)) fuel _) hready hcall
          obtain ⟨rfl, hn⟩ := out_eq_of_wrote hwrote hout
          exact iff_of_false (not_readsBack_of_opens hn (Or.inr rfl)) (by simp)
      | list vals =>
          rw [bencodeWrite_list hready.written_ne] at hcall
          obtain ⟨data, hwrote⟩ := exists_wrote_opened
            (bencodeObjIterList_writing (bencodeWrite_writing fuel) _) hready hcall
          obtain ⟨rfl, hn⟩ := out_eq_of_wrote hwrote hout
          exact iff_of_false (not_readsBack_of_opens hn (Or.inl rfl)) (by simp)

end Written

/-- A string is written to a file that never fails. -/
theorem exists_bencodeWriteFile_str (data : List Byte) :
    ∃ f', bencodeWriteFile 1 (.live (.str data)) { fails := fun _ => none } =
        .ok ((encodeStr data).length, f') ∧ f'.bytes = encodeStr data := by
  have hready : Ready { f := { fails := fun _ => none }, written := 0 } := ⟨fun _ => rfl, le_rfl⟩
  have hwrote := hready.wrote_str data
  refine ⟨_, ?_, hwrote.bytes⟩
  rw [bencodeWriteFile, bencodeWrite_str hready.written_ne, ok_bind, hwrote.written, zero_add]

theorem readsBack_iff_empty :
    ∃ n f', bencodeWriteFile 1 (.live (.str [])) { fails := fun _ => none } = .ok (n, f') ∧
      (ReadsBack (.str []) n f'.bytes ↔ BencodeObj.str [] = .str []) := by
  obtain ⟨f', hwrite, _⟩ := exists_bencodeWriteFile_str []
  exact ⟨_, f', hwrite, readsBack_iff (fun _ => rfl) hwrite rfl⟩

/-- The string `"a"` is written as `1:a`, and read back as the empty string. -/
theorem not_readsBack_a :
    ¬ ∀ fuel obj f n f' out, Built obj → f.NeverFails →
      bencodeWriteFile fuel (.live obj) f = .ok (n, f') → f'.bytes = f.bytes ++ out →
      ReadsBack obj n out := by
  intro hall
  obtain ⟨f', hwrite, hbytes⟩ := exists_bencodeWriteFile_str [ch 'a']
  have hreads := hall _ _ _ _ _ _ (.str [ch 'a']) (fun _ => rfl) hwrite hbytes
  exact absurd (eq_nil_of_readsBack_str rfl hreads) (by simp)

end I2pLite.WriteRead
