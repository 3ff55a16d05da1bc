import I2pLite.Bencode.Denotation
import I2pLite.Bencode.ReadCount

/-!
# Which reads are sound

The first digit of a length is not among the bytes that `atoi` sees, an item
of more than one byte is taken for a failed read, and the terminator of a list
or a dict is not counted.  What is left to be read soundly are strings whose
length starts with a zero and is at most 1.
-/

namespace I2pLite.ReadSound

open I2pLite.CRun
open I2pLite.CBytes
open I2pLite.CInt
open I2pLite.Decimal
open I2pLite.Numeral
open I2pLite.Stdio
open I2pLite.Bencoding
open I2pLite.BencodeObject
open I2pLite.Denotation
open I2pLite.Read
open I2pLite.ReadCount

/-! ## Lengths made of digits -/

theorem take_numbuf {line : List Byte} (hshort : line.length ≤ 30) :
    (line ++ List.replicate 31 0).take 31 = line ++ 0 :: List.replicate (30 - line.length) 0 := by
  rw [List.take_append, List.take_of_length_le (by omega), List.take_replicate,
    ← List.replicate_succ]
  congr 2
  omega

theorem ne_zero_of_isDigit {byte : Byte} (hdigit : isDigit byte) : byte ≠ 0 := by
  rintro rfl
  revert hdigit
  decide

/-- A line of digits with its delimiter is a C string of its own. -/
theorem ofBuffer_digits {digits : List Byte} (hdigits : ∀ byte ∈ digits, isDigit byte) :
    (ofBuffer (digits ++ [ch ':'])).bytes = digits ++ [ch ':'] := by
  apply List.takeWhile_eq_self_iff.mpr
  intro byte hbyte
  rcases List.mem_append.mp hbyte with hbyte | hbyte
  · simpa using ne_zero_of_isDigit (hdigits byte hbyte)
  · rw [List.mem_singleton.mp hbyte]
    decide

/-- The length of a string is what the digits behind its first one say, unless
they fill the buffer. -/
theorem lineLength_digits {prefixByte : Byte} {digits : List Byte}
    (hdigits : ∀ byte ∈ digits, isDigit byte) (hlength : (digits.length : ℤ) + 1 < 2 ^ 31) :
    lineLength prefixByte (digits ++ [ch ':']) =
      if digits.length ≤ 30 then
        .ok (digits.length + 1, toInt32 (min (digitsValue digits) (2 ^ 63 - 1)))
      else .error .outOfBounds := by
  have hslen : toInt32 (strlen (ofBuffer (digits ++ [ch ':']))) = digits.length + 1 := by
    rw [strlen, ofBuffer_digits hdigits, List.length_append, List.length_singleton]
    exact toInt32_of_lt (by omega) (by exact_mod_cast hlength)
  have hline : (ofBuffer (digits ++ [ch ':'])).bytes.take
      ((digits.length : ℤ) + 1 - 1).toNat = digits := by
    rw [ofBuffer_digits hdigits]
    simp
  simp only [lineLength, hslen, hline, numbuf_eq]
  rw [if_neg (by omega)]
  split_ifs with hshort
  · rw [take_numbuf hshort, atoi_digits hdigits, ok_bind]
  · have hfull : (digits ++ List.replicate 31 0).take 31 = digits.take 31 :=
      List.take_append_of_le_length (by omega)
    rw [hfull, atoi_all_digits fun byte hbyte => hdigits byte (List.mem_of_mem_take hbyte),
      error_bind]

/-- Behind a length of one digit, whatever the digit, nothing is read. -/
theorem bencodeReadStr_colon (prefixByte : Byte) (rest : List Byte) (count : ℤ) :
    bencodeReadStr prefixByte { f := ch ':' :: rest, read := count } =
      .ok (some (.str []), { f := rest, read := count + 1 }) := by
  have hlength : lineLength prefixByte [ch ':'] = .ok (1, 0) := by
    have hdigits : lineLength prefixByte ([] ++ [ch ':']) = _ :=
      lineLength_digits (List.forall_mem_nil _) (by simp)
    simpa [digitsValue, toInt32] using hdigits
  have hline : getdelim (ch ':') (ch ':' :: rest) = (some [ch ':'], rest) :=
    getdelim_append List.not_mem_nil
  simp [bencodeReadStr, hline, hlength, bencodeObjStr]

/-! ## Soundness -/

/-- The count is the number of bytes consumed, and these are the encoding of
the value that the object denotes. -/
def SoundlyRead (s : List Byte) (n : ℤ) (o : Option BencodeObj) (rest : List Byte) : Prop :=
  ∃ data value obj, s = data ++ rest ∧ n = data.length ∧ Encodes data value ∧
    o = some obj ∧ Denotes value obj

/-- The input starts with a zero, further digits of a value of at most 1, no
more than 30 of them, and a colon. -/
def StartsWithZeroLength (s : List Byte) : Prop :=
  ∃ digits tail, s = ch '0' :: (digits ++ ch ':' :: tail) ∧
    (∀ byte ∈ digits, isDigit byte) ∧ digits.length ≤ 30 ∧ digitsValue digits ≤ 1

/-- The byte that a read dispatches on is the first of the file. -/
theorem exists_dispatch {fuel : ℕ} {byte : Byte} {s rest : List Byte} {n : ℤ}
    {o : Option BencodeObj} (hread : bencodeReadFile fuel (byte :: s) = .ok (n, o, rest)) :
    ∃ fuel', dispatch (bencodeRead fuel') fuel' (some byte) { f := s, read := 1 } =
      .ok (o, { f := rest, read := n }) := by
  obtain ⟨⟨o', ctx⟩, hcall, hresult⟩ := bind_eq_ok.mp hread
  cases fuel with
  | zero => simp [bencodeRead] at hcall
  | succ fuel =>
      refine ⟨fuel, ?_⟩
      simp only [Except.ok.injEq, Prod.mk.injEq] at hresult
      obtain ⟨rfl, rfl, rfl⟩ := hresult
      exact hcall

theorem dispatch_digit {read : Reader} {fuel : ℕ} {byte : Byte} {ctx : ReadCtx}
    (hdigit : isDigit byte) :
    dispatch read fuel (some byte) ctx = bencodeReadStr byte ctx := by
  have hlist : byte ≠ ch 'l' := by
    rintro rfl
    revert hdigit
    decide
  have hdict : byte ≠ ch 'd' := by
    rintro rfl
    revert hdigit
    decide
  simp [dispatch, hlist, hdict, hdigit]

/-- A list or a dict at the top is never counted in full. -/
theorem count_lt_of_opens {fuel : ℕ} {byte : Byte} {s rest : List Byte} {n : ℤ}
    {o : Option BencodeObj} (hread : bencodeReadFile fuel (byte :: s) = .ok (n, o, rest))
    (hn : n ≠ -1) (hopens : byte = ch 'l' ∨ byte = ch 'd') :
    n + rest.length < (byte :: s).length := by
  obtain ⟨fuel', hcall⟩ := exists_dispatch hread
  have hshort := (dispatch_counts (bencodeRead_countingReader fuel') hcall (by simp)).2
    (by simpa using hopens)
  rcases hshort with herror | hshort
  · exact absurd herror hn
  · rw [List.length_cons]
    push_cast
    simp only at hshort
    omega

theorem not_colon_of_isDigit {digits : List Byte} (hdigits : ∀ byte ∈ digits, isDigit byte) :
    ch ':' ∉ digits := by
  intro hcolon
  have hdigit := hdigits _ hcolon
  revert hdigit
  decide

/-- A read of a digit that did not fail has read a string of at most one byte. -/
theorem read_digit_cases {fuel : ℕ} {byte : Byte} {digits tail rest : List Byte} {n : ℤ}
    {o : Option BencodeObj} (hdigit : isDigit byte) (hdigits : ∀ byte ∈ digits, isDigit byte)
    (hread : bencodeReadFile fuel (byte :: (digits ++ ch ':' :: tail)) = .ok (n, o, rest))
    (hn : n ≠ -1) :
    ∃ slen data, lineLength byte (digits ++ [ch ':']) = .ok (slen, data.length) ∧
      tail = data ++ rest ∧ data.length ≤ 1 ∧ o = some (.str data) ∧
      n = 1 + slen + data.length := by
  obtain ⟨fuel', hcall⟩ := exists_dispatch hread
  rw [dispatch_digit hdigit] at hcall
  cases bencodeReadStr_eq_ok hcall with
  | failed => exact absurd rfl hn
  | @str slen data _ _ hlength htail hone =>
      rw [splitLine_delim (not_colon_of_isDigit hdigits)] at hlength htail
      exact ⟨slen, data, hlength, htail, hone, rfl, rfl⟩

section Sound

variable {fuel : ℕ} {s rest : List Byte} {n : ℤ} {o : Option BencodeObj}

theorem startsWithZeroLength_of_soundlyRead (hread : bencodeReadFile fuel s = .ok (n, o, rest))
    (hn : n ≠ -1) (hsound : SoundlyRead s n o rest) : StartsWithZeroLength s := by
  obtain ⟨data, value, obj, rfl, rfl, hencodes, rfl, hdenotes⟩ := hsound
  cases value with
  | str bytes =>
      obtain ⟨digits, hne, hdigits, hvalue, hinput⟩ := parses_str_iff.mp (hencodes rest)
      cases digits with
      | nil => exact absurd rfl hne
      | cons byte digits =>
          obtain ⟨hdigit, hdigits⟩ : isDigit byte ∧ ∀ other ∈ digits, isDigit other := by
            simpa using hdigits
          rw [List.cons_append] at hinput
          rw [hinput] at hread ⊢
          obtain ⟨slen, data', hlength, htail, hone, hobj, hcount⟩ :=
            read_digit_cases hdigit hdigits hread hn
          obtain rfl := Option.some.inj hobj
          obtain rfl : bytes = data' := (BencodeObj.str.inj hdenotes).symm
          have hslen : slen = digits.length + 1 := by
            have := congrArg List.length hinput
            simp only [List.length_append, List.length_cons] at this
            omega
          have hsmall : (digits.length : ℤ) + 1 < 2 ^ 31 := by
            rw [← hslen, (lineLength_eq_ok hlength).1, toInt32]
            exact lt_of_lt_of_eq (Int.bmod_lt (by decide)) rfl
          rw [lineLength_digits hdigits hsmall] at hlength
          split_ifs at hlength with hshort
          have hsize := (ok_pair_inj hlength).2
          rw [digitsValue_cons] at hvalue
          have htail : digitsValue digits ≤ 1 := by omega
          rw [min_eq_left (by omega), toInt32_of_lt (by omega) (by omega)] at hsize
          have hfirst : (byte.toNat - 48) * 10 ^ digits.length = 0 := by omega
          have hbyte : byte = ch '0' := by
            have := (isDigit_iff.mp hdigit).1
            have : byte.toNat - 48 = 0 := by simpa using hfirst
            exact UInt8.toNat_inj.mp (by simp [ch]; omega)
          exact ⟨digits, _, by rw [hbyte], hdigits, hshort, htail⟩
  | int value =>
      rw [parses_int_iff.mp (hencodes rest)] at hread
      obtain ⟨fuel', hcall⟩ := exists_dispatch hread
      exact absurd (congrArg ReadCtx.read (ok_pair_inj hcall).2).symm hn
  | list items =>
      obtain ⟨body, hinput, _⟩ := parses_list_iff.mp (hencodes rest)
      rw [hinput] at hread
      have hlt := count_lt_of_opens hread hn (Or.inl rfl)
      rw [← hinput, List.length_append] at hlt
      omega
  | dict entries =>
      obtain ⟨body, hinput, _⟩ := parses_dict_iff.mp (hencodes rest)
      rw [hinput] at hread
      have hlt := count_lt_of_opens hread hn (Or.inr rfl)
      rw [← hinput, List.length_append] at hlt
      omega

theorem soundlyRead_of_startsWithZeroLength (hread : bencodeReadFile fuel s = .ok (n, o, rest))
    (hn : n ≠ -1) (hzero : StartsWithZeroLength s) : SoundlyRead s n o rest := by
  obtain ⟨digits, tail, rfl, hdigits, hshort, hvalue⟩ := hzero
  obtain ⟨slen, data, hlength, rfl, _, rfl, rfl⟩ :=
    read_digit_cases (by decide) hdigits hread hn
  rw [lineLength_digits hdigits (by omega), if_pos hshort, min_eq_left (by omega),
    toInt32_of_lt (by omega) (by omega)] at hlength
  obtain ⟨rfl, hsize⟩ := ok_pair_inj hlength
  refine ⟨ch '0' :: (digits ++ ch ':' :: data), .str data, .str data, by simp, ?_, ?_, rfl, rfl⟩
  · simp only [List.length_cons, List.length_append]
    omega
  · intro rest
    have hparses : Parses ((ch '0' :: digits) ++ ch ':' :: (data ++ rest))
        (.value (.str data)) rest := by
      refine .str (by simp) ?_ ?_
      · simpa using ⟨by decide, hdigits⟩
      · rw [digitsValue_cons]
        simp only [show (ch '0').toNat - 48 = 0 from rfl]
        omega
    simpa using hparses

end Sound

/-- Of the reads that return a count other than -1, exactly those are sound
whose input starts with a zero length. -/
theorem bencodeReadFile_sound_iff (fuel : ℕ) (s : List Byte) (n : ℤ) (o : Option BencodeObj)
    (rest : List Byte) (hread : bencodeReadFile fuel s = .ok (n, o, rest)) (hn : n ≠ -1) :
    SoundlyRead s n o rest ↔ StartsWithZeroLength s :=
  ⟨startsWithZeroLength_of_soundlyRead hread hn, soundlyRead_of_startsWithZeroLength hread hn⟩

/-- The empty string is read soundly. -/
theorem bencodeReadFile_sound_empty :
    SoundlyRead [ch '0', ch ':'] 2 (some (.str [])) [] ↔
      StartsWithZeroLength [ch '0', ch ':'] := by
  refine bencodeReadFile_sound_iff 1 [ch '0', ch ':'] 2 (some (.str [])) [] ?_ (by decide)
  rw [bencodeReadFile, bencodeRead, if_neg (by decide)]
  simp only [fgetc]
  rw [dispatch_digit (by decide), bencodeReadStr_colon]
  rfl

/-- One turn of the list loop: the item that has been read is appended. -/
theorem readListLoop_item {read : Reader} {release fuel : ℕ} {vals : List (ObjPtr BencodeObj)}
    {c : Byte} {f : InFile} {count : ℤ} {li : Option BencodeObj} {ctx : ReadCtx}
    (hend : c ≠ ch 'e') (hitem : read c { f := f, read := count + 1 } = .ok (li, ctx))
    (hfree : freeIfSet (bencodeObjFree release) li = .ok ()) :
    readListLoop read release (fuel + 1) (.list vals) { f := c :: f, read := count } =
      readListLoop read release fuel (.list (vals.dropLast ++ [appendedItem li, .null])) ctx := by
  rw [readListLoop]
  simp only [fgetc]
  rw [if_neg hend, hitem, ok_bind]
  dsimp only
  rw [bencodeObjListAppend, ok_bind, hfree, ok_bind]

/-- A list with a malformed item, then the empty string: the call returns 1. -/
theorem bencodeReadFile_not_sound :
    ¬ ∀ fuel s n o rest, bencodeReadFile fuel s = .ok (n, o, rest) → n ≠ -1 →
      SoundlyRead s n o rest := by
  intro hsound
  have hread : bencodeReadFile 4 [ch 'l', ch 'x', ch '0', ch ':', ch 'e'] =
      .ok (1, some (.list [.null, .freed, .null]), []) := by
    have hmalformed : bencodeRead 3 (ch 'x') { f := [ch '0', ch ':', ch 'e'], read := 1 + 1 } =
        .ok (none, { f := [ch '0', ch ':', ch 'e'], read := -1 }) := rfl
    have hempty : bencodeRead 3 (ch '0') { f := [ch ':', ch 'e'], read := -1 + 1 } =
        .ok (some (.str []), { f := [ch 'e'], read := -1 + 1 + 1 }) := by
      rw [bencodeRead, if_pos (by decide), dispatch_digit (by decide), bencodeReadStr_colon]
    have hloop : readListLoop (bencodeRead 3) 3 3 bencodeObjList
        { f := [ch 'x', ch '0', ch ':', ch 'e'], read := 1 } =
          .ok (.list [.null, .freed, .null], { f := [], read := 1 }) := by
      have hx : ch 'x' ≠ ch 'e' := by decide
      have hzero : ch '0' ≠ ch 'e' := by decide
      rw [bencodeObjList, readListLoop_item hx hmalformed rfl,
        readListLoop_item hzero hempty rfl]
      rfl
    rw [bencodeReadFile, bencodeRead, if_neg (by decide)]
    simp only [fgetc]
    rw [dispatch, if_pos rfl, show (0 : ℤ) + 1 = 1 from rfl, hloop]
    rfl
  obtain ⟨data, value, obj, hdata, hn, _⟩ := hsound _ _ _ _ _ hread (by decide)
  have hlength := congrArg List.length hdata
  simp only [List.append_nil, List.length_cons, List.length_nil] at hlength
  omega

end I2pLite.ReadSound
