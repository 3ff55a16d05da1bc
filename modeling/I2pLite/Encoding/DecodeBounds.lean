import I2pLite.Encoding.Base64

/-!
# What the base64 decoder reads and writes

The padding at the end of the input is subtracted from the size of the output,
whatever there is of it, and the bound of the output is not looked at behind
the third byte of a group.
-/

namespace I2pLite.DecodeBounds

open I2pLite.CRun
open I2pLite.CBytes
open I2pLite.CInt
open I2pLite.Memory
open I2pLite.Base64

/-! ## What the loop writes -/

/-- The bytes of all groups of four digits. -/
def groupBytes : List Byte → List Byte
  | c1 :: c2 :: c3 :: c4 :: rest =>
      byte1 (iT64 c1) (iT64 c2) :: byte2 (iT64 c2) (iT64 c3) :: byte3 (iT64 c3) (iT64 c4) ::
        groupBytes rest
  | _ => []

theorem length_lt_four {input : List Byte}
    (hshort : ∀ c1 c2 c3 c4 rest, input = c1 :: c2 :: c3 :: c4 :: rest → False) :
    input.length < 4 := by
  match input, hshort with
  | [], _ => simp
  | [_], _ => simp
  | [_, _], _ => simp
  | [_, _, _], _ => simp
  | c1 :: c2 :: c3 :: c4 :: rest, hshort => exact absurd rfl (hshort c1 c2 c3 c4 rest)

theorem length_groupBytes (input : List Byte) :
    (groupBytes input).length = 3 * (input.length / 4) := by
  fun_induction groupBytes input with
  | case1 c1 c2 c3 c4 rest ih =>
      simp only [List.length_cons, ih]
      omega
  | case2 input hshort =>
      rw [Nat.div_eq_of_lt (length_lt_four hshort)]
      rfl

theorem groupBytes_take (input : List Byte) (groups : ℕ) :
    groupBytes (input.take (4 * groups)) = (groupBytes input).take (3 * groups) := by
  induction groups generalizing input with
  | zero => rfl
  | succ groups ih =>
      fun_cases groupBytes input with
      | case1 c1 c2 c3 c4 rest =>
          rw [show 4 * (groups + 1) = 4 * groups + 1 + 1 + 1 + 1 by omega,
            show 3 * (groups + 1) = 3 * groups + 1 + 1 + 1 by omega]
          simp only [List.take_succ_cons, groupBytes, ih]
      | case2 =>
          rename_i hshort
          have hlength := length_lt_four hshort
          rw [List.take_of_length_le (by omega), List.take_nil, ← List.length_eq_zero_iff,
            length_groupBytes, Nat.div_eq_of_lt hlength]

theorem decodeGroups_short {input : List Byte} (outCount : ℕ) (written : List Byte)
    (hshort : ∀ c1 c2 c3 c4 rest, input = c1 :: c2 :: c3 :: c4 :: rest → False) :
    decodeGroups outCount input written = written := by
  rw [decodeGroups]
  exact hshort

/-- How many bytes are written for an output of this size. -/
def writtenCount (outCount available : ℕ) : ℕ :=
  if available ≤ outCount then available
  else if outCount % 3 = 0 then outCount + 1
  else outCount

theorem writtenCount_le (outCount available : ℕ) : writtenCount outCount available ≤ available := by
  rw [writtenCount]
  split_ifs <;> omega

theorem decodeGroups_append (outCount : ℕ) (input written : List Byte) :
    decodeGroups (written.length + outCount) input written =
      written ++ (groupBytes input).take (writtenCount outCount (groupBytes input).length) := by
  fun_induction groupBytes input generalizing written outCount with
  | case1 c1 c2 c3 c4 rest ih =>
      simp only [decodeGroups, List.length_append, List.length_cons, List.length_nil,
        Nat.zero_add]
      rcases outCount with _ | _ | _ | outCount
      · rw [if_pos (by omega)]
        rfl
      · rw [if_pos (by omega)]
        rfl
      · rw [if_neg (by omega), if_pos (by omega), List.append_assoc]
        rfl
      · have hrest := ih outCount (written ++ [byte1 (iT64 c1) (iT64 c2)] ++
          [byte2 (iT64 c2) (iT64 c3)] ++ [byte3 (iT64 c3) (iT64 c4)])
        have hcount : writtenCount (outCount + 1 + 1 + 1) ((groupBytes rest).length + 1 + 1 + 1) =
            writtenCount outCount (groupBytes rest).length + 1 + 1 + 1 := by
          simp only [writtenCount]
          split_ifs <;> omega
        rw [if_neg (by omega), if_neg (by omega), hcount]
        simp only [List.length_append, List.length_cons, List.length_nil, Nat.zero_add] at hrest
        rw [show written.length + (outCount + 1 + 1 + 1) =
          written.length + 1 + 1 + 1 + outCount by omega, hrest]
        simp only [List.append_assoc, List.cons_append, List.nil_append, List.take_succ_cons]
  | case2 input hshort =>
      rw [decodeGroups_short _ _ hshort, List.take_nil, List.append_nil]

/-! ## The size of the output -/

/-- The number of groups, as the decoder counts them. -/
def groupCount (input : List Byte) : ℤ := toInt32 (input.length / 4 : ℕ)

/-- How much padding the input ends in. -/
def paddingCount (input : List Byte) : ℕ := (input.reverse.takeWhile (· = p64)).length

/-- The input is not just padding, it has no more of it than what the groups
are decoded to, and the size of that is an `int`. -/
structure Balanced (input : List Byte) : Prop where
  inRange : 3 * groupCount input < 2 ^ 31
  digit : ∃ byte ∈ input, byte ≠ p64
  padding : (paddingCount input : ℤ) ≤ 3 * groupCount input

/-- What is written for an output of this size. -/
def decodedBytes (input : List Byte) (outCount : ℕ) : List Byte :=
  decodeGroups outCount (input.take (4 * (groupCount input).toNat)) []

section Size

variable {input outBuffer : List Byte} {len : ℕ}

theorem paddingOf_eq_ok_iff {padding : ℕ} :
    paddingOf input = .ok padding ↔
      (∃ byte ∈ input, byte ≠ p64) ∧ padding = paddingCount input := by
  rw [paddingOf, paddingCount]
  split_ifs with hall
  · refine iff_of_false (by simp) fun hdigit => ?_
    obtain ⟨⟨byte, hbyte, hne⟩, _⟩ := hdigit
    exact hne (by simpa using List.all_eq_true.mp hall byte hbyte)
  · have hdigit : ∃ byte ∈ input, byte ≠ p64 := by simpa using hall
    constructor
    · intro hpadding
      exact ⟨hdigit, (Except.ok.inj hpadding).symm⟩
    · rintro ⟨_, rfl⟩
      rfl

theorem paddingCount_le (input : List Byte) : paddingCount input ≤ input.length := by
  calc paddingCount input
      ≤ input.reverse.length := (List.takeWhile_sublist _).length_le
    _ = input.length := List.length_reverse

theorem groupCount_le (input : List Byte) : groupCount input ≤ (input.length / 4 : ℕ) :=
  toInt32_le (Int.natCast_nonneg _)

/-- The run on whole groups. -/
theorem base64Decode_eq (hgroups : ¬ (input.length = 0 ∨ input.length % 4 ≠ 0)) :
    base64Decode input input.length outBuffer len = (do
      let outCount ← inInt32 (3 * groupCount input)
      let padding ← paddingOf input
      if toSize (outCount - padding) > len then .ok (2 ^ 64 - 1, outBuffer)
      else
        let outBuffer ← store outBuffer 0 (decodedBytes input (toSize (outCount - padding)))
        .ok (toSize (outCount - padding), outBuffer)) := by
  obtain ⟨loaded, hload, hloaded⟩ := exists_load input (show 0 + input.length ≤ _ by omega)
  rw [List.drop_zero, List.take_length] at hloaded
  simp only [base64Decode]
  rw [if_neg hgroups, hload]
  simp only [ok_bind, hloaded]
  rfl

/-- The size is what the groups are decoded to without the padding, or it has
wrapped around and is more than there is. -/
theorem toSize_sub_padding (hlength : input.length < 2 ^ 63) :
    (paddingCount input : ℤ) ≤ 3 * groupCount input ∧
        toSize (3 * groupCount input - paddingCount input) =
          (3 * groupCount input - paddingCount input).toNat ∨
      3 * groupCount input < paddingCount input ∧
        3 * (input.length / 4) < toSize (3 * groupCount input - paddingCount input) := by
  have hpadding := paddingCount_le input
  have hgroups := groupCount_le input
  have hlow : -2 ^ 31 ≤ groupCount input := by
    rw [groupCount, toInt32]
    exact Int.le_bmod (by decide)
  by_cases hle : (paddingCount input : ℤ) ≤ 3 * groupCount input
  · exact Or.inl ⟨hle, toSize_of_lt (by omega) (by omega)⟩
  · refine Or.inr ⟨by omega, ?_⟩
    rw [toSize]
    omega

/-- What a run on whole groups delivers: an error value beyond the capacity, or
the size with the bytes written for it. -/
theorem base64Decode_eq_ok {count : ℕ} {buffer : List Byte}
    (hgroups : ¬ (input.length = 0 ∨ input.length % 4 ≠ 0))
    (hdecode : base64Decode input input.length outBuffer len = .ok (count, buffer)) :
    3 * groupCount input < 2 ^ 31 ∧ (∃ byte ∈ input, byte ≠ p64) ∧
      (count = 2 ^ 64 - 1 ∧ len < count ∧ buffer = outBuffer ∨
        count = toSize (3 * groupCount input - paddingCount input) ∧ count ≤ len ∧
          store outBuffer 0 (decodedBytes input count) = .ok buffer) := by
  rw [base64Decode_eq hgroups] at hdecode
  obtain ⟨outCount, hint, hdecode⟩ := bind_eq_ok.mp hdecode
  obtain ⟨padding, hpadding, hdecode⟩ := bind_eq_ok.mp hdecode
  have hrange := inInt32_eq_ok_iff.mp hint
  have hdigit := paddingOf_eq_ok_iff.mp hpadding
  rw [hrange.1, hdigit.2] at hdecode
  refine ⟨hrange.2.2, hdigit.1, ?_⟩
  have hsize := toSize_lt (3 * groupCount input - paddingCount input)
  split_ifs at hdecode with hlarge
  · obtain ⟨hcount, hbuffer⟩ := ok_pair_inj hdecode
    exact Or.inl ⟨hcount.symm, by omega, hbuffer.symm⟩
  · obtain ⟨written, hstore, hresult⟩ := bind_eq_ok.mp hdecode
    obtain ⟨rfl, rfl⟩ := ok_pair_inj hresult
    exact Or.inr ⟨rfl, by omega, hstore⟩

theorem base64Decode_of_balanced (hgroups : ¬ (input.length = 0 ∨ input.length % 4 ≠ 0))
    (hlength : input.length < 2 ^ 63) (hbalanced : Balanced input)
    (hfits : 3 * groupCount input - paddingCount input ≤ len) :
    base64Decode input input.length outBuffer len = (do
      let outCount := (3 * groupCount input - paddingCount input).toNat
      let outBuffer ← store outBuffer 0 (decodedBytes input outCount)
      .ok (outCount, outBuffer)) := by
  obtain ⟨hrange, hdigit, hpadding⟩ := hbalanced
  obtain ⟨_, hsize⟩ := (toSize_sub_padding hlength).resolve_right fun hover => by omega
  rw [base64Decode_eq hgroups, inInt32_of_lt (by omega) hrange, ok_bind,
    paddingOf_eq_ok_iff.mpr ⟨hdigit, rfl⟩, ok_bind, hsize, if_neg (by omega)]

end Size

/-- The bytes are the front of all that is decoded, one too many where the
padding takes away whole groups. -/
theorem decodedBytes_eq (input : List Byte) (outCount : ℕ) :
    decodedBytes input outCount =
      (groupBytes input).take (writtenCount outCount (3 * (groupCount input).toNat)) := by
  have hgroups := groupCount_le input
  have hall : (groupBytes (input.take (4 * (groupCount input).toNat))).length =
      3 * (groupCount input).toNat := by
    rw [length_groupBytes, List.length_take]
    omega
  have hwritten := decodeGroups_append outCount (input.take (4 * (groupCount input).toNat)) []
  rw [List.length_nil, Nat.zero_add, List.nil_append, hall, groupBytes_take, List.take_take,
    Nat.min_eq_left (writtenCount_le _ _)] at hwritten
  exact hwritten

theorem length_decodedBytes (input : List Byte) (outCount : ℕ) :
    (decodedBytes input outCount).length =
      writtenCount outCount (3 * (groupCount input).toNat) := by
  have hgroups := groupCount_le input
  have hcount := writtenCount_le outCount (3 * (groupCount input).toNat)
  rw [decodedBytes_eq, List.length_take, length_groupBytes]
  omega

/-- The bytes that are counted, with whatever stands behind them in the buffer. -/
theorem take_decodedBytes {input : List Byte} {count : ℕ}
    (hcount : (count : ℤ) ≤ 3 * groupCount input) (rest : List Byte) :
    count ≤ (decodedBytes input count).length ∧
      (decodedBytes input count ++ rest).take count = (groupBytes input).take count := by
  have hwritten : count ≤ writtenCount count (3 * (groupCount input).toNat) := by
    rw [writtenCount]
    split_ifs <;> omega
  have hlonger : count ≤ (decodedBytes input count).length := by
    rw [length_decodedBytes]
    exact hwritten
  refine ⟨hlonger, ?_⟩
  rw [List.take_append_of_le_length hlonger, decodedBytes_eq, List.take_take,
    Nat.min_eq_left hwritten]

/-! ## Bounds -/

/-- The decoder reads nothing but its input, writes nothing beyond the capacity
and exactly as many bytes as it returns. -/
def DecodesWithin (input : List Byte) (len : ℕ) : Prop :=
  ∃ decoded : List Byte, decoded.length ≤ len ∧
    ∀ outBuffer : List Byte, outBuffer.length = len →
      base64Decode input input.length outBuffer len =
        .ok (decoded.length, decoded ++ outBuffer.drop decoded.length)

/-- The string is refused, or decoded to a buffer of at most three bytes for
each group. -/
def DecodesString (string : CString) : Prop :=
  base64DecodeStr string = .ok (0, none) ∨
    ∃ r buffer, base64DecodeStr string = .ok (r, some buffer) ∧ 0 < r ∧
      r ≤ 3 * (strlen string / 4) ∧ r ≤ buffer.length ∧
      buffer.take r = (groupBytes string.bytes).take r

/-- What is written over any buffer has a length of its own. -/
theorem length_eq_of_overwrites {written decoded : List Byte} {len : ℕ}
    (hdecoded : decoded.length ≤ len)
    (hstore : ∀ outBuffer : List Byte, outBuffer.length = len →
      store outBuffer 0 written = .ok (decoded ++ outBuffer.drop decoded.length)) :
    written.length = decoded.length := by
  have hwritten : written.length ≤ len := by
    by_contra hover
    have hzeros := hstore (List.replicate len 0) List.length_replicate
    rw [store, if_neg (by rw [List.length_replicate]; omega)] at hzeros
    cases hzeros
  have hindex : ∀ (index : ℕ) (byte : Byte),
      (decoded ++ List.replicate (len - decoded.length) byte)[index]? =
        (written ++ List.replicate (len - written.length) byte)[index]? := by
    intro index byte
    have heq := (store_eq_ok (hstore (List.replicate len byte) List.length_replicate)).1
    rw [List.take_zero, List.nil_append, Nat.zero_add, List.drop_replicate,
      List.drop_replicate] at heq
    rw [heq]
  by_contra hne
  rcases Nat.lt_or_gt_of_ne hne with hlt | hlt
  · have hzero := hindex written.length 0
    have hone := hindex written.length 1
    rw [List.getElem?_append_right le_rfl, List.getElem?_append_left hlt, Nat.sub_self,
      List.getElem?_replicate_of_lt (by omega)] at hzero hone
    exact absurd (hzero.symm.trans hone) (by decide)
  · have hzero := hindex decoded.length 0
    have hone := hindex decoded.length 1
    rw [List.getElem?_append_left hlt, List.getElem?_append_right le_rfl, Nat.sub_self,
      List.getElem?_replicate_of_lt (by omega)] at hzero hone
    exact absurd (hzero.trans hone.symm) (by decide)

section Bounds

variable {input : List Byte} {len : ℕ}

theorem base64Decode_of_refused (hrefused : input.length = 0 ∨ input.length % 4 ≠ 0)
    (outBuffer : List Byte) :
    base64Decode input input.length outBuffer len = .ok (0, outBuffer) := by
  simp only [base64Decode]
  rw [if_pos hrefused]

/-- Nothing is written where nothing is decoded, and as much as is returned
where no group is padding from its first byte on. -/
theorem decodesWithin_iff (len : ℕ) (hlength : input.length < 2 ^ 63) :
    DecodesWithin input len ↔
      (input.length = 0 ∨ input.length % 4 ≠ 0) ∨
        Balanced input ∧ 3 * groupCount input - paddingCount input ≤ len ∧
          (paddingCount input = 0 ∨ paddingCount input % 3 ≠ 0) := by
  by_cases hrefused : input.length = 0 ∨ input.length % 4 ≠ 0
  · refine iff_of_true ⟨[], Nat.zero_le _, fun outBuffer _ => ?_⟩ (Or.inl hrefused)
    exact base64Decode_of_refused hrefused outBuffer
  rw [or_iff_right hrefused]
  have hgroups := groupCount_le input
  constructor
  · rintro ⟨decoded, hfits, hdecode⟩
    have hstore : ∀ outBuffer : List Byte, outBuffer.length = len →
        store outBuffer 0 (decodedBytes input decoded.length) =
          .ok (decoded ++ outBuffer.drop decoded.length) := by
      intro outBuffer hout
      obtain ⟨_, _, ⟨_, hlarge, _⟩ | ⟨_, _, hstore⟩⟩ := base64Decode_eq_ok hrefused (hdecode _ hout)
      · omega
      · exact hstore
    have hwritten := length_eq_of_overwrites hfits hstore
    obtain ⟨hrange, hdigit, ⟨_, hlarge, _⟩ | ⟨hsize, _, _⟩⟩ :=
      base64Decode_eq_ok hrefused (hdecode (List.replicate len 0) List.length_replicate)
    · omega
    rw [length_decodedBytes, writtenCount] at hwritten
    rcases toSize_sub_padding hlength with ⟨hle, hcount⟩ | ⟨_, hcount⟩
    · refine ⟨⟨hrange, hdigit, hle⟩, by omega, ?_⟩
      split_ifs at hwritten <;> omega
    · split_ifs at hwritten <;> omega
  · rintro ⟨hbalanced, hfits, hpadding⟩
    have hle := hbalanced.padding
    have hsize : (decodedBytes input (3 * groupCount input - paddingCount input).toNat).length =
        (3 * groupCount input - paddingCount input).toNat := by
      rw [length_decodedBytes, writtenCount]
      split_ifs <;> omega
    refine ⟨decodedBytes input (3 * groupCount input - paddingCount input).toNat, by omega,
      fun outBuffer hout => ?_⟩
    rw [base64Decode_of_balanced hrefused hlength hbalanced hfits]
    dsimp only
    rw [store_of_le (by omega), ok_bind, List.take_zero, List.nil_append, Nat.zero_add, hsize]

theorem exists_decode_of_decodesString {string : CString} (hdecodes : DecodesString string) :
    ∃ count buffer, base64Decode string.bytes string.bytes.length
        (List.replicate (strlen string) 0) (strlen string) = .ok (count, buffer) ∧
      count ≤ 3 * (strlen string / 4) := by
  rcases hdecodes with hcall | ⟨r, buffer, hcall, _, hcount, _⟩
  · obtain ⟨⟨count, buffer⟩, hdecode, hresult⟩ := bind_eq_ok.mp hcall
    refine ⟨count, buffer, hdecode, ?_⟩
    by_cases hzero : count = 0
    · omega
    · simp [hzero] at hresult
  · obtain ⟨⟨count, buffer⟩, hdecode, hresult⟩ := bind_eq_ok.mp hcall
    refine ⟨count, buffer, hdecode, ?_⟩
    by_cases hzero : count = 0
    · omega
    · simp only [ne_eq, hzero, not_false_eq_true, if_true, Except.ok.injEq,
        Prod.mk.injEq] at hresult
      omega

/-- A string is decoded as it is to be unless it is padding all over, or more
of it than its groups are decoded to. -/
theorem decodesString_iff {string : CString} (hlength : strlen string < 2 ^ 63) :
    DecodesString string ↔
      (strlen string = 0 ∨ strlen string % 4 ≠ 0) ∨ Balanced string.bytes := by
  by_cases hrefused : strlen string = 0 ∨ strlen string % 4 ≠ 0
  · refine iff_of_true (Or.inl ?_) (Or.inl hrefused)
    simp only [base64DecodeStr, strlen]
    rw [base64Decode_of_refused hrefused, ok_bind]
    rfl
  rw [or_iff_right hrefused]
  have hgroups := groupCount_le string.bytes
  have hstrlen : strlen string = string.bytes.length := rfl
  constructor
  · intro hdecodes
    obtain ⟨count, buffer, hdecode, hcount⟩ := exists_decode_of_decodesString hdecodes
    obtain ⟨hrange, hdigit, ⟨hmany, _⟩ | ⟨hsize, _, _⟩⟩ := base64Decode_eq_ok hrefused hdecode
    · omega
    · rcases toSize_sub_padding hlength with ⟨hle, _⟩ | ⟨_, hover⟩
      · exact ⟨hrange, hdigit, hle⟩
      · omega
  · intro hbalanced
    have hle := hbalanced.padding
    generalize hcount : (3 * groupCount string.bytes - paddingCount string.bytes).toNat = count
    obtain ⟨hlonger, hfront⟩ := take_decodedBytes
      (show (count : ℤ) ≤ 3 * groupCount string.bytes by omega)
      ((List.replicate (strlen string) 0).drop (decodedBytes string.bytes count).length)
    have hfits : (decodedBytes string.bytes count).length ≤ strlen string := by
      have := writtenCount_le count (3 * (groupCount string.bytes).toNat)
      rw [length_decodedBytes]
      omega
    have hbytes := @base64Decode_of_balanced string.bytes (List.replicate (strlen string) 0)
      (strlen string) hrefused hlength hbalanced (by omega)
    simp only [hcount] at hbytes
    rw [store_of_le (by rw [List.length_replicate]; omega), ok_bind, List.take_zero,
      List.nil_append, Nat.zero_add, ← hstrlen] at hbytes
    have hdecode : base64DecodeStr string =
        if count ≠ 0 then .ok (count, some (decodedBytes string.bytes count ++
          (List.replicate (strlen string) 0).drop (decodedBytes string.bytes count).length))
        else .ok (0, none) := by
      rw [base64DecodeStr, hbytes, ok_bind]
    by_cases hzero : count = 0
    · rw [if_neg (by omega)] at hdecode
      exact Or.inl hdecode
    · rw [if_pos hzero] at hdecode
      refine Or.inr ⟨_, _, hdecode, by omega, by omega, ?_, hfront⟩
      rw [List.length_append]
      omega

end Bounds

/-- The decoder stays in its buffers and counts what it writes exactly on
inputs that are not of whole groups, or whose padding is none or not of whole
groups and leaves a size within the capacity.  A string of whole groups is
decoded as it is to be exactly where its padding is not more than its groups
are decoded to.  No object has `2 ^ 63` bytes or more. -/
theorem base64Decode_bounds_iff (input : List Byte) (len : ℕ) (string : CString)
    (hinput : input.length < 2 ^ 63) (hstring : strlen string < 2 ^ 63) :
    (DecodesWithin input len ↔
      (input.length = 0 ∨ input.length % 4 ≠ 0) ∨
        Balanced input ∧ 3 * groupCount input - paddingCount input ≤ len ∧
          (paddingCount input = 0 ∨ paddingCount input % 3 ≠ 0)) ∧
    (DecodesString string ↔
      (strlen string = 0 ∨ strlen string % 4 ≠ 0) ∨ Balanced string.bytes) :=
  ⟨decodesWithin_iff len hinput, decodesString_iff hstring⟩

/-- Seven digits and one time padding. -/
def paddedText : CString := ofBuffer (List.replicate 7 (ch 'A') ++ [p64])

theorem base64Decode_bounds_iff_padded :
    (DecodesWithin paddedText.bytes 6 ↔
      (paddedText.bytes.length = 0 ∨ paddedText.bytes.length % 4 ≠ 0) ∨
        Balanced paddedText.bytes ∧
          3 * groupCount paddedText.bytes - paddingCount paddedText.bytes ≤ (6 : ℕ) ∧
          (paddingCount paddedText.bytes = 0 ∨ paddingCount paddedText.bytes % 3 ≠ 0)) ∧
    (DecodesString paddedText ↔
      (strlen paddedText = 0 ∨ strlen paddedText % 4 ≠ 0) ∨ Balanced paddedText.bytes) :=
  base64Decode_bounds_iff paddedText.bytes 6 paddedText (by decide) (by decide)

/-- One digit and seven times padding: the size wraps around below zero. -/
theorem not_decodesString_padded :
    ¬ DecodesString (ofBuffer (ch 'A' :: List.replicate 7 p64)) := by
  have hbytes : (ofBuffer (ch 'A' :: List.replicate 7 p64)).bytes =
      ch 'A' :: List.replicate 7 p64 := by decide
  have hlength : strlen (ofBuffer (ch 'A' :: List.replicate 7 p64)) = 8 := by decide
  rw [decodesString_iff (by omega), hlength, hbytes]
  rintro (hrefused | ⟨_, _, hpadding⟩)
  · omega
  · revert hpadding
    decide

end I2pLite.DecodeBounds
