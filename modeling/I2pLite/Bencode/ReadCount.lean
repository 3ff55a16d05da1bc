import I2pLite.Bencode.Read

/-!
# What the count of a read can be

A read that returns has never counted a byte that it did not consume, so the
count and the unread input together never grow.  The terminator of a list or a
dict is consumed and not counted.
-/

namespace I2pLite.ReadCount

open I2pLite.CRun
open I2pLite.CBytes
open I2pLite.CInt
open I2pLite.Decimal
open I2pLite.Stdio
open I2pLite.BencodeObject
open I2pLite.Numeral
open I2pLite.Read

/-! ## The length of a string -/

/-- What `num` points at. -/
theorem numbuf_eq (prefixByte : Byte) (line : List Byte) :
    (strncpy ((List.replicate 32 0).set 0 prefixByte) 1 line 31).drop 1 =
      (line ++ List.replicate 31 0).take 31 := by
  simp [strncpy]

theorem lineLength_eq_ok {prefixByte : Byte} {line : List Byte} {slen sz : ℤ}
    (hlength : lineLength prefixByte line = .ok (slen, sz)) :
    slen = toInt32 (strlen (ofBuffer line)) ∧ 0 < slen ∧
      atoi (((ofBuffer line).bytes.take (slen - 1).toNat ++ List.replicate 31 0).take 31) =
        .ok sz := by
  simp only [lineLength, numbuf_eq] at hlength
  split_ifs at hlength with hpos
  obtain ⟨size, hatoi, hpair⟩ := bind_eq_ok.mp hlength
  obtain ⟨rfl, rfl⟩ := ok_pair_inj hpair
  exact ⟨rfl, not_le.mp hpos, hatoi⟩

/-- What is counted for a line is in the line. -/
theorem lineLength_le {prefixByte : Byte} {line : List Byte} {slen sz : ℤ}
    (hlength : lineLength prefixByte line = .ok (slen, sz)) : slen ≤ line.length := by
  have hstrlen : strlen (ofBuffer line) ≤ line.length := (List.takeWhile_prefix _).length_le
  rw [(lineLength_eq_ok hlength).1]
  have := toInt32_le (Int.natCast_nonneg (strlen (ofBuffer line)))
  omega

/-! ## One string -/

/-- The two ways of a call that returns: nothing was read, or a string of at
most one byte. -/
inductive StrOutcome (prefixByte : Byte) (ctx : ReadCtx) : Option BencodeObj → ReadCtx → Prop
  | failed {f' : InFile} : f'.length ≤ ctx.f.length →
      StrOutcome prefixByte ctx none { f := f', read := -1 }
  | str {slen : ℤ} {data f' : List Byte} : ctx.f ≠ [] →
      lineLength prefixByte (splitLine (ch ':') ctx.f).1 = .ok (slen, data.length) →
      (splitLine (ch ':') ctx.f).2 = data ++ f' → data.length ≤ 1 →
      StrOutcome prefixByte ctx (some (.str data))
        { f := f', read := ctx.read + slen + data.length }

theorem bencodeReadStr_eq_ok {prefixByte : Byte} {ctx ctx' : ReadCtx} {o : Option BencodeObj}
    (hcall : bencodeReadStr prefixByte ctx = .ok (o, ctx')) : StrOutcome prefixByte ctx o ctx' := by
  by_cases hempty : ctx.f = []
  · simp only [bencodeReadStr, getdelim, if_pos hempty] at hcall
    obtain ⟨rfl, rfl⟩ := ok_pair_inj hcall
    exact .failed (by simp)
  · have hsplit := congrArg List.length (splitLine_append (ch ':') ctx.f)
    rw [List.length_append] at hsplit
    simp only [bencodeReadStr, getdelim_of_ne_nil hempty] at hcall
    obtain ⟨⟨slen, sz⟩, hlength, hread⟩ := bind_eq_ok.mp hcall
    simp only at hread
    split_ifs at hread with hsize hnonzero hcount
    · -- one item was read, so the size is 1
      obtain ⟨rfl, rfl⟩ := ok_pair_inj hread
      simp only [freadItem] at hcount ⊢
      split_ifs at hcount ⊢ with henough
      · have hdata : ((splitLine (ch ':') ctx.f).2.take sz.toNat).length = sz := by
          rw [List.length_take, min_eq_left henough]
          omega
        have htail := (List.take_append_drop sz.toNat (splitLine (ch ':') ctx.f).2).symm
        generalize (splitLine (ch ':') ctx.f).2.take sz.toNat = data at hdata htail ⊢
        rw [← hdata] at hlength hcount ⊢
        have hone : data.length = 1 := (Int.ofNat_inj.mp hcount).symm
        exact .str hempty hlength (by rwa [← hdata] at htail) hone.le
      · omega
    · obtain ⟨rfl, rfl⟩ := ok_pair_inj hread
      refine .failed ?_
      simp only [freadItem]
      split_ifs <;> simp
      omega
    · obtain ⟨rfl, rfl⟩ := ok_pair_inj hread
      obtain rfl : sz = 0 := by simpa using hnonzero
      have houtcome := StrOutcome.str hempty hlength (List.nil_append _).symm (by simp)
      simpa [bencodeObjStr] using houtcome
    · obtain ⟨rfl, rfl⟩ := ok_pair_inj hread
      exact .failed (by omega)

/-! ## The count and the unread input -/

/-- What was counted has been consumed, or the count is the error flag. -/
def CountsWithin (ctx ctx' : ReadCtx) : Prop :=
  -1 ≤ ctx'.read ∧ ctx'.read + ctx'.f.length ≤ ctx.read + ctx.f.length

/-- A terminator was consumed and not counted, or the count is the error
flag. -/
def CountsShort (ctx ctx' : ReadCtx) : Prop :=
  ctx'.read = -1 ∨ ctx'.read + ctx'.f.length < ctx.read + ctx.f.length

theorem CountsWithin.trans {ctx ctx' ctx'' : ReadCtx} (hfirst : CountsWithin ctx ctx')
    (hsecond : CountsWithin ctx' ctx'') : CountsWithin ctx ctx'' :=
  ⟨hsecond.1, hsecond.2.trans hfirst.2⟩

theorem CountsWithin.trans_short {ctx ctx' ctx'' : ReadCtx} (hfirst : CountsWithin ctx ctx')
    (hsecond : CountsShort ctx' ctx'') : CountsShort ctx ctx'' := by
  rcases hsecond with herror | hshort
  · exact Or.inl herror
  · have := hfirst.2
    exact Or.inr (by omega)

theorem CountsWithin.of_failed {ctx : ReadCtx} {f' : InFile} (hread : -1 ≤ ctx.read)
    (hlength : f'.length ≤ ctx.f.length) : CountsWithin ctx { f := f', read := -1 } :=
  ⟨le_rfl, by dsimp only; omega⟩

theorem CountsWithin.of_consumed {ctx : ReadCtx} {byte : Byte} {f' : InFile}
    (hf : ctx.f = byte :: f') (hread : -1 ≤ ctx.read) :
    CountsWithin ctx { f := f', read := ctx.read + 1 } := by
  refine ⟨by dsimp only; omega, ?_⟩
  simp only [hf, List.length_cons]
  omega

theorem StrOutcome.countsWithin {prefixByte : Byte} {ctx ctx' : ReadCtx} {o : Option BencodeObj}
    (houtcome : StrOutcome prefixByte ctx o ctx') (hread : -1 ≤ ctx.read) :
    CountsWithin ctx ctx' := by
  cases houtcome with
  | failed hlength => exact .of_failed hread hlength
  | str _ hlength htail _ =>
      have hsplit := congrArg List.length (splitLine_append (ch ':') ctx.f)
      rw [List.length_append, htail, List.length_append] at hsplit
      have hslen := lineLength_le hlength
      have hpos := (lineLength_eq_ok hlength).2.1
      refine ⟨by dsimp only; omega, ?_⟩
      dsimp only
      omega

/-- A reader that never counts a byte that it did not consume. -/
def CountingReader (read : Reader) : Prop :=
  ∀ c ctx o ctx', read c ctx = .ok (o, ctx') → -1 ≤ ctx.read → CountsWithin ctx ctx'

section Loops

variable {read : Reader} {fuel release : ℕ} {dict dict' list list' : BencodeObj}
variable {prefixByte : Byte} {ctx ctx' : ReadCtx}

theorem bencodeReadDictItem_countsWithin (hreader : CountingReader read)
    (hcall : bencodeReadDictItem read fuel dict prefixByte ctx = .ok (dict', ctx'))
    (hread : -1 ≤ ctx.read) : CountsWithin ctx ctx' := by
  obtain ⟨⟨k, afterKey⟩, hkey, hcall⟩ := bind_eq_ok.mp hcall
  have hkeyCounts := (bencodeReadStr_eq_ok hkey).countsWithin hread
  simp only at hcall
  split_ifs at hcall with herror
  · obtain ⟨_, rfl⟩ := ok_pair_inj hcall
    exact hkeyCounts
  · obtain ⟨⟨v, afterValue⟩, hvalue, hcall⟩ := bind_eq_ok.mp hcall
    obtain ⟨_, _, hcall⟩ := bind_eq_ok.mp hcall
    obtain ⟨_, _, hcall⟩ := bind_eq_ok.mp hcall
    obtain ⟨_, _, hcall⟩ := bind_eq_ok.mp hcall
    obtain ⟨_, rfl⟩ := ok_pair_inj hcall
    exact hkeyCounts.trans (hreader _ _ _ _ hvalue (by omega))

theorem readDictLoop_counts (hreader : CountingReader read)
    (hloop : readDictLoop read release fuel dict ctx = .ok (dict', ctx'))
    (hread : -1 ≤ ctx.read) : CountsWithin ctx ctx' ∧ CountsShort ctx ctx' := by
  induction fuel generalizing dict ctx with
  | zero => simp [readDictLoop] at hloop
  | succ fuel ih =>
      rw [readDictLoop] at hloop
      cases hf : ctx.f with
      | nil =>
          simp only [hf, fgetc] at hloop
          obtain ⟨_, rfl⟩ := ok_pair_inj hloop
          exact ⟨.of_failed hread (by simp), Or.inl rfl⟩
      | cons byte f' =>
          simp only [hf, fgetc] at hloop
          split_ifs at hloop with hend
          · obtain ⟨_, rfl⟩ := ok_pair_inj hloop
            refine ⟨⟨hread, ?_⟩, Or.inr ?_⟩ <;> simp [hf]
          · obtain ⟨⟨next, middle⟩, hitem, hrest⟩ := bind_eq_ok.mp hloop
            have hconsumed := CountsWithin.of_consumed hf hread
            have hitemCounts := hconsumed.trans
              (bencodeReadDictItem_countsWithin hreader hitem hconsumed.1)
            obtain ⟨hwithin, hshort⟩ := ih hrest hitemCounts.1
            exact ⟨hitemCounts.trans hwithin, hitemCounts.trans_short hshort⟩

theorem readListLoop_counts (hreader : CountingReader read)
    (hloop : readListLoop read release fuel list ctx = .ok (list', ctx'))
    (hread : -1 ≤ ctx.read) : CountsWithin ctx ctx' ∧ CountsShort ctx ctx' := by
  induction fuel generalizing list ctx with
  | zero => simp [readListLoop] at hloop
  | succ fuel ih =>
      rw [readListLoop] at hloop
      cases hf : ctx.f with
      | nil =>
          simp only [hf, fgetc] at hloop
          obtain ⟨_, rfl⟩ := ok_pair_inj hloop
          exact ⟨.of_failed hread (by simp), Or.inl rfl⟩
      | cons byte f' =>
          simp only [hf, fgetc] at hloop
          split_ifs at hloop with hend
          · obtain ⟨_, rfl⟩ := ok_pair_inj hloop
            refine ⟨⟨hread, ?_⟩, Or.inr ?_⟩ <;> simp [hf]
          · obtain ⟨⟨li, middle⟩, hitem, hrest⟩ := bind_eq_ok.mp hloop
            obtain ⟨_, _, hrest⟩ := bind_eq_ok.mp hrest
            obtain ⟨_, _, hrest⟩ := bind_eq_ok.mp hrest
            have hconsumed := CountsWithin.of_consumed hf hread
            have hitemCounts := hconsumed.trans (hreader _ _ _ _ hitem hconsumed.1)
            obtain ⟨hwithin, hshort⟩ := ih hrest hitemCounts.1
            exact ⟨hitemCounts.trans hwithin, hitemCounts.trans_short hshort⟩

/-- Where the byte it dispatches on opens a list or a dict, the count is short. -/
theorem dispatch_counts (hreader : CountingReader read) {c : Option Byte} {o : Option BencodeObj}
    (hcall : dispatch read fuel c ctx = .ok (o, ctx')) (hread : -1 ≤ ctx.read) :
    CountsWithin ctx ctx' ∧ (c = some (ch 'l') ∨ c = some (ch 'd') → CountsShort ctx ctx') := by
  cases c with
  | none =>
      obtain ⟨_, rfl⟩ := ok_pair_inj hcall
      exact ⟨.of_failed hread le_rfl, fun _ => Or.inl rfl⟩
  | some byte =>
      rw [dispatch] at hcall
      split_ifs at hcall with hlist hdict hdigit
      · obtain ⟨⟨list, after⟩, hloop, hresult⟩ := bind_eq_ok.mp hcall
        obtain ⟨_, rfl⟩ := ok_pair_inj hresult
        obtain ⟨hwithin, hshort⟩ := readListLoop_counts hreader hloop hread
        exact ⟨hwithin, fun _ => hshort⟩
      · obtain ⟨⟨dict, after⟩, hloop, hresult⟩ := bind_eq_ok.mp hcall
        obtain ⟨_, rfl⟩ := ok_pair_inj hresult
        obtain ⟨hwithin, hshort⟩ := readDictLoop_counts hreader hloop hread
        exact ⟨hwithin, fun _ => hshort⟩
      · exact ⟨(bencodeReadStr_eq_ok hcall).countsWithin hread, by simp [hlist, hdict]⟩
      · obtain ⟨_, rfl⟩ := ok_pair_inj hcall
        exact ⟨.of_failed hread le_rfl, fun _ => Or.inl rfl⟩

end Loops

theorem bencodeRead_countingReader (fuel : ℕ) : CountingReader (bencodeRead fuel) := by
  induction fuel with
  | zero =>
      intro c ctx o ctx' hcall
      simp [bencodeRead] at hcall
  | succ fuel ih =>
      intro c ctx o ctx' hcall hread
      rw [bencodeRead] at hcall
      split_ifs at hcall with hgiven
      · exact (dispatch_counts ih hcall hread).1
      · cases hf : ctx.f with
        | nil =>
            simp only [hf, fgetc] at hcall
            obtain ⟨_, rfl⟩ := ok_pair_inj hcall
            exact .of_failed hread (by simp)
        | cons byte f' =>
            simp only [hf, fgetc] at hcall
            have hconsumed := CountsWithin.of_consumed hf hread
            exact hconsumed.trans (dispatch_counts ih hcall hconsumed.1).1

end I2pLite.ReadCount
