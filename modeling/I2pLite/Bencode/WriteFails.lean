import I2pLite.Bencode.Clone
import I2pLite.Bencode.Write

/-!
# Failing calls in a write

The count of a write is -1 behind a call that has failed, and nothing more is
written but the keys of the dicts around it.  A key that is written is added to
the -1, so only the last call of all decides about the result.
-/

namespace I2pLite.WriteFails

open I2pLite.CRun
open I2pLite.CBytes
open I2pLite.Decimal
open I2pLite.Stdio
open I2pLite.Bencoding
open I2pLite.BencodeObject
open I2pLite.Denotation
open I2pLite.Clone
open I2pLite.Write

/-! ## Calls -/

/-- One of the calls from `start` on has failed. -/
def SomeFailed (start : ℕ) (f : OutFile) : Prop :=
  ∃ call, start ≤ call ∧ call < f.calls ∧ f.fails call ≠ none

/-- There are calls from `start` on, and the last one has failed. -/
def LastFailed (start : ℕ) (f : OutFile) : Prop :=
  start < f.calls ∧ f.fails (f.calls - 1) ≠ none

/-- The calls from one state to the other stop at the first one that fails. -/
structure Stops (f f' : OutFile) : Prop where
  fails : f'.fails = f.fails
  calls : f.calls ≤ f'.calls
  earlier : ∀ call, f.calls ≤ call → call + 1 < f'.calls → f.fails call = none

section Calls

variable {f f' f'' : OutFile} {start : ℕ}

theorem Stops.refl (f : OutFile) : Stops f f where
  fails := rfl
  calls := le_rfl
  earlier := fun call hfirst hlast => by omega

theorem Stops.put (f : OutFile) (data : List Byte) : Stops f (f.put data) where
  fails := rfl
  calls := Nat.le_succ _
  earlier := fun call hfirst hlast => by
    change call + 1 < f.calls + 1 at hlast
    omega

/-- Calls go on behind one that has not failed. -/
theorem Stops.trans (hfirst : Stops f f') (hlast : ¬ LastFailed f.calls f')
    (hsecond : Stops f' f'') : Stops f f'' where
  fails := hsecond.fails.trans hfirst.fails
  calls := hfirst.calls.trans hsecond.calls
  earlier := by
    intro call hcall hmore
    rcases Nat.lt_trichotomy (call + 1) f'.calls with hbefore | hhere | hbehind
    · exact hfirst.earlier call hcall hbefore
    · by_contra hfailed
      refine hlast ⟨by omega, ?_⟩
      rw [hfirst.fails, ← hhere, Nat.add_sub_cancel]
      exact hfailed
    · rw [← hfirst.fails]
      exact hsecond.earlier call (by omega) hmore

theorem Stops.lastFailed (hstops : Stops f f') (hsome : SomeFailed f.calls f') :
    LastFailed f.calls f' := by
  obtain ⟨call, hfirst, hlast, hfailed⟩ := hsome
  refine ⟨by omega, ?_⟩
  by_cases hbefore : call + 1 < f'.calls
  · rw [hstops.fails] at hfailed
    exact absurd (hstops.earlier call hfirst hbefore) hfailed
  · rwa [show f'.calls - 1 = call by omega]

theorem lastFailed_put (hstart : start ≤ f.calls) (data : List Byte) :
    LastFailed start (f.put data) ↔ f.fails f.calls ≠ none := by
  have hcalls : (f.put data).calls = f.calls + 1 := rfl
  rw [LastFailed, hcalls, Nat.add_sub_cancel]
  exact and_iff_right (by omega)

theorem fprintf_eq_put (f : OutFile) (data : List Byte) :
    ∃ res, fprintf f data = (res, f.put data) ∧
      (f.fails f.calls ≠ none ∧ res = -1 ∨ f.fails f.calls = none ∧ res = data.length) := by
  rw [fprintf]
  cases f.fails f.calls with
  | none => exact ⟨_, rfl, Or.inr ⟨rfl, rfl⟩⟩
  | some count => exact ⟨_, rfl, Or.inl ⟨by simp, rfl⟩⟩

theorem fputc_eq_put (byte : Byte) (f : OutFile) :
    ∃ res, fputc byte f = (res, f.put [byte]) ∧
      (f.fails f.calls ≠ none ∧ res < 0 ∨ f.fails f.calls = none ∧ 0 ≤ res) := by
  rw [fputc]
  cases f.fails f.calls with
  | none => exact ⟨_, rfl, Or.inr ⟨rfl, by omega⟩⟩
  | some count => exact ⟨_, rfl, Or.inl ⟨by simp, by omega⟩⟩

theorem fwrite_eq_put {data : List Byte} (hdata : data ≠ []) (f : OutFile) :
    ∃ count, fwrite data f = (count, f.put data) ∧
      (f.fails f.calls ≠ none ∧ count ≠ data.length ∨
        f.fails f.calls = none ∧ count = data.length) := by
  have hlength := List.length_pos_iff.mpr hdata
  rw [fwrite, OutFile.emitted]
  cases f.fails f.calls with
  | none => exact ⟨_, rfl, Or.inr ⟨rfl, rfl⟩⟩
  | some count =>
      refine ⟨_, rfl, Or.inl ⟨by simp, ?_⟩⟩
      rw [List.length_take]
      omega

end Calls

/-- How many calls write a string. -/
def stringCalls (data : List Byte) : ℕ := if data.length = 0 then 2 else 3

/-- A string is written up to the first call that fails, which makes it -1. -/
theorem bencodeWriteString_stops (f : OutFile) (data : List Byte) :
    ∃ res f', bencodeWriteString f data = (res, f') ∧ Stops f f' ∧ f.calls < f'.calls ∧
      f'.calls ≤ f.calls + stringCalls data ∧
      (LastFailed f.calls f' ∧ res = -1 ∨
        ¬ LastFailed f.calls f' ∧ 2 ≤ res ∧ f'.calls = f.calls + stringCalls data) := by
  have hcount : stringCalls data = if data.length = 0 then 2 else 3 := rfl
  obtain ⟨res, hnumeral, hres⟩ := fprintf_eq_put f (decimal data.length)
  have hfirst := Stops.put f (decimal data.length)
  have hlast := lastFailed_put (le_refl f.calls) (decimal data.length)
  have hcalls : (f.put (decimal data.length)).calls = f.calls + 1 := rfl
  have hdigits := List.length_pos_iff.mpr (decimal_ne_nil data.length)
  generalize f.put (decimal data.length) = numeral at hnumeral hfirst hlast hcalls
  simp only [bencodeWriteString, hnumeral]
  rcases hres with ⟨hfail, rfl⟩ | ⟨hok, rfl⟩
  · exact ⟨_, _, if_pos (by omega), hfirst, by omega, by split_ifs at hcount <;> omega,
      Or.inl ⟨hlast.mpr hfail, rfl⟩⟩
  rw [if_neg (by omega)]
  obtain ⟨put, hput, hres⟩ := fputc_eq_put (ch ':') numeral
  have hsecond := hfirst.trans (by rw [hlast]; exact not_not.mpr hok) (.put numeral [ch ':'])
  have hlast := lastFailed_put hfirst.calls [ch ':']
  have hmore : (numeral.put [ch ':']).calls = numeral.calls + 1 := rfl
  generalize numeral.put [ch ':'] = colon at hput hsecond hlast hmore
  simp only [hput]
  rcases hres with ⟨hfail, hneg⟩ | ⟨hok, hpos⟩
  · exact ⟨_, _, if_pos hneg, hsecond, by omega, by split_ifs at hcount <;> omega,
      Or.inl ⟨hlast.mpr hfail, rfl⟩⟩
  rw [if_neg (by omega)]
  have hquiet : ¬ LastFailed f.calls colon := by
    rw [hlast]
    exact not_not.mpr hok
  by_cases hempty : data.length = 0
  · rw [if_pos hempty] at hcount
    exact ⟨_, _, if_pos hempty, hsecond, by omega, by omega, Or.inr ⟨hquiet, by omega, by omega⟩⟩
  rw [if_neg hempty] at hcount ⊢
  have hdata : data ≠ [] := List.length_pos_iff.mp (by omega)
  obtain ⟨count, hwrite, hres⟩ := fwrite_eq_put hdata colon
  have hthird := hsecond.trans hquiet (.put colon data)
  have hlast := lastFailed_put hsecond.calls data
  have hmost : (colon.put data).calls = colon.calls + 1 := rfl
  generalize colon.put data = body at hwrite hthird hlast hmost
  simp only [hwrite]
  rcases hres with ⟨hfail, hshort⟩ | ⟨hok, hall⟩
  · exact ⟨_, _, if_pos hshort, hthird, by omega, by omega, Or.inl ⟨hlast.mpr hfail, rfl⟩⟩
  · refine ⟨_, _, if_neg (not_not.mpr hall), hthird, by omega, by omega,
      Or.inr ⟨?_, by omega, by omega⟩⟩
    rw [hlast]
    exact not_not.mpr hok

/-! ## The last call decides -/

/-- The count is -1 exactly where the last call has failed. -/
structure Flagged (fails : ℕ → Option ℕ) (start : ℕ) (ctx : WriteCtx) : Prop where
  fails : ctx.f.fails = fails
  calls : start ≤ ctx.f.calls
  lower : -1 ≤ ctx.written
  flag : ctx.written = -1 ↔ LastFailed start ctx.f

section Flagged

variable {fails : ℕ → Option ℕ} {start : ℕ} {ctx ctx' : WriteCtx} {f' : OutFile}

theorem lastFailed_iff_of_lt (hstart : start ≤ ctx.f.calls) (hmore : ctx.f.calls < f'.calls) :
    LastFailed start f' ↔ LastFailed ctx.f.calls f' := by
  rw [LastFailed, LastFailed, and_iff_right (by omega), and_iff_right hmore]

/-- No call has been made yet. -/
theorem flagged_fresh (hwritten : 0 ≤ ctx.written) : Flagged ctx.f.fails ctx.f.calls ctx where
  fails := rfl
  calls := le_rfl
  lower := by omega
  flag := iff_of_false (by omega) fun hlast => absurd hlast.1 (lt_irrefl _)

/-- A call that fails makes the count -1, one that does not adds to it. -/
theorem Flagged.call (hctx : Flagged fails start ctx) {data : List Byte} {written : ℤ}
    (hcall : ctx.f.fails ctx.f.calls ≠ none ∧ written = -1 ∨
      ctx.f.fails ctx.f.calls = none ∧ 0 ≤ written) :
    Flagged fails start { f := ctx.f.put data, written := written } where
  fails := hctx.fails
  calls := hctx.calls.trans (Nat.le_succ _)
  lower := by
    rcases hcall with ⟨_, hwritten⟩ | ⟨_, hwritten⟩ <;> simp only <;> omega
  flag := by
    rw [lastFailed_put hctx.calls data]
    rcases hcall with ⟨hfail, hwritten⟩ | ⟨hok, hwritten⟩
    · exact iff_of_true hwritten hfail
    · exact iff_of_false (by simp only; omega) (not_not.mpr hok)

/-- A string that is written lifts even a count of -1. -/
theorem Flagged.string (hctx : Flagged fails start ctx) (data : List Byte) :
    Flagged fails start (ctx.after (bencodeWriteString ctx.f data).1
      (bencodeWriteString ctx.f data).1 (bencodeWriteString ctx.f data).2) ∧
      ctx.f.calls < (bencodeWriteString ctx.f data).2.calls := by
  obtain ⟨res, f', hwrite, hstops, hmore, _, hres⟩ := bencodeWriteString_stops ctx.f data
  have hlower := hctx.lower
  have hlast := lastFailed_iff_of_lt hctx.calls hmore
  rw [hwrite]
  refine ⟨⟨hstops.fails.trans hctx.fails, hctx.calls.trans hstops.calls, ?_, ?_⟩, hmore⟩
  · simp only [WriteCtx.after]
    split_ifs <;> omega
  · simp only [WriteCtx.after]
    rw [hlast]
    rcases hres with ⟨hfail, rfl⟩ | ⟨hok, hlong, _⟩
    · exact iff_of_true (if_pos (by omega)) hfail
    · rw [if_neg (by omega)]
      exact iff_of_false (by omega) hok

theorem Flagged.numeral (hctx : Flagged fails start ctx) (hwritten : ctx.written ≠ -1)
    (data : List Byte) :
    Flagged fails start
      (ctx.after (fprintf ctx.f data).1 (fprintf ctx.f data).1 (fprintf ctx.f data).2) := by
  have hlower := hctx.lower
  obtain ⟨res, hcall, hres⟩ := fprintf_eq_put ctx.f data
  rw [hcall]
  refine hctx.call ?_
  rcases hres with ⟨hfail, rfl⟩ | ⟨hok, rfl⟩
  · exact Or.inl ⟨hfail, rfl⟩
  · refine Or.inr ⟨hok, ?_⟩
    rw [if_neg (by omega)]
    omega

theorem Flagged.terminate (hctx : Flagged fails start ctx) :
    Flagged fails start (terminate ctx) := by
  rw [Write.terminate]
  split_ifs with hpos
  · obtain ⟨res, hput, hres⟩ := fputc_eq_put (ch 'e') ctx.f
    rw [hput]
    refine hctx.call ?_
    rcases hres with ⟨hfail, hneg⟩ | ⟨hok, hres⟩
    · exact Or.inl ⟨hfail, if_pos hneg⟩
    · refine Or.inr ⟨hok, ?_⟩
      rw [if_neg (by omega)]
      omega
  · exact hctx

/-- The letter has been written and the walk goes on from a count of its own, or
it has failed. -/
theorem Flagged.openWith (hctx : Flagged fails start ctx) (hwritten : ctx.written ≠ -1)
    (letter : Byte) (walk : WriteCtx → Run WriteCtx) :
    ∃ opened, Flagged fails start opened ∧ opened.f = ctx.f.put [letter] ∧
      (openWith letter walk ctx = .ok opened ∧ opened.written = -1 ∨
        openWith letter walk ctx = walk opened ∧ 0 < opened.written) := by
  have hlower := hctx.lower
  obtain ⟨res, hput, hres⟩ := fputc_eq_put letter ctx.f
  rw [Write.openWith, hput]
  rcases hres with ⟨hfail, hneg⟩ | ⟨hok, hres⟩
  · exact ⟨_, hctx.call (Or.inl ⟨hfail, rfl⟩), rfl, Or.inl ⟨if_pos hneg, rfl⟩⟩
  · refine ⟨{ f := ctx.f.put [letter], written := ctx.written + 1 },
      hctx.call (Or.inr ⟨hok, by omega⟩), rfl, Or.inr ⟨if_neg (by omega), ?_⟩⟩
    simp only
    omega

theorem bencodeDictWrite_flagged {write : ObjPtr BencodeObj → WriteCtx → Run WriteCtx}
    (hwrite : ∀ o before after, Flagged fails start before → write o before = .ok after →
      Flagged fails start after) {key : CString} {val : BencodeObj}
    (hctx : Flagged fails start ctx) (hcall : bencodeDictWrite write key val ctx = .ok ctx') :
    Flagged fails start ctx' := by
  have hkey := (hctx.string key.bytes).1
  rw [bencodeDictWrite] at hcall
  generalize bencodeWriteString ctx.f key.bytes = written at hcall hkey
  obtain ⟨res, f⟩ := written
  dsimp only [WriteCtx.after] at hcall hkey
  split_ifs at hcall hkey
  · exact Except.ok.inj hcall ▸ hkey
  · exact hwrite _ _ _ hkey hcall

/-- An opening letter, a walk that keeps the flag, and the terminator. -/
theorem opened_flagged {letter : Byte} {walk : WriteCtx → Run WriteCtx}
    (hwalk : ∀ before after, Flagged fails start before → walk before = .ok after →
      Flagged fails start after)
    (hctx : Flagged fails start ctx) (hwritten : ctx.written ≠ -1)
    (hcall : (openWith letter walk ctx >>= fun ctx => .ok (terminate ctx)) = .ok ctx') :
    Flagged fails start ctx' := by
  obtain ⟨walked, hopen, hend⟩ := bind_eq_ok.mp hcall
  obtain rfl := Except.ok.inj hend
  obtain ⟨opened, hopened, _, ⟨heq, _⟩ | ⟨heq, _⟩⟩ := hctx.openWith hwritten letter walk
  · obtain rfl := Except.ok.inj (heq.symm.trans hopen)
    exact hopened.terminate
  · exact (hwalk _ _ hopened (heq.symm.trans hopen)).terminate

/-- Whatever is written, the count is -1 exactly where the last call has failed. -/
theorem bencodeWrite_flagged (fuel : ℕ) (o : ObjPtr BencodeObj) {ctx ctx' : WriteCtx}
    (hctx : Flagged fails start ctx) (hwrite : bencodeWrite fuel o ctx = .ok ctx') :
    Flagged fails start ctx' := by
  induction fuel generalizing o ctx ctx' with
  | zero => cases hwrite
  | succ fuel ih =>
      by_cases hwritten : ctx.written = -1
      · rw [bencodeWrite, if_pos hwritten] at hwrite
        exact Except.ok.inj hwrite ▸ hctx
      cases o with
      | null => simp [bencodeWrite, hwritten, objOf] at hwrite
      | freed => simp [bencodeWrite, hwritten, objOf] at hwrite
      | live obj =>
          cases obj with
          | str data =>
              rw [bencodeWrite_str hwritten] at hwrite
              exact Except.ok.inj hwrite ▸ (hctx.string data).1
          | integer value =>
              rw [bencodeWrite_integer hwritten] at hwrite
              exact Except.ok.inj hwrite ▸ (hctx.numeral hwritten _).terminate
          | dict nodes =>
              rw [bencodeWrite_dict hwritten] at hwrite
              refine opened_flagged (fun before after hbefore hwalk => ?_) hctx hwritten hwrite
              exact bencodeObjIterDict_invariant
                (fun key val _ _ hkept hvisit =>
                  bencodeDictWrite_flagged (fun o _ _ => ih o) hkept hvisit) hwalk hbefore
          | list vals =>
              rw [bencodeWrite_list hwritten] at hwrite
              refine opened_flagged (fun before after hbefore hwalk => ?_) hctx hwritten hwrite
              exact bencodeObjIterList_invariant (fun val _ _ hkept hvisit => ih val hkept hvisit)
                hwalk hbefore

end Flagged

/-! ## Dicts of at most one entry -/

section Flat

variable {start : ℕ} {fails : ℕ → Option ℕ} {f : OutFile} {ctx ctx' : WriteCtx}

/-- A terminator is written only behind a call that has not failed. -/
theorem Stops.terminate (hstops : Stops f ctx.f) (hctx : Flagged fails f.calls ctx) :
    Stops f (Write.terminate ctx).f := by
  rw [Write.terminate]
  split_ifs with hpos
  · obtain ⟨res, hput, _⟩ := fputc_eq_put (ch 'e') ctx.f
    rw [hput]
    refine hstops.trans (fun hlast => ?_) (.put ctx.f [ch 'e'])
    have := hctx.flag.mpr hlast
    omega
  · exact hstops

theorem stops_opened {letter : Byte} {walk : WriteCtx → Run WriteCtx}
    (hwalk : ∀ before after, Flagged ctx.f.fails ctx.f.calls before → 0 < before.written →
      walk before = .ok after → Flagged ctx.f.fails ctx.f.calls after ∧ Stops before.f after.f)
    (hwritten : 0 ≤ ctx.written)
    (hcall : (openWith letter walk ctx >>= fun ctx => .ok (terminate ctx)) = .ok ctx') :
    Stops ctx.f ctx'.f := by
  obtain ⟨walked, hopen, hend⟩ := bind_eq_ok.mp hcall
  obtain rfl := Except.ok.inj hend
  obtain ⟨opened, hopened, hput, ⟨heq, _⟩ | ⟨heq, hpos⟩⟩ :=
    (flagged_fresh hwritten).openWith (by omega) letter walk
  · obtain rfl := Except.ok.inj (heq.symm.trans hopen)
    exact Stops.terminate (hput ▸ .put ctx.f [letter]) hopened
  · obtain ⟨hwalked, hstops⟩ := hwalk opened walked hopened hpos (heq.symm.trans hopen)
    refine Stops.terminate (Stops.trans (hput ▸ .put ctx.f [letter]) (fun hlast => ?_) hstops)
      hwalked
    have := hopened.flag.mpr hlast
    omega

theorem stops_bencodeDictWrite {write : ObjPtr BencodeObj → WriteCtx → Run WriteCtx}
    {key : CString} {val : BencodeObj}
    (hwrite : ∀ before after, 0 ≤ before.written → write (.live val) before = .ok after →
      Stops before.f after.f)
    (hwritten : 0 ≤ ctx.written) (hcall : bencodeDictWrite write key val ctx = .ok ctx') :
    Stops ctx.f ctx'.f := by
  obtain ⟨res, f', hstring, hstops, _, _, hres⟩ := bencodeWriteString_stops ctx.f key.bytes
  rw [bencodeDictWrite, hstring] at hcall
  dsimp only at hcall
  rcases hres with ⟨hfail, rfl⟩ | ⟨hok, hlong, _⟩
  · rw [if_pos (by omega)] at hcall
    exact Except.ok.inj hcall ▸ hstops
  · rw [if_neg (by omega)] at hcall
    exact hstops.trans hok (hwrite _ _ (by simp only; omega) hcall)

/-- Where no dict has a second entry, nothing is called behind a failure. -/
theorem stops_of_flat {value : BencodeValue} (hflat : FlatValue value) {fuel : ℕ}
    {obj : BencodeObj} (hdenotes : Denotes value obj) (hwritten : 0 ≤ ctx.written)
    (hwrite : bencodeWrite fuel (.live obj) ctx = .ok ctx') : Stops ctx.f ctx'.f := by
  have hne : ctx.written ≠ -1 := by omega
  induction hflat generalizing fuel obj ctx ctx' with
  | str data =>
      obtain rfl : obj = .str data := hdenotes
      cases fuel with
      | zero => cases hwrite
      | succ fuel =>
          rw [bencodeWrite_str hne] at hwrite
          obtain rfl := Except.ok.inj hwrite
          obtain ⟨res, f', hcall, hstops, _⟩ := bencodeWriteString_stops ctx.f data
          rw [hcall]
          exact hstops
  | int value =>
      obtain ⟨stored, rfl, _⟩ := hdenotes
      cases fuel with
      | zero => cases hwrite
      | succ fuel =>
          rw [bencodeWrite_integer hne] at hwrite
          obtain rfl := Except.ok.inj hwrite
          have hnumeral :=
            (flagged_fresh hwritten).numeral hne (ch 'i' :: signedDecimal stored.toInt)
          obtain ⟨res, hcall, _⟩ := fprintf_eq_put ctx.f (ch 'i' :: signedDecimal stored.toInt)
          rw [hcall] at hnumeral ⊢
          exact Stops.terminate (.put ctx.f _) hnumeral
  | empty =>
      cases fuel with
      | zero => cases hwrite
      | succ fuel =>
          obtain ⟨nodes, _, _, rfl, _⟩ := id (denotes_dict_nil.mp hdenotes)
          rw [bencodeWrite_dict hne] at hwrite
          refine stops_opened (fun before after hbefore hpos hwalk => ?_) hwritten hwrite
          have hfold := foldlM_of_bencodeObjIterDict (denotes_dict_nil.mp hdenotes) hwalk
          obtain rfl := Except.ok.inj hfold
          exact ⟨hbefore, .refl _⟩
  | @single key value hvalue ih =>
      obtain ⟨name, val, hholds, _, hval⟩ := denotes_dict_single.mp hdenotes
      cases fuel with
      | zero => cases hwrite
      | succ fuel =>
          obtain ⟨nodes, _, _, rfl, _⟩ := id hholds
          rw [bencodeWrite_dict hne] at hwrite
          refine stops_opened (fun before after hbefore hpos hwalk => ?_) hwritten hwrite
          have hkept := bencodeObjIterDict_invariant
            (fun key val _ _ hkept hvisit => bencodeDictWrite_flagged
              (fun o _ _ => bencodeWrite_flagged fuel o) hkept hvisit) hwalk hbefore
          refine ⟨hkept, ?_⟩
          have hfold := foldlM_of_bencodeObjIterDict hholds hwalk
          rw [List.foldlM_cons] at hfold
          obtain ⟨middle, hvisit, hend⟩ := bind_eq_ok.mp hfold
          obtain rfl := Except.ok.inj hend
          exact stops_bencodeDictWrite (fun before after hbefore hstep =>
            ih hval hbefore hstep (by omega)) hpos.le hvisit

end Flat

/-! ## Every write ends -/

/-- With this much fuel, every write of the value returns. -/
def ReturnsWithin (bound : ℕ) (value : BencodeValue) : Prop :=
  ∀ fuel obj ctx, bound ≤ fuel → Denotes value obj →
    ∃ ctx', bencodeWrite fuel (.live obj) ctx = .ok ctx'

theorem exists_openWith {letter : Byte} {walk : WriteCtx → Run WriteCtx}
    (hwalk : ∀ ctx, ∃ ctx', walk ctx = .ok ctx') (ctx : WriteCtx) :
    ∃ ctx', openWith letter walk ctx = .ok ctx' := by
  rw [openWith]
  dsimp only
  split_ifs
  · exact ⟨_, rfl⟩
  · exact hwalk _

theorem exists_foldlM_bencodeDictWrite {entries : List (List Byte × BencodeValue)}
    {held : List (CString × BencodeObj)} {bound fuel : ℕ}
    (hentries : ∀ entry ∈ entries, ReturnsWithin bound entry.2) (hfuel : bound ≤ fuel)
    (hheld : DenotesEntries entries held) (ctx : WriteCtx) :
    ∃ ctx', held.foldlM (fun ctx entry =>
      bencodeDictWrite (bencodeWrite fuel) entry.1 entry.2 ctx) ctx = .ok ctx' := by
  induction entries generalizing held ctx with
  | nil =>
      obtain rfl := hheld
      exact ⟨ctx, rfl⟩
  | cons entry entries ih =>
      obtain ⟨key, value⟩ := entry
      obtain ⟨name, obj, rest, rfl, _, hobj, hrest⟩ := hheld
      have hstep : ∃ middle, bencodeDictWrite (bencodeWrite fuel) name obj ctx = .ok middle := by
        rw [bencodeDictWrite]
        dsimp only
        split_ifs
        · exact ⟨_, rfl⟩
        · exact hentries (key, value) (by simp) fuel obj _ hfuel hobj
      obtain ⟨middle, hvisit⟩ := hstep
      rw [List.foldlM_cons, hvisit, ok_bind]
      exact ih (fun other hother => hentries other (by simp [hother])) hrest middle

theorem exists_returnsWithin {value : BencodeValue} (hlistFree : ListFree value) :
    ∃ bound, ReturnsWithin bound value := by
  induction hlistFree with
  | str data =>
      refine ⟨1, fun fuel obj ctx hfuel hobj => ?_⟩
      obtain ⟨fuel, rfl⟩ := Nat.exists_eq_add_of_le' hfuel
      obtain rfl : obj = .str data := hobj
      by_cases hwritten : ctx.written = -1
      · exact ⟨ctx, if_pos hwritten⟩
      · exact ⟨_, bencodeWrite_str hwritten data⟩
  | int value =>
      refine ⟨1, fun fuel obj ctx hfuel hobj => ?_⟩
      obtain ⟨fuel, rfl⟩ := Nat.exists_eq_add_of_le' hfuel
      obtain ⟨stored, rfl, rfl⟩ := hobj
      by_cases hwritten : ctx.written = -1
      · exact ⟨ctx, if_pos hwritten⟩
      · exact ⟨_, bencodeWrite_integer hwritten stored⟩
  | @dict entries _ ih =>
      obtain ⟨bound, hbound⟩ : ∃ bound, ∀ entry ∈ entries, ReturnsWithin bound entry.2 :=
        exists_commonBound (fun _ _ _ hmore hwithin fuel obj ctx hfuel =>
          hwithin fuel obj ctx (hmore.trans hfuel)) ih
      refine ⟨max bound (entries.length + 1) + 1, fun fuel obj ctx hfuel hobj => ?_⟩
      obtain ⟨fuel, rfl⟩ := Nat.exists_eq_add_of_le' (show 1 ≤ fuel by omega)
      obtain ⟨held, hholds, hheld⟩ := hobj
      have hturns : held.length < fuel := by
        rw [hheld.length_eq]
        omega
      by_cases hwritten : ctx.written = -1
      · exact ⟨ctx, if_pos hwritten⟩
      · have hwalks : ∀ opened, ∃ walked, bencodeObjIterDict fuel obj
            (bencodeDictWrite (bencodeWrite fuel)) opened = .ok walked := by
          intro opened
          rw [bencodeObjIterDict_holds hholds hturns]
          exact exists_foldlM_bencodeDictWrite hbound (show bound ≤ fuel by omega) hheld opened
        obtain ⟨walked, hwalk⟩ := @exists_openWith (ch 'd') _ hwalks ctx
        obtain ⟨nodes, _, _, rfl, _⟩ := id hholds
        rw [bencodeWrite_dict hwritten, hwalk]
        exact ⟨_, rfl⟩

/-! ## Dicts of more entries -/

/-- One call fails. -/
def failsAt (failing : ℕ) (call : ℕ) : Option ℕ := if call = failing then some 0 else none

theorem failsAt_ne_none {failing call : ℕ} : failsAt failing call ≠ none ↔ call = failing := by
  rw [failsAt]
  split_ifs with heq
  · exact iff_of_true (by simp) heq
  · exact iff_of_false (by simp) heq

/-- A write in which this call fails goes on behind it. -/
def LateFailure (failing : ℕ) (value : BencodeValue) (start : ℕ) : Prop :=
  start ≤ failing ∧ ∀ fuel obj ctx ctx', Denotes value obj → 0 ≤ ctx.written →
    ctx.f.calls = start → ctx.f.fails = failsAt failing →
    bencodeWrite fuel (.live obj) ctx = .ok ctx' → failing + 2 ≤ ctx'.f.calls

section Late

variable {failing : ℕ} {ctx ctx' : WriteCtx}

/-- Behind the failing call the count cannot be -1 any more. -/
theorem flagged_of_behind (hfails : ctx.f.fails = failsAt failing)
    (hcalls : failing + 2 ≤ ctx.f.calls) (hwritten : 0 ≤ ctx.written) :
    Flagged (failsAt failing) (failing + 2) ctx where
  fails := hfails
  calls := hcalls
  lower := by omega
  flag := by
    refine iff_of_false (by omega) fun hlast => ?_
    have hcall := hlast.2
    rw [hfails, failsAt_ne_none] at hcall
    omega

/-- A string that the failing call is no part of is written with all its calls. -/
theorem bencodeWriteString_whole (hfails : ctx.f.fails = failsAt failing) {data : List Byte}
    (hapart : ctx.f.calls + stringCalls data ≤ failing ∨ failing < ctx.f.calls) :
    ∃ res f', bencodeWriteString ctx.f data = (res, f') ∧ 2 ≤ res ∧ f'.fails = failsAt failing ∧
      f'.calls = ctx.f.calls + stringCalls data := by
  obtain ⟨res, f', hcall, hstops, hmore, hmost, ⟨hlast, _⟩ | ⟨_, hlong, hcalls⟩⟩ :=
    bencodeWriteString_stops ctx.f data
  · have hfailed := hlast.2
    rw [hstops.fails, hfails, failsAt_ne_none] at hfailed
    omega
  · exact ⟨res, f', hcall, hlong, hstops.fails.trans hfails, hcalls⟩

/-- A string that starts with the failing call ends there. -/
theorem bencodeWriteString_failing (hfails : ctx.f.fails = failsAt failing)
    (hcalls : ctx.f.calls = failing) (data : List Byte) :
    ∃ f', bencodeWriteString ctx.f data = (-1, f') ∧ f'.fails = failsAt failing ∧
      f'.calls = failing + 1 := by
  obtain ⟨res, f', hcall, hstops, hmore, _, hres⟩ := bencodeWriteString_stops ctx.f data
  have hhere : f'.calls = failing + 1 := by
    by_contra hbehind
    have hquiet := hstops.earlier failing (by omega) (by omega)
    rw [hfails] at hquiet
    exact failsAt_ne_none.mpr rfl hquiet
  have hlast : LastFailed ctx.f.calls f' := by
    refine ⟨hmore, ?_⟩
    rw [hstops.fails, hfails, failsAt_ne_none]
    omega
  obtain ⟨_, rfl⟩ := hres.resolve_right fun hquiet => hquiet.1 hlast
  exact ⟨f', hcall, hstops.fails.trans hfails, hhere⟩

/-- A letter that does not fail is written. -/
theorem openWith_whole (hfails : ctx.f.fails = failsAt failing) (hapart : ctx.f.calls ≠ failing)
    (letter : Byte) (walk : WriteCtx → Run WriteCtx) :
    openWith letter walk ctx = walk { f := ctx.f.put [letter], written := ctx.written + 1 } := by
  obtain ⟨res, hput, ⟨hfail, _⟩ | ⟨_, hres⟩⟩ := fputc_eq_put letter ctx.f
  · rw [hfails, failsAt_ne_none] at hfail
    exact absurd hfail hapart
  · rw [openWith, hput]
    exact if_neg (by omega)

theorem calls_le_terminate (ctx : WriteCtx) : ctx.f.calls ≤ (terminate ctx).f.calls := by
  rw [terminate]
  split_ifs
  · obtain ⟨res, hput, _⟩ := fputc_eq_put (ch 'e') ctx.f
    rw [hput]
    exact Nat.le_succ _
  · exact le_rfl

/-- The letter of a dict does not fail, and the entries are written behind it. -/
theorem exists_walked {fuel : ℕ} {obj : BencodeObj} {held : List (CString × BencodeObj)}
    (hholds : DictHolds obj held) (hwritten : 0 ≤ ctx.written)
    (hfails : ctx.f.fails = failsAt failing) (hapart : ctx.f.calls ≠ failing)
    (hwrite : bencodeWrite (fuel + 1) (.live obj) ctx = .ok ctx') :
    ∃ walked, held.foldlM
        (fun ctx entry => bencodeDictWrite (bencodeWrite fuel) entry.1 entry.2 ctx)
        { f := ctx.f.put [ch 'd'], written := ctx.written + 1 } = .ok walked ∧
      ctx' = terminate walked := by
  obtain ⟨nodes, _, _, rfl, _⟩ := id hholds
  rw [bencodeWrite_dict (by omega), openWith_whole hfails hapart] at hwrite
  obtain ⟨walked, hwalk, hend⟩ := bind_eq_ok.mp hwrite
  exact ⟨walked, foldlM_of_bencodeObjIterDict hholds hwalk, (Except.ok.inj hend).symm⟩

/-- With the only entry of a dict. -/
theorem lateFailure_single {key : List Byte} {value : BencodeValue} {start : ℕ}
    (hlate : LateFailure failing value (start + 1 + stringCalls key)) :
    LateFailure failing (.dict [(key, value)]) start := by
  refine ⟨by have := hlate.1; omega, fun fuel obj ctx ctx' hobj hwritten hcalls hfails hwrite => ?_⟩
  obtain ⟨name, val, hholds, rfl, hval⟩ := denotes_dict_single.mp hobj
  cases fuel with
  | zero => cases hwrite
  | succ fuel =>
      have hbefore := hlate.1
      obtain ⟨walked, hfold, rfl⟩ := exists_walked hholds hwritten hfails (by omega) hwrite
      rw [List.foldlM_cons] at hfold
      obtain ⟨middle, hvisit, hlast⟩ := bind_eq_ok.mp hfold
      obtain rfl := Except.ok.inj hlast
      have hopened : (ctx.f.put [ch 'd']).calls = start + 1 := congrArg Nat.succ hcalls
      obtain ⟨res, f', hstring, hlong, hsame, hmore⟩ := @bencodeWriteString_whole failing
        { f := ctx.f.put [ch 'd'], written := ctx.written + 1 } hfails name.bytes
        (Or.inl (by simp only; omega))
      rw [bencodeDictWrite, hstring] at hvisit
      dsimp only at hvisit hmore
      rw [if_neg (by omega)] at hvisit
      have hinner := hlate.2 fuel val _ _ hval (by simp only; omega) (by simp only; omega) hsame
        hvisit
      exact hinner.trans (calls_le_terminate _)

/-- The first key of a dict fails, and the second one is written. -/
theorem lateFailure_more {first second : List Byte × BencodeValue}
    {rest : List (List Byte × BencodeValue)} (start : ℕ) :
    LateFailure (start + 1) (.dict (first :: second :: rest)) start := by
  refine ⟨Nat.le_succ _, fun fuel obj ctx ctx' hobj hwritten hcalls hfails hwrite => ?_⟩
  obtain ⟨held, hholds, hheld⟩ := hobj
  obtain ⟨name, val, _, rfl, _, _, hheld⟩ := hheld
  obtain ⟨name', val', held, rfl, _, _, _⟩ := hheld
  cases fuel with
  | zero => cases hwrite
  | succ fuel =>
      obtain ⟨walked, hfold, rfl⟩ := exists_walked hholds hwritten hfails (by omega) hwrite
      rw [List.foldlM_cons] at hfold
      obtain ⟨middle, hvisit, hothers⟩ := bind_eq_ok.mp hfold
      rw [List.foldlM_cons] at hothers
      obtain ⟨middle', hvisit', hrest⟩ := bind_eq_ok.mp hothers
      have hopened : (ctx.f.put [ch 'd']).calls = start + 1 := congrArg Nat.succ hcalls
      obtain ⟨f', hstring, hsame, hmore⟩ := @bencodeWriteString_failing (start + 1)
        { f := ctx.f.put [ch 'd'], written := ctx.written + 1 } hfails hopened name.bytes
      rw [bencodeDictWrite, hstring] at hvisit
      obtain rfl := Except.ok.inj hvisit
      obtain ⟨res, f'', hstring', hlong, hsame', hmore'⟩ := @bencodeWriteString_whole (start + 1)
        { f := f', written := -1 } hsame name'.bytes (Or.inr (by simp only; omega))
      rw [bencodeDictWrite, hstring'] at hvisit'
      dsimp only at hvisit' hmore'
      rw [if_neg (by omega)] at hvisit'
      have hpos : 0 < stringCalls name'.bytes := by
        rw [stringCalls]
        split_ifs <;> omega
      have hbehind := @flagged_of_behind (start + 1) { f := f'', written := -1 + res } hsame'
        (by simp only; omega) (by simp only; omega)
      have hlast := foldlM_invariant
        (fun entry _ _ _ hkept hstep => bencodeDictWrite_flagged
          (fun o _ _ => bencodeWrite_flagged fuel o) hkept hstep) hrest
        (bencodeWrite_flagged fuel _ hbehind hvisit')
      exact hlast.calls.trans (calls_le_terminate _)

end Late

theorem exists_lateFailure {value : BencodeValue} (hlistFree : ListFree value)
    (hflat : ¬ FlatValue value) (start : ℕ) : ∃ failing, LateFailure failing value start := by
  induction hlistFree generalizing start with
  | str data => exact absurd (.str data) hflat
  | int value => exact absurd (.int value) hflat
  | @dict entries _ ih =>
      match entries with
      | [] => exact absurd .empty hflat
      | [(key, value)] =>
          have hvalue : ¬ FlatValue value := fun hvalue => hflat (.single hvalue)
          obtain ⟨failing, hlate⟩ := ih (key, value) (by simp) hvalue (start + 1 + stringCalls key)
          exact ⟨failing, lateFailure_single hlate⟩
      | first :: second :: rest => exact ⟨start + 1, lateFailure_more start⟩

/-! ## Whole files -/

/-- Whichever calls fail, a write with one of them returns -1. -/
def ReportsFailures (obj : BencodeObj) : Prop :=
  ∃ bound, ∀ fuel, bound ≤ fuel → ∀ f, ∃ ret f',
    bencodeWriteFile fuel (.live obj) f = .ok (ret, f') ∧ (SomeFailed f.calls f' → ret = -1)

theorem bencodeWriteFile_eq_ok {fuel : ℕ} {o : ObjPtr BencodeObj} {f f' : OutFile} {ret : ℤ} :
    bencodeWriteFile fuel o f = .ok (ret, f') ↔
      bencodeWrite fuel o { f := f, written := 0 } = .ok { f := f', written := ret } := by
  rw [bencodeWriteFile, bind_eq_ok]
  constructor
  · rintro ⟨ctx, hwrite, hresult⟩
    obtain ⟨rfl, rfl⟩ := ok_pair_inj hresult
    exact hwrite
  · intro hwrite
    exact ⟨_, hwrite, rfl⟩

/-- The result of a write tells about its last call. -/
theorem bencodeWriteFile_last {fuel : ℕ} {o : ObjPtr BencodeObj} {f f' : OutFile} {ret : ℤ}
    (hwrite : bencodeWriteFile fuel o f = .ok (ret, f')) :
    f'.fails = f.fails ∧ (ret = -1 ↔ LastFailed f.calls f') := by
  have hflagged := bencodeWrite_flagged fuel o (flagged_fresh (le_refl (0 : ℤ)))
    (bencodeWriteFile_eq_ok.mp hwrite)
  exact ⟨hflagged.fails, hflagged.flag⟩

/-- An object without lists is written with every failure reported exactly if
none of its dicts has a second entry. -/
theorem reportsFailures_iff {value : BencodeValue} {obj : BencodeObj}
    (hlistFree : ListFree value) (hdenotes : Denotes value obj) :
    ReportsFailures obj ↔ FlatValue value := by
  constructor
  · rintro ⟨bound, hreports⟩
    by_contra hflat
    obtain ⟨failing, hfirst, hlate⟩ := exists_lateFailure hlistFree hflat 0
    obtain ⟨ret, f', hwrite, hret⟩ := hreports bound le_rfl { fails := failsAt failing }
    obtain ⟨hfails, hlast⟩ := bencodeWriteFile_last hwrite
    have hbehind : failing + 2 ≤ f'.calls := hlate bound obj _ _ hdenotes (le_refl (0 : ℤ)) rfl rfl
      (bencodeWriteFile_eq_ok.mp hwrite)
    have hfailed : f'.fails failing ≠ none := by
      rw [hfails]
      exact failsAt_ne_none.mpr rfl
    obtain ⟨_, hcall⟩ := hlast.mp (hret ⟨failing, hfirst, by omega, hfailed⟩)
    rw [hfails, failsAt_ne_none] at hcall
    omega
  · intro hflat
    obtain ⟨bound, hreturns⟩ := exists_returnsWithin hlistFree
    refine ⟨bound, fun fuel hfuel f => ?_⟩
    obtain ⟨ctx', hwrite⟩ := hreturns fuel obj { f := f, written := 0 } hfuel hdenotes
    have hcall := bencodeWriteFile_eq_ok.mpr hwrite
    refine ⟨_, _, hcall, fun hsome => ?_⟩
    exact (bencodeWriteFile_last hcall).2.mpr
      ((stops_of_flat hflat hdenotes (le_refl (0 : ℤ)) hwrite).lastFailed hsome)

end I2pLite.WriteFails
