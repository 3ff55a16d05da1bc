import I2pLite.Netdb.NodeStreams
import I2pLite.RouterInfo.LoadedInfo
import I2pLite.RouterInfo.Verify

/-!
# Ticks of the router

On every tick a router that knows too few peers looks for one in the file that
it was given to bootstrap from.  A router info that has been loaded has no data
that could be verified, so no file ever leads to a bootstrap.
-/

namespace I2pLite.Ticks

open I2pLite.CRun
open I2pLite.CBytes
open I2pLite.CInt
open I2pLite.Stdio
open I2pLite.BencodeObject
open I2pLite.Denotation
open I2pLite.Decoded
open I2pLite.Cert
open I2pLite.Identity
open I2pLite.Ri
open I2pLite.Hashmap
open I2pLite.Netdb
open I2pLite.Verify
open I2pLite.Load
open I2pLite.InfoStreams (loadsFrame_of_load)
open I2pLite.LoadedInfo
open I2pLite.LoadAll (routerInfoFree_new)

def netdbMinPeers : ℕ := 20

/-- `struct router_context`, as far as a tick reads it. -/
structure RouterContext where
  netdb : MnetNetdb RouterInfo
  bootstrap : Option CString

/-- The routers that a bootstrap was tried from, and the router infos that are
neither released nor pointed to any more. -/
structure Bootstrapping where
  tried : List CString
  lost : List RouterInfo

/-- One more router info is lost. -/
def Bootstrapping.lose (state : Bootstrapping) (ri : RouterInfo) : Bootstrapping :=
  { state with lost := state.lost ++ [ri] }

section Code

variable {File : Type} (load : File → Run (ℤ × RouterInfo))
variable (digest : List Byte → List.Vector Byte 32) (code : SignatureCode (List.Vector Byte 32))
variable (ctx : RouterContext)

/-- The bootstrap itself has not been written yet. -/
def routerContextTryBootstrapFromRouter (ri : RouterInfo) (state : Bootstrapping) :
    Run Bootstrapping := do
  let ident ← routerInfoBase64Ident digest ri
  .ok { state with tried := state.tried ++ [ident] }

/-- What happens to a file that has been opened. -/
def bootstrapFromFile (f : File) (state : Bootstrapping) : Run Bootstrapping := do
  let (ret, ri) ← load f
  if ret ≠ 0 then
    let _ ← routerInfoBase64Ident digest ri
    let valid ← routerInfoVerify code ri
    if valid ≠ 0 then
      let state ← routerContextTryBootstrapFromRouter digest ri state
      .ok (state.lose ri)
    else
      routerInfoFree ri
      .ok state
  else
    routerInfoFree ri
    .ok state

/-- The router info that is made for the file is lost where there is no file. -/
def routerContextEnsureMinPeers (fopen : CString → Option File) (state : Bootstrapping) :
    Run Bootstrapping :=
  if mnetNetdbLoadedPeerCount ctx.netdb < netdbMinPeers then
    match ctx.bootstrap with
    | none => .ok state
    | some bootstrap =>
        match fopen bootstrap with
        | none => .ok (state.lose routerInfoNew)
        | some f => bootstrapFromFile load digest code f state
  else .ok state

def routerContextHandleTick (fopen : CString → Option File) (state : Bootstrapping) :
    Run Bootstrapping :=
  routerContextEnsureMinPeers load digest code ctx fopen state

/-- The ticks of the timer, each with the files that it finds. -/
def handleTicks (ticks : List (CString → Option File)) (state : Bootstrapping) :
    Run Bootstrapping :=
  ticks.foldlM (fun state fopen => routerContextHandleTick load digest code ctx fopen state) state

end Code

/-! ## Runs -/

/-- The file that a tick has to open, if it has to open one. -/
def wantedFile (ctx : RouterContext) : Option CString :=
  if mnetNetdbLoadedPeerCount ctx.netdb < netdbMinPeers then ctx.bootstrap else none

section Runs

variable {File : Type} {load : File → Run (ℤ × RouterInfo)}
variable {digest : List Byte → List.Vector Byte 32} {code : SignatureCode (List.Vector Byte 32)}
variable {ctx : RouterContext} {state state' : Bootstrapping}

/-- What is loaded has no data. -/
def LeavesUnfilled (load : File → Run (ℤ × RouterInfo)) : Prop :=
  ∀ f ret ri, load f = .ok (ret, ri) → ri.len = 0

/-- A file is loaded, and the router info is released again; where the load was
a success, the router info has been named before. -/
def Discards (load : File → Run (ℤ × RouterInfo)) (digest : List Byte → List.Vector Byte 32)
    (f : File) : Prop :=
  ∃ ret ri, load f = .ok (ret, ri) ∧ routerInfoFree ri = .ok () ∧
    (ret ≠ 0 → ∃ ident, routerInfoBase64Ident digest ri = .ok ident)

theorem routerInfoVerify_unfilled {ri : RouterInfo} (hlen : ri.len = 0) :
    routerInfoVerify code ri = .ok 0 := by
  have hverified : ¬ 0 < verifiedLength ri := by
    rw [verifiedLength_eq (by omega), hlen]
    decide
  rw [verifiedLength] at hverified
  rw [routerInfoVerify, if_neg hverified]

theorem bootstrapFromFile_eq_ok_iff (hunfilled : LeavesUnfilled load) (f : File) :
    bootstrapFromFile load digest code f state = .ok state' ↔
      Discards load digest f ∧ state' = state := by
  constructor
  · intro hrun
    obtain ⟨⟨ret, ri⟩, hload, hrest⟩ := bind_eq_ok.mp hrun
    have hverify := @routerInfoVerify_unfilled code ri (hunfilled f ret ri hload)
    dsimp only at hrest
    by_cases hret : ret ≠ 0
    · rw [if_pos hret, hverify] at hrest
      obtain ⟨ident, hident, hrest⟩ := bind_eq_ok.mp hrest
      rw [ok_bind, if_neg (by simp)] at hrest
      obtain ⟨_, hfree, hresult⟩ := bind_eq_ok.mp hrest
      exact ⟨⟨ret, ri, hload, hfree, fun _ => ⟨ident, hident⟩⟩, (Except.ok.inj hresult).symm⟩
    · rw [if_neg hret] at hrest
      obtain ⟨_, hfree, hresult⟩ := bind_eq_ok.mp hrest
      exact ⟨⟨ret, ri, hload, hfree, fun hne => absurd hne hret⟩, (Except.ok.inj hresult).symm⟩
  · rintro ⟨⟨ret, ri, hload, hfree, hident⟩, rfl⟩
    have hverify := @routerInfoVerify_unfilled code ri (hunfilled f ret ri hload)
    rw [bootstrapFromFile, hload, ok_bind]
    dsimp only
    by_cases hret : ret ≠ 0
    · obtain ⟨ident, hident⟩ := hident hret
      rw [if_pos hret, hident, ok_bind, hverify, ok_bind, if_neg (by simp), hfree]
      rfl
    · rw [if_neg hret, hfree]
      rfl

/-- A tick has no file to open, does not find it, or discards what is in it. -/
def Passes (load : File → Run (ℤ × RouterInfo)) (digest : List Byte → List.Vector Byte 32)
    (ctx : RouterContext) (fopen : CString → Option File) : Prop :=
  ∀ f, (wantedFile ctx).bind fopen = some f → Discards load digest f

/-- A tick looks for a file that it does not find. -/
def misses (ctx : RouterContext) (fopen : CString → Option File) : Bool :=
  (wantedFile ctx).any fun path => (fopen path).isNone

/-- Every miss loses a router info. -/
def Bootstrapping.loseAll (state : Bootstrapping) (count : ℕ) : Bootstrapping :=
  { state with lost := state.lost ++ List.replicate count routerInfoNew }

theorem Bootstrapping.loseAll_zero (state : Bootstrapping) : state.loseAll 0 = state := by
  rw [loseAll, List.replicate_zero, List.append_nil]

theorem Bootstrapping.loseAll_one (state : Bootstrapping) :
    state.loseAll 1 = state.lose routerInfoNew := rfl

theorem Bootstrapping.loseAll_loseAll (state : Bootstrapping) (count more : ℕ) :
    (state.loseAll count).loseAll more = state.loseAll (count + more) := by
  rw [loseAll, loseAll, loseAll, List.append_assoc, List.replicate_append_replicate]

theorem routerContextEnsureMinPeers_eq (fopen : CString → Option File) (state : Bootstrapping) :
    routerContextEnsureMinPeers load digest code ctx fopen state =
      match wantedFile ctx with
      | none => .ok state
      | some path =>
          match fopen path with
          | none => .ok (state.lose routerInfoNew)
          | some f => bootstrapFromFile load digest code f state := by
  rw [routerContextEnsureMinPeers, wantedFile]
  split_ifs with hfew
  · rfl
  · rfl

theorem handleTick_eq_ok_iff (hunfilled : LeavesUnfilled load) (fopen : CString → Option File) :
    routerContextHandleTick load digest code ctx fopen state = .ok state' ↔
      Passes load digest ctx fopen ∧
        state' = state.loseAll (if misses ctx fopen then 1 else 0) := by
  rw [routerContextHandleTick, routerContextEnsureMinPeers_eq, Passes, misses]
  cases wantedFile ctx with
  | none => simp [Bootstrapping.loseAll_zero, @eq_comm _ state']
  | some path =>
      dsimp only
      rw [Option.bind_some, Option.any_some]
      cases fopen path with
      | none => simp [Bootstrapping.loseAll_one, @eq_comm _ state']
      | some f => simp [bootstrapFromFile_eq_ok_iff hunfilled, Bootstrapping.loseAll_zero]

theorem handleTicks_cons (fopen : CString → Option File) (ticks : List (CString → Option File)) :
    handleTicks load digest code ctx (fopen :: ticks) state =
      routerContextHandleTick load digest code ctx fopen state >>= fun state =>
        handleTicks load digest code ctx ticks state :=
  List.foldlM_cons

/-- A run of ticks comes to an end exactly where every tick passes, and nothing
is left of it but a lost router info for every miss. -/
theorem handleTicks_eq_ok_iff (hunfilled : LeavesUnfilled load)
    (ticks : List (CString → Option File)) :
    handleTicks load digest code ctx ticks state = .ok state' ↔
      (∀ fopen ∈ ticks, Passes load digest ctx fopen) ∧
        state' = state.loseAll (ticks.countP (misses ctx)) := by
  induction ticks generalizing state with
  | nil => simp [handleTicks, Bootstrapping.loseAll, eq_comm]
  | cons fopen ticks ih =>
      rw [handleTicks_cons, List.forall_mem_cons, List.countP_cons, Nat.add_comm,
        ← Bootstrapping.loseAll_loseAll, bind_eq_ok]
      simp only [handleTick_eq_ok_iff hunfilled, ih]
      constructor
      · rintro ⟨middle, ⟨hpasses, rfl⟩, hrest, rfl⟩
        exact ⟨⟨hpasses, hrest⟩, rfl⟩
      · rintro ⟨⟨hpasses, hrest⟩, rfl⟩
        exact ⟨_, ⟨hpasses, rfl⟩, hrest, rfl⟩

end Runs

/-! ## Files that are decoded -/

section Decoded

variable {File : Type}

/-- A dict that is loaded, named and released again: it has an identity with a
key and a certificate, accepted or not, a link, and no text of capabilities. -/
def Discardable (read : File → Option BencodeObj) (f : File) : Prop :=
  ∃ dict entries, read f = some dict ∧ DictHolds dict entries ∧ Safe entries ∧
    (∃ key bytes, (lastIdent entries).bind identityRead =
      some (identityOf key (.filled bytes))) ∧
    (lastLink entries).isSome = true ∧ hasCaps entries = false

theorem routerInfoFree_loadedInfo_iff (entries : List Entry) :
    routerInfoFree (loadedInfo entries) = .ok () ↔
      (lastLink entries).isSome = true ∧ hasCaps entries = false := by
  rw [routerInfoFree, loadedInfo]
  cases lastLink entries with
  | none => exact iff_of_false (by simp [iwpConfigFree]) (by simp)
  | some link => cases hasCaps entries <;> simp [iwpConfigFree]

theorem discards_iff (reader : BencodeReader File) (digest : List Byte → List.Vector Byte 32)
    (f : File) :
    Discards (routerInfoLoad reader.read routerInfoNew) digest f ↔ Discardable reader.read f := by
  rcases dict_or_not reader f with hdict | ⟨dict, entries, hread, hholds, hdenotes⟩
  · refine iff_of_false ?_ (not_exists_dict hdict)
    rintro ⟨ret, ri, hload, hfree, _⟩
    rw [routerInfoLoad_of_not_dict hdict] at hload
    obtain ⟨_, rfl⟩ := ok_pair_inj hload
    rw [routerInfoFree_new] at hfree
    cases hfree
  · rw [Discards, Discardable, exists_dict_iff hread hholds]
    simp only [routerInfoLoad_dict_iff hread hholds hdenotes]
    constructor
    · rintro ⟨ret, ri, ⟨rfl, hsafe, rfl⟩, hfree, hident⟩
      have hnamed := (exists_routerInfoBase64Ident_iff digest).mp (hident one_ne_zero)
      exact ⟨hsafe, hnamed, (routerInfoFree_loadedInfo_iff entries).mp hfree⟩
    · rintro ⟨hsafe, hnamed, hreleased⟩
      exact ⟨1, loadedInfo entries, ⟨rfl, hsafe, rfl⟩,
        (routerInfoFree_loadedInfo_iff entries).mpr hreleased,
        fun _ => (exists_routerInfoBase64Ident_iff digest).mpr hnamed⟩

theorem leavesUnfilled_decoded (reader : BencodeReader File) :
    LeavesUnfilled (routerInfoLoad reader.read routerInfoNew) := by
  intro f ret ri hload
  rcases dict_or_not reader f with hdict | ⟨dict, entries, hread, hholds, hdenotes⟩
  · rw [routerInfoLoad_of_not_dict hdict] at hload
    obtain ⟨_, rfl⟩ := ok_pair_inj hload
    rfl
  · obtain ⟨_, _, rfl⟩ := (routerInfoLoad_dict_iff hread hholds hdenotes).mp hload
    rfl

/-- Even where files are decoded as they should be, a run of ticks tries to
bootstrap from no router.  It comes to an end exactly where every file that is
found can be discarded. -/
theorem handleTicks_decoded_iff (reader : BencodeReader File)
    (digest : List Byte → List.Vector Byte 32) (code : SignatureCode (List.Vector Byte 32))
    (ctx : RouterContext) (ticks : List (CString → Option File)) (state state' : Bootstrapping) :
    handleTicks (routerInfoLoad reader.read routerInfoNew) digest code ctx ticks state =
        .ok state' ↔
      (∀ fopen ∈ ticks, ∀ f, (wantedFile ctx).bind fopen = some f →
        Discardable reader.read f) ∧
      state' = state.loseAll (ticks.countP (misses ctx)) := by
  rw [handleTicks_eq_ok_iff (leavesUnfilled_decoded reader)]
  simp only [Passes, discards_iff]

end Decoded

/-! ## Files as they are read -/

section Streams

variable {fuel : ℕ} {digest : List Byte → List.Vector Byte 32}

theorem leavesUnfilled_streams :
    LeavesUnfilled (InfoStreams.routerInfoLoad fuel routerInfoNew) := by
  intro f ret ri hload
  obtain ⟨rfl, _⟩ := loadsFrame_of_load hload
  rfl

theorem not_discards_streams (f : InFile) :
    ¬ Discards (InfoStreams.routerInfoLoad fuel routerInfoNew) digest f := by
  rintro ⟨ret, ri, hload, hfree, _⟩
  obtain ⟨rfl, _⟩ := loadsFrame_of_load hload
  rw [routerInfoFree_new] at hfree
  cases hfree

theorem countP_misses {ctx : RouterContext} {ticks : List (CString → Option InFile)}
    (hnone : ∀ fopen ∈ ticks, (wantedFile ctx).bind fopen = none) :
    ticks.countP (misses ctx) = if (wantedFile ctx).isSome then ticks.length else 0 := by
  cases hwanted : wantedFile ctx with
  | none => simp [misses, hwanted]
  | some path =>
      rw [Option.isSome_some, if_pos rfl, List.countP_eq_length]
      intro fopen hfopen
      have hmissing := hnone fopen hfopen
      rw [hwanted, Option.bind_some] at hmissing
      simp [misses, hwanted, hmissing]

/-- A run of ticks comes to an end exactly where no tick finds the file that it
has to open; then every tick that has one to open loses a router info. -/
theorem handleTicks_streams_iff (digest : List Byte → List.Vector Byte 32)
    (code : SignatureCode (List.Vector Byte 32)) (ctx : RouterContext)
    (ticks : List (CString → Option InFile)) (state state' : Bootstrapping) :
    (∃ fuel, handleTicks (InfoStreams.routerInfoLoad fuel routerInfoNew) digest code ctx ticks
        state = .ok state') ↔
      (∀ fopen ∈ ticks, (wantedFile ctx).bind fopen = none) ∧
      state' = state.loseAll (if (wantedFile ctx).isSome then ticks.length else 0) := by
  simp only [handleTicks_eq_ok_iff leavesUnfilled_streams, Passes, not_discards_streams]
  rw [exists_const]
  simp only [imp_false, ← Option.eq_none_iff_forall_ne_some]
  exact and_congr_right fun hnone => by rw [countP_misses hnone]

end Streams

end I2pLite.Ticks
