import I2pLite.Router.ContextStreams

/-!
# All or nothing

A load that gets as far as the keys reads ones that are not there, or faults.
What it returns behind that is neither all nor nothing.
-/

namespace I2pLite.AllOrNothing

open I2pLite.CBytes
open I2pLite.Identity
open I2pLite.Keys
open I2pLite.KeysReload
open I2pLite.Ri
open I2pLite.Hashmap
open I2pLite.Netdb
open I2pLite.LoadAll
open I2pLite.FlushLoad
open I2pLite.Context
open I2pLite.ContextStreams

/-! ## What a load is to do -/

/-- What is behind a load that returns 1. -/
def LoadsAll (digest : List Byte → IdentHash) (ctx : RouterContext) : Prop :=
  ∃ k ri ident pub hash, ctx.privkeys = some k ∧ k.eddsa ≠ none ∧ ctx.ourRi = .live ri ∧
    ri.identity = some ident ∧ mnetIdentityKeysToPublic k = some pub ∧
    mnetIdentityHash digest ident = .ok hash ∧ mnetIdentityHash digest pub = .ok hash

/-- What is behind a load that returns 0. -/
def LoadsNothing (ctx : RouterContext) : Prop := ctx.privkeys = none ∧ ctx.ourRi = .null

/-- What is to hold of what a load returns. -/
def Whole (digest : List Byte → IdentHash) (ret : ℤ) (ctx : RouterContext) : Prop :=
  ret = 1 ∧ LoadsAll digest ctx ∨ ret = 0 ∧ LoadsNothing ctx

/-- A load returns 1 with everything, or 0 with nothing. -/
def LoadsAllOrNothing (codecs : Codecs) (ops : Operations) (nodes : CString) (dir : DataDir) :
    Prop :=
  ∃ fuel ret ctx, routerContextLoad fuel codecs ops (routerContextNew nodes) dir = .ok (ret, ctx) ∧
    Whole codecs.digest ret ctx

/-! ## When it does -/

section Load

variable {codecs : Codecs} {ops : Operations} {nodes : CString} {dir : DataDir} {ret : ℤ}
variable {ctx : RouterContext}

/-- A load that stops late leaves keys, or a router info. -/
theorem not_whole_of_stopsLate {digest : List Byte → IdentHash}
    (hstops : StopsLate codecs ops dir ctx) : ¬ Whole digest 0 ctx := by
  rintro (⟨hret, _⟩ | ⟨_, hnokeys, hnull⟩)
  · cases hret
  · rcases hstops with ⟨_, ⟨_, _, _, hkeys⟩ | ⟨_, _, _, _, _, hri⟩⟩
    · exact hkeys hnokeys
    · exact hri hnull

/-- No load that stops late is one that stops early. -/
theorem not_stopsEarly_of_stopsLate (hlate : StopsLate codecs ops dir ctx) :
    ¬ StopsEarly codecs ops dir := by
  obtain ⟨hdir, hlate⟩ := hlate
  rintro (hnone | ⟨hmissing, hnone⟩ | ⟨hfinds, hclosed⟩ | ⟨file, hopen, hreads⟩)
  · rw [hdir] at hnone
    cases hnone
  · rcases hlate with ⟨_, hmade, _⟩ | ⟨other, hother, _⟩
    · exact hmade hnone
    · rw [keysOpened_of_missing hmissing hnone] at hother
      cases hother
  · rcases hlate with ⟨hmissing, _⟩ | ⟨other, hother, _⟩
    · rw [hfinds] at hmissing
      cases hmissing
    · rw [hclosed] at hother
      cases hother
  · rcases hlate with ⟨_, _, hclosed, _⟩ | ⟨other, hother, hunread, _⟩
    · rw [hclosed] at hopen
      cases hopen
    · obtain rfl := Option.some.inj (hopen.symm.trans hother)
      cases hreads.unique hunread

theorem whole_iff_of_load {fuel : ℕ}
    (hload : routerContextLoad fuel codecs ops (routerContextNew nodes) dir = .ok (ret, ctx)) :
    Whole codecs.digest ret ctx ↔ StopsEarly codecs ops dir := by
  obtain ⟨rfl, _, ⟨hstops, rfl⟩ | hstops⟩ := load_cases hload
  · exact iff_of_true (Or.inr ⟨rfl, rfl, rfl⟩) hstops
  · exact iff_of_false (not_whole_of_stopsLate hstops) (not_stopsEarly_of_stopsLate hstops)

end Load

/-- A load returns 1 with a signer, a router info and equal hashes, or 0 with
neither keys nor router info, exactly where it does not get as far as keys: what
is read has no private key, and keys that cannot be read count as read.  Of the
loads that return, no others are right. -/
theorem loadsAllOrNothing_iff (codecs : Codecs) (ops : Operations) (nodes : CString)
    (dir : DataDir) :
    (LoadsAllOrNothing codecs ops nodes dir ↔ StopsEarly codecs ops dir) ∧
      ∀ fuel ret ctx, routerContextLoad fuel codecs ops (routerContextNew nodes) dir =
        .ok (ret, ctx) → (Whole codecs.digest ret ctx ↔ StopsEarly codecs ops dir) := by
  refine ⟨⟨?_, fun hstops => ?_⟩, fun fuel ret ctx => whole_iff_of_load⟩
  · rintro ⟨fuel, ret, ctx, hload, hwhole⟩
    exact (whole_iff_of_load hload).mp hwhole
  · obtain ⟨fuel, ctx, hload⟩ := exists_load_of_givesUp nodes (givesUp_of_stopsEarly hstops)
    exact ⟨fuel, 0, ctx, hload, (whole_iff_of_load hload).mpr hstops⟩

/-! ## An empty file of keys -/

def zeroCodecs : Codecs where
  eddsa := zeroCode
  digest := fun _ => zeros

def noRegeneration : Regeneration where
  rand := zeroSeed
  opens := false
  write := fun _ => none
  remains := []

/-- The file of keys can be read, and the router info can not be written. -/
def keysOnly : Operations where
  findsDataDir := true
  makesDataDir := true
  findsKeys := true
  regeneration := noRegeneration
  deletesKeys := true
  secondRegeneration := noRegeneration
  opensKeys := true
  createsInfo := false
  opensInfo := true
  directories := { opendir := fun _ => .opened, mkdir := fun _ => true }

def emptyKeys : DataDir where
  routerKeys := some []
  routerInfo := none
  nodes := emptyFileTree
  readdir := emptyFileNames

/-- An empty file of keys counts as read; where the router info can not be
written the load returns 0 with one in the context. -/
theorem not_loadsAllOrNothing_emptyKeys :
    (∃ fuel ctx, routerContextLoad fuel zeroCodecs keysOnly (routerContextNew nodesDir) emptyKeys =
        .ok (0, ctx) ∧ ctx.ourRi = .live routerInfoNew) ∧
      ¬ LoadsAllOrNothing zeroCodecs keysOnly nodesDir emptyKeys := by
  have hunread : ReadsKeysAs [] (-1) := ⟨.bad, [], .eof, rfl, rfl⟩
  have hrun : routerContextLoad 1 zeroCodecs keysOnly (routerContextNew nodesDir) emptyKeys =
      .ok (0, { netdb := mnetNetdbNew nodesDir, privkeys := none, ourRi := .live routerInfoNew }) :=
    rfl
  refine ⟨⟨1, _, hrun, rfl⟩, ?_⟩
  rintro ⟨fuel, ret, ctx, hload, hwhole⟩
  rcases (whole_iff_of_load hload).mp hwhole with hdir | ⟨hmissing, _⟩ | ⟨_, hclosed⟩ |
    ⟨file, hopen, hreads⟩
  · cases hdir
  · cases hmissing
  · cases hclosed
  · obtain rfl : [] = file := Option.some.inj hopen
    cases hreads.unique hunread

end I2pLite.AllOrNothing
