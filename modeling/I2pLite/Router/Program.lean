import I2pLite.Identity.WrittenKeys
import I2pLite.Netdb.Free
import I2pLite.Router.AllOrNothing
import I2pLite.Router.FirstStart
import I2pLite.Router.Ticks

/-!
# The program

`main` from the command line to its end.  What it does is given by what it finds:
its arguments, the environment, the files, and the operations that succeed.  It
never comes to the point where the router is run, and where it makes its own
keys it does not come to an end at all.
-/

namespace I2pLite.Program

open I2pLite.CRun
open I2pLite.CBytes
open I2pLite.Stdio
open I2pLite.Pieces
open I2pLite.FileSystem
open I2pLite.PathBuffer
open I2pLite.Identity
open I2pLite.Keys
open I2pLite.KeysReload
open I2pLite.KeyFileFails
open I2pLite.WrittenKeys
open I2pLite.Ri
open I2pLite.Hashmap
open I2pLite.Netdb (mnetNetdbNew)
open I2pLite.Context
open I2pLite.AllOrNothing
open I2pLite.ContextStreams
open I2pLite.Config
open I2pLite.ConfigLines
open I2pLite.Main
open I2pLite.Settings
open I2pLite.FirstStart
open I2pLite.Ticks (handleTicks)

/-! ## The command line -/

/-- What `getopt` delivers in turn; an option with an argument comes with the
last element that has been scanned. -/
inductive Opt
  | help
  | file (scanned : CString)
  | verbose
  | bootstrap (scanned : CString)
  | unknown

/-- The options of the command line, and where `getopt` has stopped. -/
structure CommandLine where
  opts : List Opt
  argc : ℕ
  optind : ℕ

/-- The variables that the options set. -/
structure Options where
  configfile : Option CString
  bootstrap : Option CString
  loglevel : ℤ

def lDebug : ℤ := 1

def lInfo : ℤ := 2

def defaultOptions : Options where
  configfile := none
  bootstrap := none
  loglevel := lInfo

/-- The loop over the options: what `main` returns at once, or its variables. -/
def readOptions : List Opt → Options → ℤ ⊕ Options
  | [], options => .inr options
  | .help :: _, _ => .inl 1
  | .file scanned :: opts, options => readOptions opts { options with configfile := some scanned }
  | .verbose :: opts, options => readOptions opts { options with loglevel := lDebug }
  | .bootstrap scanned :: opts, options =>
      readOptions opts { options with bootstrap := some scanned }
  | .unknown :: _, _ => .inl 1

def dotMnetConf : CString := ofBuffer (".mnet.conf".toList.map ch)

def mnetConf : CString := ofBuffer ("mnet.conf".toList.map ch)

def configPath (options : Options) (env : Environment) : Run CString :=
  match options.configfile with
  | some path => .ok path
  | none =>
      match env.home with
      | some home => pathJoin home [dotMnetConf]
      | none => pathJoin dot [mnetConf]

/-! ## The self-test -/

/-- What libsodium delivers. -/
structure Sodium where
  init : ℤ
  sign : EddsaSign → List Byte → EddsaSig
  verify : EddsaPubkey → List Byte → EddsaSig → Bool

/-- The test signs what `mnet_rand` delivers with keys that it makes. -/
def eddsaTest (code : EddsaCode) (sodium : Sodium) (rand : List.Vector Byte 32)
    (data : List.Vector Byte 1024) : ℤ :=
  let (priv, pub) := eddsaKeygen code rand
  let sig := sodium.sign (eddsaSignNew code priv) data.toList
  if sodium.verify pub data.toList sig then 1 else 0

def mnetCryptoInit (code : EddsaCode) (sodium : Sodium) (rand : List.Vector Byte 32)
    (data : List.Vector Byte 1024) (cfg : MnetCryptoConfig) : ℤ :=
  if sodium.init = -1 then 0
  else if cfg.sanityCheck ≠ 0 ∧ eddsaTest code sodium rand data = 0 then 0
  else 1

/-! ## The router -/

def routerInfoFile : CString := ofBuffer ("router.info".toList.map ch)

def routerKeysFile : CString := ofBuffer ("router.keys".toList.map ch)

def nodesDir : CString := ofBuffer ("nodes".toList.map ch)

/-- The paths of both files are joined, and the files are found under them. -/
def routerContextNewIn (datadir : CString) : Run RouterContext := do
  let _ ← pathJoin datadir [routerInfoFile]
  let _ ← pathJoin datadir [routerKeysFile]
  let dir ← pathJoin datadir [nodesDir]
  .ok (routerContextNew dir)

/-- Neither the keys nor the router info are released. -/
def routerContextFree (ctx : RouterContext) : Run Unit := do
  let _ ← NetdbFree.netdbHashmapFree (fun ri _ => routerInfoFree ri) ctx.netdb.map ()
  .ok ()

/-! ## `main` -/

/-- All that a run of `main` finds, and what is below it. -/
structure World where
  codecs : Codecs
  signatures : SignatureCode (List.Vector Byte 32)
  sodium : Sodium
  testRand : List.Vector Byte 32
  testData : List.Vector Byte 1024
  now : UInt64
  env : Environment
  configFiles : CString → ConfigFile
  dataDirs : CString → DataDir
  operations : CString → Operations
  /-- the files of every tick that the event loop delivers before it ends -/
  ticks : List (CString → Option InFile)

/-- What `main` returns, and whether the router has been run. -/
structure Exit where
  code : ℤ
  ran : Bool

/-- `main` up to `router_context_new`: the code it returns, or its state. -/
def mainSetup (world : World) (line : CommandLine) : Run (ℤ ⊕ MainState) :=
  match readOptions line.opts defaultOptions with
  | .inl ret => .ok (.inl ret)
  | .inr options =>
      if line.argc ≤ line.optind ∧ options.configfile.isNone ∧ 1 < line.argc ∧
          options.loglevel ≠ lDebug then
        .ok (.inl (-1))
      else do
        let path ← configPath options world.env
        match ← mainStart (world.configFiles path) world.now world.env options.loglevel with
        | .inl ret => .ok (.inl ret)
        | .inr state =>
            if mnetCryptoInit world.codecs.eddsa world.sodium world.testRand world.testData
                state.config.crypto = 0 then
              .ok (.inl 1)
            else .ok (.inr state)

/-- The event loop.  The argument of `-b` does not reach the context. -/
def routerContextRun (fuel : ℕ) (world : World) (ctx : RouterContext) : Run Unit := do
  let _ ← handleTicks (InfoStreams.routerInfoLoad fuel routerInfoNew) world.codecs.digest
    world.signatures { netdb := ctx.netdb, bootstrap := none } world.ticks
    { tried := [], lost := [] }
  .ok ()

def mainRouter (fuel : ℕ) (world : World) (state : MainState) : Run Exit := do
  let datadir ← deref state.config.router.datadir
  let ctx ← routerContextNewIn datadir
  let (ret, ctx) ← routerContextLoad fuel world.codecs (world.operations datadir) ctx
    (world.dataDirs datadir)
  if ret ≠ 0 then
    routerContextRun fuel world ctx
    routerContextFree ctx
    .ok { code := 0, ran := true }
  else
    routerContextFree ctx
    .ok { code := 0, ran := false }

def main (fuel : ℕ) (world : World) (line : CommandLine) : Run Exit := do
  match ← mainSetup world line with
  | .inl ret => .ok { code := ret, ran := false }
  | .inr state => mainRouter fuel world state

/-! ## When `main` comes to an end -/

section Ends

variable {world : World} {line : CommandLine} {state : MainState} {exit : Exit}

/-- A netdb that has just been made is released. -/
theorem routerContextFree_new {ctx : RouterContext} {dir : CString}
    (hnetdb : ctx.netdb = mnetNetdbNew dir) : routerContextFree ctx = .ok () := by
  have hinv := FirstWins.inv_init fun _ : RouterInfo => (.replicate 32 0 : IdentHash)
  rw [routerContextFree, hnetdb, mnetNetdbNew, NetdbFree.netdbHashmapFree_eq hinv]
  rfl

/-- The router of this state gives up its load. -/
def RouterGivesUp (world : World) (state : MainState) : Prop :=
  ∃ datadir ctx, state.config.router.datadir = some datadir ∧
    routerContextNewIn datadir = .ok ctx ∧
    GivesUp world.codecs (world.operations datadir) (world.dataDirs datadir)

theorem exists_of_routerContextNewIn {datadir : CString} {ctx : RouterContext}
    (hnew : routerContextNewIn datadir = .ok ctx) : ∃ dir, ctx = routerContextNew dir := by
  obtain ⟨_, _, hnew⟩ := bind_eq_ok.mp hnew
  obtain ⟨_, _, hnew⟩ := bind_eq_ok.mp hnew
  obtain ⟨dir, _, hresult⟩ := bind_eq_ok.mp hnew
  exact ⟨dir, (Except.ok.inj hresult).symm⟩

theorem exists_routerContextNewIn {datadir : CString} (hpos : 0 < strlen datadir)
    (hshort : strlen datadir ≤ 255) : ∃ ctx, routerContextNewIn datadir = .ok ctx := by
  have hjoins : ∀ part : CString, strlen part < 2 ^ 30 →
      ∃ path, pathJoin datadir [part] = .ok path := by
    intro part hpart
    have hslash := strlen_slash datadir part
    obtain ⟨path, hpath, _⟩ := @exists_pathJoin datadir [part]
      ⟨hpos, by omega, by omega, by omega, trivial⟩
    exact ⟨path, hpath⟩
  obtain ⟨_, hinfo⟩ := hjoins routerInfoFile (by decide)
  obtain ⟨_, hkeys⟩ := hjoins routerKeysFile (by decide)
  obtain ⟨dir, hnodes⟩ := hjoins nodesDir (by decide)
  rw [routerContextNewIn, hinfo, ok_bind, hkeys, ok_bind, hnodes]
  exact ⟨_, rfl⟩

theorem mainRouter_iff (world : World) (state : MainState) (exit : Exit) :
    (∃ fuel, mainRouter fuel world state = .ok exit) ↔
      RouterGivesUp world state ∧ exit = { code := 0, ran := false } := by
  constructor
  · rintro ⟨fuel, hrun⟩
    obtain ⟨datadir, hdatadir, hrun⟩ := bind_eq_ok.mp hrun
    obtain ⟨ctx, hnew, hrun⟩ := bind_eq_ok.mp hrun
    obtain ⟨⟨ret, loaded⟩, hload, hrun⟩ := bind_eq_ok.mp hrun
    obtain ⟨dir, rfl⟩ := exists_of_routerContextNewIn hnew
    obtain ⟨rfl, hnetdb, hgivesUp⟩ := givesUp_of_load hload
    dsimp only at hrun
    rw [if_neg (by simp), routerContextFree_new hnetdb] at hrun
    exact ⟨⟨datadir, _, deref_eq_ok.mp hdatadir, hnew, hgivesUp⟩, (Except.ok.inj hrun).symm⟩
  · rintro ⟨⟨datadir, ctx, hdatadir, hnew, hgivesUp⟩, rfl⟩
    obtain ⟨dir, rfl⟩ := exists_of_routerContextNewIn hnew
    obtain ⟨fuel, loaded, hload⟩ := exists_load_of_givesUp dir hgivesUp
    obtain ⟨_, hnetdb, _⟩ := givesUp_of_load hload
    refine ⟨fuel, ?_⟩
    rw [mainRouter, hdatadir, deref_some, ok_bind, hnew, ok_bind, hload, ok_bind]
    dsimp only
    rw [if_neg (by simp), routerContextFree_new hnetdb]
    rfl

/-- `main` comes to an end exactly where its setup fails, or where the router
gives up its load; it has never run the router then. -/
theorem main_iff (world : World) (line : CommandLine) (exit : Exit) :
    (∃ fuel, main fuel world line = .ok exit) ↔
      (∃ ret, mainSetup world line = .ok (.inl ret) ∧ exit = { code := ret, ran := false }) ∨
      ∃ state, mainSetup world line = .ok (.inr state) ∧ RouterGivesUp world state ∧
        exit = { code := 0, ran := false } := by
  cases hsetup : mainSetup world line with
  | error fault =>
      have hmain : ∀ fuel, main fuel world line = .error fault := fun fuel => by
        rw [main, hsetup]
        rfl
      simp [hmain]
  | ok outcome =>
      cases outcome with
      | inl ret =>
          have hmain : ∀ fuel, main fuel world line = .ok { code := ret, ran := false } :=
            fun fuel => by
              rw [main, hsetup]
              rfl
          simp [hmain, eq_comm]
      | inr state =>
          have hmain : ∀ fuel, main fuel world line = mainRouter fuel world state :=
            fun fuel => by
              rw [main, hsetup]
              rfl
          simp [hmain, mainRouter_iff]

end Ends

/-! ## A first start -/

/-- A call for new keys writes them to a new file that takes every byte. -/
def WritesThrough (regeneration : Regeneration) : Prop :=
  ∀ obj file, regeneration.write obj = some file → ∃ fuel f f', f.NeverFails ∧ f.bytes = [] ∧
    writeTo fuel f obj = some f' ∧ file = f'.bytes

/-- A data directory without keys, in which keys and a router info can be made. -/
structure StartsAnew (codecs : Codecs) (ops : Operations) (dir : DataDir) : Prop where
  dataDir : (ops.findsDataDir || ops.makesDataDir) = true
  missing : ops.findsKeys = false
  writesFirst : WritesThrough ops.regeneration
  writesSecond : WritesThrough ops.secondRegeneration
  opened : keysOpened codecs.eddsa ops dir ≠ none
  createsInfo : ops.createsInfo = true

section First

variable {codecs : Codecs} {ops : Operations} {dir : DataDir}

theorem exists_bytes_of_writtenKeys {regeneration : Regeneration} {code : EddsaCode}
    {k : MnetIdentityKeys} {file : List Byte} (hthrough : WritesThrough regeneration)
    (hwritten : writtenKeys code regeneration = some (k, file)) :
    ∃ rest, file = certOpening ++ rest := by
  rw [writtenKeys, Option.ite_none_right_eq_some, Option.map_eq_some_iff] at hwritten
  obtain ⟨_, written, hwrite, hpair⟩ := hwritten
  obtain ⟨_, rfl⟩ := Prod.mk.inj hpair
  obtain ⟨fuel, f, f', hnever, hempty, hfile, rfl⟩ := hthrough _ _ hwrite
  exact exists_bytes_of_writeTo hnever hempty hfile

/-- The keys that were made are read as none, and there is no identity for the
router info that is written next. -/
theorem routerContextLoad_anew (nodes : CString) (hanew : StartsAnew codecs ops dir) :
    ∃ bound, ∀ fuel, bound ≤ fuel →
      routerContextLoad fuel codecs ops (routerContextNew nodes) dir = .error .nullDeref := by
  have hopened := hanew.opened
  rw [keysOpened, hanew.missing, if_neg Bool.false_ne_true] at hopened
  have hopens : ops.opensKeys = true := by
    by_contra hcloses
    rw [openForReading, if_neg hcloses] at hopened
    exact hopened rfl
  rw [openForReading, if_pos hopens, ne_eq, Option.map_eq_none_iff] at hopened
  obtain ⟨⟨k, file⟩, hkeys⟩ := Option.ne_none_iff_exists'.mp hopened
  obtain ⟨rest, rfl⟩ : ∃ rest, file = certOpening ++ rest := by
    have hwritten := hkeys
    rw [regeneratedKeys, Option.or_eq_some_iff] at hwritten
    rcases hwritten with hfirst | ⟨_, hsecond⟩
    · exact exists_bytes_of_writtenKeys hanew.writesFirst hfirst
    · exact exists_bytes_of_writtenKeys hanew.writesSecond hsecond
  obtain ⟨left, hensure⟩ :=
    @ensureKeys_of_missing codecs ops (routerContextNew nodes) dir hanew.missing
  obtain ⟨bound, hread⟩ := exists_bound_read_certOpening codecs.eddsa mnetIdentityKeysNew rest
  refine ⟨bound, fun fuel hfuel => ?_⟩
  rw [routerContextLoad, hanew.dataDir, if_pos rfl, hensure, hkeys]
  dsimp only
  rw [ok_bind]
  dsimp only
  rw [if_neg one_ne_zero, loadFiles, loadKeys, openForReading,
    if_pos hopens]
  dsimp only
  rw [hread fuel hfuel, ok_bind]
  dsimp only
  rw [if_pos (by decide), routerContextUpdateRouterInfo, hanew.createsInfo]
  rfl

end First

/-- Where the program makes its own keys and could make its router info, a run
of `main` follows a null pointer. -/
theorem main_anew {world : World} {line : CommandLine} {state : MainState} {datadir : CString}
    {ctx : RouterContext} (hsetup : mainSetup world line = .ok (.inr state))
    (hdatadir : state.config.router.datadir = some datadir)
    (hnew : routerContextNewIn datadir = .ok ctx)
    (hanew : StartsAnew world.codecs (world.operations datadir) (world.dataDirs datadir)) :
    ∃ bound, ∀ fuel, bound ≤ fuel → main fuel world line = .error .nullDeref := by
  obtain ⟨dir, rfl⟩ := exists_of_routerContextNewIn hnew
  obtain ⟨bound, hload⟩ := routerContextLoad_anew dir hanew
  refine ⟨bound, fun fuel hfuel => ?_⟩
  rw [main, hsetup, ok_bind]
  dsimp only
  rw [mainRouter, hdatadir, deref_some, ok_bind, hnew, ok_bind, hload fuel hfuel]
  rfl

/-! ## A machine that has never run it -/

/-- A new file takes every byte of the keys. -/
def throughRegeneration : Regeneration where
  rand := zeroSeed
  opens := true
  write := fun obj => (writeTo 4 { fails := fun _ => none } obj).map OutFile.bytes
  remains := []

theorem writesThrough_throughRegeneration : WritesThrough throughRegeneration := by
  intro obj file hwrite
  obtain ⟨f', hfile, hbytes⟩ := Option.map_eq_some_iff.mp hwrite
  exact ⟨4, { fails := fun _ => none }, f', fun _ => rfl, rfl, hfile, hbytes.symm⟩

/-- There is an empty configuration file, and everything can be made. -/
def anewWorld : World where
  codecs := zeroCodecs
  signatures := Verify.plainScheme.code
  sodium := { init := 0, sign := fun _ _ => .replicate 64 0, verify := fun _ _ _ => true }
  testRand := .replicate 32 0
  testData := .replicate 1024 0
  now := 0
  env := homeEnvironment
  configFiles := fun _ => { content := some [], created := none, readable := true }
  dataDirs := fun _ => { emptyKeys with routerKeys := none }
  operations := fun _ => { keysOnly with
    findsKeys := false
    regeneration := throughRegeneration
    secondRegeneration := throughRegeneration
    createsInfo := true }
  ticks := []

def homeDatadir : CString := slash (ofBuffer [ch '/', ch 'h']) dotMnet

theorem mainSetup_anewWorld :
    mainSetup anewWorld { opts := [], argc := 1, optind := 1 } =
      .ok (.inr { config := ⟨⟨some homeDatadir⟩, ⟨1⟩⟩, logLevel := 2 }) := by
  obtain ⟨path, hpath, _⟩ := @exists_pathJoin (ofBuffer [ch '/', ch 'h']) [dotMnetConf]
    ⟨by decide, by decide, by decide, by decide, trivial⟩
  have hdefault : defaultDatadir homeEnvironment none = .ok (some homeDatadir) :=
    (defaultDatadir_home_iff rfl rfl).mpr ⟨by decide, by decide⟩
  have hconfig : mainConfig (some []) homeEnvironment 2 =
      .ok (some { config := ⟨⟨some homeDatadir⟩, ⟨1⟩⟩, logLevel := 2 }) := by
    have hloaded : mnetConfigLoad (some []) = .ok (1, { list := [], size := 0 }) := by
      rw [mnetConfigLoad_eq, readsOf, pieces_nil]
      rfl
    have hsettled := forEach_iterConfigMain [] 0 2
    rw [List.reverse_nil] at hsettled
    rw [mainConfig, hloaded, ok_bind]
    dsimp only
    rw [if_neg one_ne_zero, hsettled, ok_bind, show (settled [] 2).config.router.datadir = none from
      rfl, hdefault]
    rfl
  rw [mainSetup, readOptions]
  dsimp only
  rw [if_neg (by simp), configPath, show defaultOptions.configfile = none from rfl]
  dsimp only
  rw [show anewWorld.env.home = some (ofBuffer [ch '/', ch 'h']) from rfl]
  dsimp only
  rw [hpath, ok_bind, mainStart, show (anewWorld.configFiles path).content = some [] from rfl]
  dsimp only
  rw [show (anewWorld.configFiles path).readable = true from rfl, if_pos rfl,
    show anewWorld.env = homeEnvironment from rfl, show defaultOptions.loglevel = 2 from rfl,
    hconfig, ok_bind]
  rfl

theorem startsAnew_anewWorld :
    StartsAnew anewWorld.codecs (anewWorld.operations homeDatadir)
      (anewWorld.dataDirs homeDatadir) where
  dataDir := rfl
  missing := rfl
  writesFirst := writesThrough_throughRegeneration
  writesSecond := writesThrough_throughRegeneration
  opened := by
    rw [← Option.isSome_iff_ne_none]
    rfl
  createsInfo := rfl

theorem main_anew_anewWorld :
    ∃ bound, ∀ fuel, bound ≤ fuel →
      main fuel anewWorld { opts := [], argc := 1, optind := 1 } = .error .nullDeref := by
  obtain ⟨ctx, hnew⟩ := @exists_routerContextNewIn homeDatadir (by decide) (by decide)
  exact main_anew mainSetup_anewWorld rfl hnew startsAnew_anewWorld

end I2pLite.Program
