import I2pLite.Config.Lines
import I2pLite.Core.Memory
import I2pLite.Core.Numeral
import I2pLite.Netdb.PathBuffer

/-!
# The data directory of the router

The program takes its settings from the entries of the configuration file, and
what they leave open from its environment.  What it hands to
`router_context_new` is the configuration that comes of this.
-/

namespace I2pLite.Main

open I2pLite.CRun
open I2pLite.CBytes
open I2pLite.Numeral
open I2pLite.Stdio
open I2pLite.Memory
open I2pLite.FileSystem
open I2pLite.PathBuffer
open I2pLite.Config

/-! ## The code -/

def mnetConfigCryptoCheck : CString := ofBuffer ("mnet.crypto.check".toList.map ch)

def mnetConfigLogLevel : CString := ofBuffer ("mnet.log.level".toList.map ch)

def mnetConfigRouterDir : CString := ofBuffer ("mnet.router.dir".toList.map ch)

/-- `struct router_context_config`; the entries of a file do not reach the other
fields. -/
structure RouterContextConfig where
  datadir : Option CString

structure MnetCryptoConfig where
  sanityCheck : ℤ

/-- `struct main_config`. -/
structure MainConfig where
  router : RouterContextConfig
  crypto : MnetCryptoConfig

def defaultRouterContextConfig : RouterContextConfig where
  datadir := none

def defaultCryptoConfig : MnetCryptoConfig where
  sanityCheck := 1

/-- The configuration of `main`, and the level of the log. -/
structure MainState where
  config : MainConfig
  logLevel : ℤ

def mnetLogSetLevel (state : MainState) (level : ℤ) : MainState :=
  { state with logLevel := level }

def setSanityCheck (state : MainState) (check : ℤ) : MainState :=
  { state with config := { state.config with crypto := { sanityCheck := check } } }

def setDatadir (state : MainState) (datadir : Option CString) : MainState :=
  { state with config := { state.config with router := { datadir := datadir } } }

/-- The entry of the self-test. -/
def iterCryptoCheck (k v : CString) (state : MainState) : MainState :=
  if strcmp k mnetConfigCryptoCheck = 0 then
    setSanityCheck state (if strcmp v (ofBuffer [ch '1']) = 0 then 1 else 0)
  else state

/-- The entry of the log. -/
def iterLogLevel (k v : CString) (state : MainState) : Run MainState :=
  if strcmp k mnetConfigLogLevel = 0 then do
    let level ← atoi (v.bytes ++ [0])
    .ok (mnetLogSetLevel state level)
  else .ok state

def iterConfigMain (k v : CString) (state : MainState) : Run MainState := do
  let state ← iterLogLevel k v (iterCryptoCheck k v state)
  if strcmp k mnetConfigRouterDir = 0 then .ok (setDatadir state (some k))
  else .ok state

def dotMnet : CString := ofBuffer (".mnet".toList.map ch)

/-- The variables that `main` asks for. -/
structure Environment where
  mnetRoot : Option CString
  home : Option CString

/-- `memcpy` over the bytes of an allocated string. -/
def memcpy (dest : Option CString) (src : CString) (count : ℕ) : Run (Option CString) :=
  if count = 0 then .ok dest
  else do
    let string ← deref dest
    let buffer ← store (string.bytes ++ [0]) 0 (src.bytes.take count)
    .ok (some (ofBuffer buffer))

/-- What `%s` writes for a null pointer. -/
def nullText : CString := ofBuffer ("(null)".toList.map ch)

/-- What `main` does where no entry has set the data directory. -/
def defaultDatadir (env : Environment) (datadir : Option CString) : Run (Option CString) :=
  if datadir = none then
    match env.mnetRoot with
    | some dir =>
        let dlen := strlen dir
        if dlen < 256 then memcpy datadir dir dlen else .ok datadir
    | none => do
        let joined ← pathJoin (env.home.getD nullText) [dotMnet]
        .ok (some joined)
  else .ok datadir

/-- `main` from the load of its configuration file to `router_context_new`: none
where the file is not accepted. -/
def mainConfig (file : Option InFile) (env : Environment) (loglevel : ℤ) :
    Run (Option MainState) := do
  let (loaded, cfg) ← mnetConfigLoad file
  if loaded = 0 then .ok none
  else do
    let state := { config := ⟨defaultRouterContextConfig, defaultCryptoConfig⟩,
                   logLevel := loglevel }
    let state ← mnetConfigForEach cfg iterConfigMain state
    let datadir ← defaultDatadir env state.config.router.datadir
    .ok (some (setDatadir state datadir))

/-! ## Entries -/

theorem router_iterCryptoCheck (k v : CString) (state : MainState) :
    (iterCryptoCheck k v state).config.router = state.config.router := by
  rw [iterCryptoCheck]
  split_ifs <;> rfl

theorem exists_iterLogLevel (k v : CString) (state : MainState) :
    ∃ state', iterLogLevel k v state = .ok state' ∧ state'.config = state.config := by
  rw [iterLogLevel]
  by_cases hkey : strcmp k mnetConfigLogLevel = 0
  · rw [if_pos hkey, atoi_string]
    exact ⟨_, rfl, rfl⟩
  · rw [if_neg hkey]
    exact ⟨state, rfl, rfl⟩

/-- Only the entry of the data directory sets it, and to its own name. -/
theorem exists_iterConfigMain (k v : CString) (state : MainState) :
    ∃ state', iterConfigMain k v state = .ok state' ∧
      state'.config.router.datadir =
        if k = mnetConfigRouterDir then some mnetConfigRouterDir
        else state.config.router.datadir := by
  obtain ⟨middle, hlog, hmiddle⟩ := exists_iterLogLevel k v (iterCryptoCheck k v state)
  rw [iterConfigMain, hlog, ok_bind]
  by_cases hkey : k = mnetConfigRouterDir
  · subst hkey
    rw [if_pos (strcmp_eq_zero_iff.mpr rfl), if_pos rfl]
    exact ⟨_, rfl, rfl⟩
  · rw [if_neg (strcmp_eq_zero_iff.not.mpr hkey), if_neg hkey]
    refine ⟨middle, rfl, ?_⟩
    rw [hmiddle, router_iterCryptoCheck]

/-- The entries of a file leave the data directory alone, or set it to the name
of its entry. -/
theorem exists_forEach_iterConfigMain (entries : List MnetConfigEntry) (size : ℕ)
    (state : MainState) :
    ∃ state', mnetConfigForEach { list := entries, size := size } iterConfigMain state =
        .ok state' ∧
      state'.config.router.datadir =
        if ∃ entry ∈ entries, entry.name = mnetConfigRouterDir then some mnetConfigRouterDir
        else state.config.router.datadir := by
  induction entries generalizing state with
  | nil => exact ⟨state, rfl, by simp⟩
  | cons entry entries ih =>
      obtain ⟨middle, hstep, hmiddle⟩ := exists_iterConfigMain entry.name entry.value state
      obtain ⟨state', hrest, hstate'⟩ := ih middle
      refine ⟨state', ?_, ?_⟩
      · rw [mnetConfigForEach, List.foldlM_cons, hstep, ok_bind]
        exact hrest
      · rw [hstate', hmiddle]
        by_cases hlater : ∃ other ∈ entries, other.name = mnetConfigRouterDir
        · obtain ⟨other, hother, hname⟩ := hlater
          rw [if_pos ⟨other, hother, hname⟩, if_pos ⟨other, by simp [hother], hname⟩]
        · rw [if_neg hlater]
          by_cases hhere : entry.name = mnetConfigRouterDir
          · rw [if_pos hhere, if_pos ⟨entry, by simp, hhere⟩]
          · rw [if_neg hhere, if_neg]
            rintro ⟨other, hother, hname⟩
            rcases List.mem_cons.mp hother with rfl | hother
            · exact hhere hname
            · exact hlater ⟨other, hother, hname⟩

/-! ## The environment -/

section Environment

variable {env : Environment} {home dir joined : CString}

theorem strlen_slash_dotMnet (home : CString) : strlen (slash home dotMnet) = strlen home + 6 := by
  rw [strlen_slash_eq]
  rfl

/-- All of the joined path fits into the buffer. -/
theorem pathJoin_dotMnet_iff :
    pathJoin home [dotMnet] = .ok (slash home dotMnet) ↔ 0 < strlen home ∧ strlen home ≤ 249 := by
  have hlength := strlen_slash_dotMnet home
  constructor
  · intro hjoin
    have hfits := pathFits_of_pathJoin hjoin
    obtain ⟨path, hpath, htake⟩ := exists_pathJoin hfits
    obtain rfl := Except.ok.inj (hjoin.symm.trans hpath)
    have hcut : strlen (slash home dotMnet) ≤ 255 := by
      rw [strlen, htake, List.length_take]
      exact Nat.min_le_left _ _
    exact ⟨hfits.1, by omega⟩
  · rintro ⟨hpos, hshort⟩
    have hfits : PathFits home [dotMnet] := ⟨hpos, by omega, by omega, by omega, trivial⟩
    obtain ⟨path, hpath, htake⟩ := exists_pathJoin hfits
    have hwhole : path.bytes = (slash home dotMnet).bytes := by
      rw [htake]
      exact List.take_of_length_le (show strlen (slash home dotMnet) ≤ 255 by omega)
    rw [hpath, ← ofBuffer_bytes path, hwhole, ofBuffer_bytes]

/-- With `MNET_ROOT` no data directory is set: its bytes are copied to a null
pointer, or not at all. -/
theorem defaultDatadir_root (hroot : env.mnetRoot = some dir) :
    defaultDatadir env none ≠ .ok (some joined) := by
  rw [defaultDatadir, if_pos rfl, hroot]
  dsimp only
  split_ifs with hshort
  · rw [memcpy]
    split_ifs
    · simp
    · simp
  · simp

/-- Without `HOME`, too, there is a text in front of the path. -/
theorem defaultDatadir_home_iff (hroot : env.mnetRoot = none)
    (hhome : env.home.getD nullText = home) :
    defaultDatadir env none = .ok (some (slash home dotMnet)) ↔
      0 < strlen home ∧ strlen home ≤ 249 := by
  rw [← pathJoin_dotMnet_iff, defaultDatadir, if_pos rfl, hroot, hhome]
  dsimp only
  constructor
  · intro hrun
    obtain ⟨joined, hjoin, hsome⟩ := bind_eq_ok.mp hrun
    rwa [← Option.some.inj (Except.ok.inj hsome)]
  · intro hjoin
    rw [hjoin, ok_bind]

end Environment

/-! ## The data directory -/

/-- Where the data of the router is to be: as the file says, or `MNET_ROOT`, or
below `HOME`. -/
def dataDirectory (cfg : MnetConfig) (env : Environment) (home : CString) : CString :=
  match cfg.list.find? fun entry => entry.name = mnetConfigRouterDir with
  | some entry => entry.value
  | none =>
      match env.mnetRoot with
      | some dir => if strlen dir < 256 then dir else slash home dotMnet
      | none => slash home dotMnet

/-- The directory of the file has the name of its setting, or nothing is set but
a `HOME` below which the whole path fits into a buffer. -/
def FindsDirectory (cfg : MnetConfig) (env : Environment) (home : CString) : Prop :=
  (∃ entry ∈ cfg.list, entry.name = mnetConfigRouterDir ∧ entry.value = mnetConfigRouterDir) ∨
    (∀ entry ∈ cfg.list, entry.name ≠ mnetConfigRouterDir) ∧ env.mnetRoot = none ∧
      0 < strlen home ∧ strlen home ≤ 249

section Main

variable {f : InFile} {cfg : MnetConfig} {env : Environment} {home dir : CString} {loglevel : ℤ}

/-- What `main` hands over, where its file is accepted. -/
theorem mainConfig_eq_ok_iff (hload : mnetConfigLoad (some f) = .ok (1, cfg)) :
    (∃ state, mainConfig (some f) env loglevel = .ok (some state) ∧
        state.config.router.datadir = some dir) ↔
      defaultDatadir env (if ∃ entry ∈ cfg.list, entry.name = mnetConfigRouterDir
        then some mnetConfigRouterDir else none) = .ok (some dir) := by
  obtain ⟨state, hentries, hdatadir⟩ := exists_forEach_iterConfigMain cfg.list cfg.size
    { config := ⟨defaultRouterContextConfig, defaultCryptoConfig⟩, logLevel := loglevel }
  have hrun : mainConfig (some f) env loglevel =
      defaultDatadir env state.config.router.datadir >>= fun datadir =>
        .ok (some (setDatadir state datadir)) := by
    rw [mainConfig, hload, ok_bind]
    dsimp only
    rw [if_neg one_ne_zero, hentries, ok_bind]
  have hinitial : defaultRouterContextConfig.datadir = none := rfl
  rw [hrun, hdatadir, hinitial]
  constructor
  · rintro ⟨state', hdefault, hdir⟩
    obtain ⟨datadir, hdatadir', hstate⟩ := bind_eq_ok.mp hdefault
    obtain rfl := Option.some.inj (Except.ok.inj hstate)
    rw [hdatadir', ← hdir]
    rfl
  · intro hdefault
    exact ⟨setDatadir state (some dir), by rw [hdefault, ok_bind], rfl⟩

/-- A setting that occurs once is the one that is found. -/
theorem eq_of_countP_le_one {entries : List MnetConfigEntry} {wanted : MnetConfigEntry → Bool}
    {entry found : MnetConfigEntry} (honce : entries.countP wanted ≤ 1)
    (hfound : entries.find? wanted = some found) (hmem : entry ∈ entries)
    (hentry : wanted entry = true) : entry = found := by
  obtain ⟨hwanted, before, after, rfl, _⟩ := List.find?_eq_some_iff_append.mp hfound
  rw [List.countP_append, List.countP_cons_of_pos hwanted] at honce
  rcases List.mem_append.mp hmem with hbefore | hafter
  · have hpos := List.countP_pos_iff.mpr ⟨entry, hbefore, hentry⟩
    omega
  · rcases List.mem_cons.mp hafter with hsame | hafter
    · exact hsame
    · have hpos := List.countP_pos_iff.mpr ⟨entry, hafter, hentry⟩
      omega

/-- The data directory is the right one exactly where the name of the setting is
its value, or where `HOME` alone decides. -/
theorem mainConfig_datadir_iff (loglevel : ℤ) (hload : mnetConfigLoad (some f) = .ok (1, cfg))
    (honce : cfg.list.countP (fun entry => entry.name = mnetConfigRouterDir) ≤ 1)
    (hhome : env.home = some home) :
    (∃ state, mainConfig (some f) env loglevel = .ok (some state) ∧
        state.config.router.datadir = some (dataDirectory cfg env home)) ↔
      FindsDirectory cfg env home := by
  rw [mainConfig_eq_ok_iff hload]
  by_cases hentry : ∃ entry ∈ cfg.list, entry.name = mnetConfigRouterDir
  · have hset : defaultDatadir env (some mnetConfigRouterDir) = .ok (some mnetConfigRouterDir) :=
      if_neg (by simp)
    have hsome : (cfg.list.find? fun entry => entry.name = mnetConfigRouterDir).isSome := by
      simpa using hentry
    obtain ⟨found, hfound⟩ := Option.isSome_iff_exists.mp hsome
    have hdirectory : dataDirectory cfg env home = found.value := by
      rw [dataDirectory, hfound]
    have hname : found.name = mnetConfigRouterDir := by simpa using List.find?_some hfound
    rw [if_pos hentry, hset, hdirectory, Except.ok.injEq, Option.some.injEq]
    constructor
    · intro hvalue
      exact .inl ⟨found, List.mem_of_find?_eq_some hfound, hname, hvalue.symm⟩
    · rintro (⟨entry, hmem, hentryName, hvalue⟩ | ⟨hnone, _⟩)
      · rw [← eq_of_countP_le_one honce hfound hmem (by simpa using hentryName), hvalue]
      · obtain ⟨entry, hmem, hentryName⟩ := hentry
        exact absurd hentryName (hnone entry hmem)
  · have hnone : ∀ entry ∈ cfg.list, entry.name ≠ mnetConfigRouterDir :=
      fun entry hmem hname => hentry ⟨entry, hmem, hname⟩
    have hfind : (cfg.list.find? fun entry => entry.name = mnetConfigRouterDir) = none := by
      simpa using hnone
    rw [if_neg hentry, FindsDirectory, or_iff_right fun ⟨entry, hmem, hname, _⟩ =>
      hnone entry hmem hname, and_iff_right hnone]
    cases hroot : env.mnetRoot with
    | some root => exact iff_of_false (defaultDatadir_root hroot) (by simp)
    | none =>
        have hdirectory : dataDirectory cfg env home = slash home dotMnet := by
          rw [dataDirectory, hfind]
          simp only [hroot]
        have hgiven : env.home.getD nullText = home := by rw [hhome, Option.getD_some]
        rw [hdirectory, defaultDatadir_home_iff hroot hgiven, and_iff_right rfl]

end Main

/-! ## A file with a data directory -/

/-- `mnet.router.dir=/d` -/
def dirFile : InFile := "mnet.router.dir=/d".toList.map ch

def dirConfig : MnetConfig where
  list := [⟨mnetConfigRouterDir, ofBuffer [ch '/', ch 'd']⟩]
  size := 1

/-- Only `HOME` is set. -/
def homeEnvironment : Environment where
  mnetRoot := none
  home := some (ofBuffer [ch '/', ch 'h'])

theorem mnetConfigLoad_dirFile : mnetConfigLoad (some dirFile) = .ok (1, dirConfig) := by
  decide

theorem mainConfig_datadir_iff_dirFile :
    (∃ state, mainConfig (some dirFile) homeEnvironment 2 = .ok (some state) ∧
        state.config.router.datadir =
          some (dataDirectory dirConfig homeEnvironment (ofBuffer [ch '/', ch 'h']))) ↔
      FindsDirectory dirConfig homeEnvironment (ofBuffer [ch '/', ch 'h']) :=
  mainConfig_datadir_iff 2 mnetConfigLoad_dirFile (by decide) rfl

/-- The name of the setting is handed over instead of `/d`. -/
theorem not_forall_mainConfig_datadir :
    ¬∀ (f : InFile) (cfg : MnetConfig) (env : Environment) (home : CString) (loglevel : ℤ),
      mnetConfigLoad (some f) = .ok (1, cfg) →
      cfg.list.countP (fun entry => entry.name = mnetConfigRouterDir) ≤ 1 →
      env.home = some home →
        ∃ state, mainConfig (some f) env loglevel = .ok (some state) ∧
          state.config.router.datadir = some (dataDirectory cfg env home) := by
  intro hall
  have hdir := hall dirFile dirConfig homeEnvironment (ofBuffer [ch '/', ch 'h']) 2
    mnetConfigLoad_dirFile (by decide) rfl
  rw [mainConfig_eq_ok_iff mnetConfigLoad_dirFile] at hdir
  revert hdir
  decide

end I2pLite.Main
