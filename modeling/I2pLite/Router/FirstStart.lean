import I2pLite.Router.Generate
import I2pLite.Router.Settings

/-!
# The first start

Without a configuration file the program writes one, and then loads it.  The
data directory that it writes is not one of the settings that it knows.
-/

namespace I2pLite.FirstStart

open I2pLite.CRun
open I2pLite.CBytes
open I2pLite.Stdio
open I2pLite.FileSystem
open I2pLite.PathBuffer
open I2pLite.Config
open I2pLite.ConfigLines
open I2pLite.ConfigReload
open I2pLite.Main
open I2pLite.Settings
open I2pLite.Generate

/-! ## The code -/

/-- What there is to be found under the name of the configuration file. -/
structure ConfigFile where
  /-- the file, if `check_file` finds one -/
  content : Option InFile
  /-- the stream of a new file, if it can be made -/
  created : Option OutFile
  /-- the file can be opened to be read -/
  readable : Bool

/-- `main` up to `router_context_new`: the code it returns with, or its state. -/
def mainStart (file : ConfigFile) (now : UInt64) (env : Environment) (loglevel : ℤ) :
    Run (ℤ ⊕ MainState) :=
  let load := fun content : InFile => do
    let opened := if file.readable then some content else none
    match ← mainConfig opened env loglevel with
    | none => .ok (.inl 1)
    | some state => .ok (.inr state)
  match file.content with
  | some content => load content
  | none => do
      let (ret, made) ← mnetConfigGen now env.home file.created
      match made with
      | none => .ok (.inl (-1))
      | some f => if ret = 0 then .ok (.inl (-1)) else load f.bytes

/-! ## A generated file -/

section Generated

variable {env : Environment} {f f' : OutFile} {datadir : CString} {now : UInt64} {loglevel : ℤ}

/-- A path that is joined has no newline but those of its parts. -/
theorem newline_notMem_genDatadir (hline : ∀ home, env.home = some home → ch '\n' ∉ home.bytes)
    (hdatadir : genDatadir env.home = .ok datadir) : ch '\n' ∉ datadir.bytes := by
  have hjoin : ∀ {base joined : CString} {parts : List CString},
      ch '\n' ∉ (wholePath base parts).bytes → pathJoin base parts = .ok joined →
        ch '\n' ∉ joined.bytes := by
    intro base joined parts hwhole hcall
    obtain ⟨path, hpath, htake⟩ := exists_pathJoin (pathFits_of_pathJoin hcall)
    obtain rfl := Except.ok.inj (hcall.symm.trans hpath)
    rw [htake]
    exact fun hmem => hwhole (List.mem_of_mem_take hmem)
  obtain ⟨standard, hstandard, hrest⟩ := bind_eq_ok.mp hdatadir
  cases hhome : env.home with
  | none =>
      rw [hhome] at hrest
      obtain rfl := Except.ok.inj hrest
      exact hjoin (by decide) hstandard
  | some home =>
      rw [hhome] at hrest
      refine hjoin ?_ hrest
      have hbytes : (wholePath home [dotConfig, mnet]).bytes =
          home.bytes ++ (ch '/' :: dotConfig.bytes) ++ (ch '/' :: mnet.bytes) := by
        simp only [wholePath, List.foldl_cons, List.foldl_nil, slash_bytes]
      rw [hbytes, List.mem_append, List.mem_append, not_or, not_or]
      exact ⟨⟨hline home hhome, by decide⟩, by decide⟩

/-- Neither the check nor the data directory of a generated file changes a
default; a level of the log that was read does. -/
theorem mainConfig_generated {text : List Byte} {cut : Bool} (hline : ch '\n' ∉ datadir.bytes)
    (hshort : strlen datadir ≤ 255) (hcomments : Comments text cut) (env : Environment)
    (loglevel : ℤ) :
    mainConfig (some (text ++ (genConfig datadir).list.flatMap fun entry =>
        entryLine entry.name entry.value)) env loglevel =
      defaultDatadir env none >>= fun found => .ok (some
        { config := ⟨⟨found⟩, ⟨1⟩⟩, logLevel := if cut then loglevel else 1 }) := by
  rw [mainConfig, mnetConfigLoad_generated hline hshort hcomments, ok_bind]
  dsimp only
  rw [if_neg one_ne_zero]
  cases cut with
  | true =>
      have hsettled := forEach_iterConfigMain
        [⟨mnetDatadir, valueReadBack datadir⟩, ⟨mnetConfigCryptoCheck, one⟩] 2 loglevel
      rw [if_pos rfl]
      exact congrArg (· >>= _) hsettled
  | false =>
      have hsettled := forEach_iterConfigMain
        [⟨mnetConfigLogLevel, one⟩, ⟨mnetDatadir, valueReadBack datadir⟩,
          ⟨mnetConfigCryptoCheck, one⟩] 3 loglevel
      rw [if_neg Bool.false_ne_true]
      exact congrArg (· >>= _) hsettled

end Generated

/-! ## The first start -/

section Start

variable {file : ConfigFile} {env : Environment} {f : OutFile} {now : UInt64} {loglevel : ℤ}
variable {outcome : ℤ ⊕ MainState}

/-- What the first start hands over comes from the environment and the defaults,
whatever the generated file says of a data directory; its level of the log is
the one of the command line only where the comments were cut within a line. -/
theorem mainStart_first (hmissing : file.content = none) (hcreated : file.created = some f)
    (hempty : f.bytes = []) (hreadable : file.readable = true)
    (hline : ∀ home, env.home = some home → ch '\n' ∉ home.bytes)
    (hstart : mainStart file now env loglevel = .ok outcome) :
    ∃ datadir level, defaultDatadir env none = .ok datadir ∧
      outcome = .inr { config := ⟨⟨datadir⟩, ⟨1⟩⟩, logLevel := level } ∧
      (WholeLines (f.emitted (header now)) → level = 1) ∧
      (¬WholeLines (f.emitted (header now)) → level = loglevel) := by
  rw [mainStart, hmissing, hcreated] at hstart
  dsimp only at hstart
  obtain ⟨⟨ret, made⟩, hgen, hload⟩ := bind_eq_ok.mp hstart
  obtain ⟨rfl, f', rfl⟩ : ret = 1 ∧ ∃ f', made = some f' := by
    obtain ⟨_, _, hrest⟩ := bind_eq_ok.mp hgen
    obtain ⟨f', _, hresult⟩ := bind_eq_ok.mp hrest
    obtain ⟨hret, hmade⟩ := Prod.mk.inj (Except.ok.inj hresult)
    exact ⟨hret.symm, f', hmade.symm⟩
  obtain ⟨datadir, cut, hdatadir, hcomments, hbytes⟩ := mnetConfigGen_eq_ok hempty hgen
  dsimp only at hload
  have hshort := strlen_le_of_genDatadir hdatadir
  rw [if_neg one_ne_zero, hreadable, if_pos rfl, hbytes,
    mainConfig_generated (newline_notMem_genDatadir hline hdatadir) hshort hcomments] at hload
  obtain ⟨state, hstate, houtcome⟩ := bind_eq_ok.mp hload
  obtain ⟨found, hfound, hsome⟩ := bind_eq_ok.mp hstate
  obtain rfl := Except.ok.inj hsome
  refine ⟨found, if cut then loglevel else 1, hfound, (Except.ok.inj houtcome).symm, ?_, ?_⟩
  · intro hwhole
    rw [WholeLines, ← hcomments.cut_eq_false_iff] at hwhole
    rw [hwhole, if_neg Bool.false_ne_true]
  · intro hwhole
    rw [WholeLines, ← hcomments.cut_eq_false_iff, Bool.not_eq_false] at hwhole
    rw [hwhole, if_pos rfl]

end Start

/-- There is no file yet, and every write succeeds. -/
def newFile : ConfigFile where
  content := none
  created := some { fails := fun _ => none }
  readable := true

theorem newline_notMem_homeEnvironment (home : CString)
    (hhome : homeEnvironment.home = some home) : ch '\n' ∉ home.bytes := by
  obtain rfl := Option.some.inj hhome
  decide

theorem exists_mainStart_newFile :
    ∃ outcome, mainStart newFile 0 homeEnvironment 2 = .ok outcome := by
  have hdatadir := @genDatadir_home (ofBuffer [ch '/', ch 'h']) (by decide) (by decide)
  obtain ⟨f', hgen⟩ := @exists_mnetConfigGen { fails := fun _ => none } homeEnvironment.home _ 0
    hdatadir fun _ => rfl
  obtain ⟨datadir, cut, hfound, hcomments, hbytes⟩ := mnetConfigGen_eq_ok rfl hgen
  have hdefault : defaultDatadir homeEnvironment none =
      .ok (some (slash (ofBuffer [ch '/', ch 'h']) dotMnet)) :=
    (defaultDatadir_home_iff rfl rfl).mpr ⟨by decide, by decide⟩
  have hconfig := mainConfig_generated
    (newline_notMem_genDatadir newline_notMem_homeEnvironment hfound)
    (strlen_le_of_genDatadir hfound) hcomments homeEnvironment 2
  rw [← hbytes, hdefault, ok_bind] at hconfig
  refine ⟨.inr
    { config := ⟨⟨some (slash (ofBuffer [ch '/', ch 'h']) dotMnet)⟩, ⟨1⟩⟩
      logLevel := if cut then 2 else 1 }, ?_⟩
  have hopened : (if newFile.readable then some f'.bytes else none) = some f'.bytes := rfl
  rw [mainStart, show newFile.content = none from rfl]
  dsimp only
  rw [show newFile.created = some { fails := fun _ => none } from rfl, hgen, ok_bind]
  dsimp only
  rw [if_neg one_ne_zero, hopened, hconfig, ok_bind]

theorem mainStart_first_newFile :
    ∃ outcome datadir level, mainStart newFile 0 homeEnvironment 2 = .ok outcome ∧
      defaultDatadir homeEnvironment none = .ok datadir ∧
      outcome = .inr { config := ⟨⟨datadir⟩, ⟨1⟩⟩, logLevel := level } := by
  obtain ⟨outcome, hstart⟩ := exists_mainStart_newFile
  obtain ⟨datadir, level, hdatadir, houtcome, _⟩ := mainStart_first rfl rfl rfl rfl
    newline_notMem_homeEnvironment hstart
  exact ⟨outcome, datadir, level, hstart, hdatadir, houtcome⟩

end I2pLite.FirstStart
