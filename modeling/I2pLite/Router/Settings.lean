import I2pLite.Router.Main

/-!
# The settings of the router

The entries of a configuration are handed out latest first, and each one
overrides those before it.  So of the lines that set the same thing the first
one in the file is the one that counts.
-/

namespace I2pLite.Settings

open I2pLite.CRun
open I2pLite.CBytes
open I2pLite.Numeral
open I2pLite.Stdio
open I2pLite.Config
open I2pLite.ConfigLines
open I2pLite.Main

/-- The value of a setting in a file: that of the first entry with its name. -/
def setting (entries : List MnetConfigEntry) (name : CString) : Option CString :=
  (entries.find? fun entry => entry.name = name).map MnetConfigEntry.value

/-- The self-test is asked for by `1` and nothing else. -/
def checkOf (v : CString) : ℤ := if strcmp v (ofBuffer [ch '1']) = 0 then 1 else 0

/-- What the entries of a file make of the defaults. -/
def settled (entries : List MnetConfigEntry) (loglevel : ℤ) : MainState where
  config :=
    { router :=
        { datadir := (setting entries mnetConfigRouterDir).map fun _ => mnetConfigRouterDir }
      crypto := { sanityCheck := ((setting entries mnetConfigCryptoCheck).map checkOf).getD 1 } }
  logLevel := ((setting entries mnetConfigLogLevel).map numberOf).getD loglevel

/-! ## One entry -/

section Entry

variable {V : Type} {entries : List MnetConfigEntry} {name : CString} {value : CString → V}

/-- What the entry sets, if it has the name. -/
def sets (name : CString) (value : CString → V) (entry : MnetConfigEntry) : Option V :=
  if entry.name = name then some (value entry.value) else none

theorem findSome?_sets (entries : List MnetConfigEntry) (name : CString) (value : CString → V) :
    entries.findSome? (sets name value) = (setting entries name).map value := by
  rw [setting]
  induction entries with
  | nil => rfl
  | cons entry entries ih =>
      by_cases hname : entry.name = name
      · simp [sets, hname]
      · simpa [sets, hname] using ih

theorem iterLogLevel_eq (k v : CString) (state : MainState) :
    iterLogLevel k v state = .ok (mnetLogSetLevel state
      (if k = mnetConfigLogLevel then numberOf v else state.logLevel)) := by
  rw [iterLogLevel]
  by_cases hkey : k = mnetConfigLogLevel
  · rw [if_pos (strcmp_eq_zero_iff.mpr hkey), if_pos hkey, atoi_string]
    rfl
  · rw [if_neg (strcmp_eq_zero_iff.not.mpr hkey), if_neg hkey]
    rfl

theorem iterCryptoCheck_eq (k v : CString) (state : MainState) :
    iterCryptoCheck k v state = setSanityCheck state
      (if k = mnetConfigCryptoCheck then checkOf v else state.config.crypto.sanityCheck) := by
  rw [iterCryptoCheck]
  by_cases hkey : k = mnetConfigCryptoCheck
  · rw [if_pos (strcmp_eq_zero_iff.mpr hkey), if_pos hkey, checkOf]
  · rw [if_neg (strcmp_eq_zero_iff.not.mpr hkey), if_neg hkey]
    rfl

/-- Every entry sets what it is named after, and nothing else. -/
theorem iterConfigMain_eq (k v : CString) (state : MainState) :
    iterConfigMain k v state = .ok {
      config :=
        { router :=
            { datadir := if k = mnetConfigRouterDir then some k else state.config.router.datadir }
          crypto :=
            { sanityCheck := if k = mnetConfigCryptoCheck then checkOf v
                else state.config.crypto.sanityCheck } }
      logLevel := if k = mnetConfigLogLevel then numberOf v else state.logLevel } := by
  rw [iterConfigMain, iterCryptoCheck_eq, iterLogLevel_eq, ok_bind]
  by_cases hkey : k = mnetConfigRouterDir
  · rw [if_pos (strcmp_eq_zero_iff.mpr hkey), if_pos hkey]
    rfl
  · rw [if_neg (strcmp_eq_zero_iff.not.mpr hkey), if_neg hkey]
    rfl

end Entry

/-! ## All entries -/

section Entries

/-- What a setting is read into is, behind all entries, what the first of them
with its name has set. -/
theorem forEach_iterConfigMain_observe {V : Type} {entries : List MnetConfigEntry} {size : ℕ}
    {state state' : MainState} (observe : MainState → V) (name : CString) (value : CString → V)
    (hobserve : ∀ (entry : MnetConfigEntry) (before after : MainState),
      iterConfigMain entry.name entry.value before = .ok after →
        observe after = if entry.name = name then value entry.value else observe before)
    (hrun : mnetConfigForEach { list := entries.reverse, size := size } iterConfigMain state =
      .ok state') :
    observe state' = ((setting entries name).map value).getD (observe state) := by
  have hstep : ∀ entry ∈ entries.reverse, ∀ before after,
      iterConfigMain entry.name entry.value before = .ok after →
        observe after = (sets name value entry).getD (observe before) := by
    intro entry _ before after hafter
    rw [hobserve entry before after hafter, sets]
    split_ifs
    · rfl
    · rfl
  have hlast := observe_of_foldlM hstep hrun
  rwa [List.reverse_reverse, findSome?_sets] at hlast

/-- The entries of a configuration, latest first. -/
theorem forEach_iterConfigMain (entries : List MnetConfigEntry) (size : ℕ) (loglevel : ℤ) :
    mnetConfigForEach { list := entries.reverse, size := size } iterConfigMain
        { config := ⟨defaultRouterContextConfig, defaultCryptoConfig⟩, logLevel := loglevel } =
      .ok (settled entries loglevel) := by
  obtain ⟨state', hrun, -⟩ := exists_forEach_iterConfigMain entries.reverse size
    { config := ⟨defaultRouterContextConfig, defaultCryptoConfig⟩, logLevel := loglevel }
  have hdatadir : state'.config.router.datadir =
      (setting entries mnetConfigRouterDir).map fun _ => mnetConfigRouterDir := by
    have hlast := forEach_iterConfigMain_observe (fun state => state.config.router.datadir)
      mnetConfigRouterDir (fun _ => some mnetConfigRouterDir) ?_ hrun
    · rw [hlast]
      cases setting entries mnetConfigRouterDir <;> rfl
    · intro entry before after hstep
      obtain rfl := Except.ok.inj ((iterConfigMain_eq _ _ _).symm.trans hstep)
      dsimp only
      split_ifs with hname
      · rw [hname]
      · rfl
  have hcheck : state'.config.crypto.sanityCheck =
      ((setting entries mnetConfigCryptoCheck).map checkOf).getD 1 := by
    refine forEach_iterConfigMain_observe (fun state => state.config.crypto.sanityCheck)
      mnetConfigCryptoCheck checkOf (fun entry before after hstep => ?_) hrun
    obtain rfl := Except.ok.inj ((iterConfigMain_eq _ _ _).symm.trans hstep)
    rfl
  have hlevel : state'.logLevel =
      ((setting entries mnetConfigLogLevel).map numberOf).getD loglevel := by
    refine forEach_iterConfigMain_observe MainState.logLevel mnetConfigLogLevel numberOf
      (fun entry before after hstep => ?_) hrun
    obtain rfl := Except.ok.inj ((iterConfigMain_eq _ _ _).symm.trans hstep)
    rfl
  rw [hrun]
  obtain ⟨⟨⟨datadir⟩, ⟨check⟩⟩, level⟩ := state'
  rw [settled, ← hdatadir, ← hcheck, ← hlevel]

end Entries

end I2pLite.Settings
