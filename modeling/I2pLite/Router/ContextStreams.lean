import I2pLite.Identity.KeysReload
import I2pLite.Router.Context

/-!
# Starting the router from files as they are read

The keys that are read have no signer and the router info that is read has no
identity, so a load of a context that comes to an end has given up on the way.
-/

namespace I2pLite.ContextStreams

open I2pLite.CRun
open I2pLite.CBytes
open I2pLite.Stdio
open I2pLite.Framing
open I2pLite.KeyStreams
open I2pLite.Keys
open I2pLite.KeysReload
open I2pLite.Ri
open I2pLite.InfoStreams
open I2pLite.Netdb
open I2pLite.Context

/-! ## Making keys -/

/-- What a call for new keys leaves behind where it succeeds. -/
def writtenKeys (code : EddsaCode) (regeneration : Regeneration) :
    Option (MnetIdentityKeys × List Byte) :=
  let seed := code.mnetHash regeneration.rand.toList
  if regeneration.opens then
    (regeneration.write (writtenDict seed)).map fun file => (keysOf code seed, file)
  else none

/-- The keys of the first call for new ones that succeeds, with their file. -/
def regeneratedKeys (code : EddsaCode) (ops : Operations) :
    Option (MnetIdentityKeys × List Byte) :=
  (writtenKeys code ops.regeneration).or (writtenKeys code ops.secondRegeneration)

/-- The file of keys that is opened for reading. -/
def keysOpened (code : EddsaCode) (ops : Operations) (dir : DataDir) : Option (List Byte) :=
  openForReading ops.opensKeys
    (if ops.findsKeys then dir.routerKeys else (regeneratedKeys code ops).map Prod.snd)

section Making

variable {codecs : Codecs} {ops : Operations} {ctx : RouterContext} {dir : DataDir}

theorem routerContextRegenerateIdentity_eq (regeneration : Regeneration) (sigtype : UInt16) :
    ∃ left, routerContextRegenerateIdentity codecs regeneration ctx dir sigtype =
      match writtenKeys codecs.eddsa regeneration with
      | some (k, file) =>
          .ok (1, { ctx with privkeys := some k }, { dir with routerKeys := some file })
      | none => .ok (0, ctx, { dir with routerKeys := left }) := by
  rw [routerContextRegenerateIdentity, writtenKeys]
  dsimp only
  cases regeneration.opens with
  | false => exact ⟨dir.routerKeys, rfl⟩
  | true =>
      refine ⟨some regeneration.remains, ?_⟩
      rw [if_pos rfl, if_pos rfl, mnetIdentityKeysGenerate_eq, ok_bind]
      dsimp only
      rw [mnetIdentityKeysWrite_keysOf]
      cases regeneration.write (writtenDict (codecs.eddsa.mnetHash regeneration.rand.toList)) with
      | none => rfl
      | some file => rfl

/-- Where there are no keys, those that are made first are kept. -/
theorem ensureKeys_of_missing (hmissing : ops.findsKeys = false) :
    ∃ left, ensureKeys codecs ops ctx dir =
      match regeneratedKeys codecs.eddsa ops with
      | some (k, file) =>
          .ok (1, { ctx with privkeys := some k }, { dir with routerKeys := some file })
      | none => .ok (0, ctx, { dir with routerKeys := left }) := by
  rw [ensureKeys, hmissing, if_neg Bool.false_ne_true, regeneratedKeys]
  obtain ⟨left, hfirst⟩ := @routerContextRegenerateIdentity_eq codecs ctx dir ops.regeneration
    defaultIdentitySigType
  rw [hfirst]
  cases writtenKeys codecs.eddsa ops.regeneration with
  | some result =>
      obtain ⟨k, file⟩ := result
      exact ⟨none, rfl⟩
  | none =>
      rw [Option.none_or]
      dsimp only
      rw [ok_bind]
      dsimp only
      rw [if_neg (not_not_intro rfl)]
      cases ops.deletesKeys with
      | false => exact routerContextRegenerateIdentity_eq ops.secondRegeneration _
      | true => exact routerContextRegenerateIdentity_eq ops.secondRegeneration _

end Making

/-! ## When a load comes to an end -/

/-- A file of keys is read to its end, with this flag. -/
def ReadsKeysAs (file : InFile) (ret : ℤ) : Prop :=
  ∃ frame rest, Framed file (.value frame) rest ∧ frame.safe = true ∧
    keysOfFrame mnetIdentityKeysNew frame = some (ret, mnetIdentityKeysNew)

/-- The load gives up: there is no data directory to be used, no file of keys to
be opened, or the file of keys is read as none; or it cannot be read, and the
router info can be neither written nor opened. -/
def GivesUp (codecs : Codecs) (ops : Operations) (dir : DataDir) : Prop :=
  (ops.findsDataDir || ops.makesDataDir) = false ∨ keysOpened codecs.eddsa ops dir = none ∨
    ∃ file, keysOpened codecs.eddsa ops dir = some file ∧
      (ReadsKeysAs file 0 ∨ ReadsKeysAs file (-1) ∧ ops.createsInfo = false ∧
        openForReading ops.opensInfo dir.routerInfo = none)

section Load

variable {fuel : ℕ} {codecs : Codecs} {ops : Operations} {ctx ctx' : RouterContext}
variable {dir dir' : DataDir} {ret : ℤ} {file : InFile}

/-- A file of keys is read with one flag. -/
theorem ReadsKeysAs.unique {ret' : ℤ} (hreads : ReadsKeysAs file ret)
    (hreads' : ReadsKeysAs file ret') : ret = ret' := by
  obtain ⟨frame, rest, hframed, _, hkeys⟩ := hreads
  obtain ⟨frame', rest', hframed', _, hkeys'⟩ := hreads'
  obtain ⟨rfl, _⟩ := hframed.frame_unique hframed'
  exact (Prod.mk.inj (Option.some.inj (hkeys.symm.trans hkeys'))).1

/-- Fresh keys stay as they are. -/
theorem keysOfFrame_new {frame : Frame} {k : MnetIdentityKeys}
    (hkeys : keysOfFrame mnetIdentityKeysNew frame = some (ret, k)) :
    k = mnetIdentityKeysNew ∧ (ret = 0 ∨ ret = -1) := by
  rw [keysOfFrame] at hkeys
  split_ifs at hkeys
  · obtain ⟨rfl, rfl⟩ := Prod.mk.inj (Option.some.inj hkeys)
    exact ⟨rfl, Or.inr rfl⟩
  · obtain ⟨rfl, rfl⟩ := Prod.mk.inj (Option.some.inj hkeys)
    exact ⟨rfl, Or.inl rfl⟩
  · obtain ⟨rfl, rfl⟩ := Prod.mk.inj (Option.some.inj hkeys)
    exact ⟨rfl, Or.inl rfl⟩

/-- The context behind keys that could not be read and a router info that could
not be written. -/
def unreadCtx (ctx : RouterContext) : RouterContext :=
  { ctx with privkeys := some mnetIdentityKeysNew, ourRi := .live routerInfoNew }

/-- The context once its keys have been released. -/
def keylessCtx (ctx : RouterContext) : RouterContext := { ctx with privkeys := none }

/-- Without an identity the router info must not be written. -/
theorem update_new_eq_ok_iff (hri : ctx.ourRi = .null) :
    routerContextUpdateRouterInfo ops { caps := none }
        { ctx with privkeys := some mnetIdentityKeysNew } dir = .ok (ctx', dir') ↔
      ops.createsInfo = false ∧ ctx' = unreadCtx ctx ∧ dir' = dir := by
  obtain ⟨netdb, privkeys, ourRi⟩ := ctx
  obtain rfl : ourRi = .null := hri
  rw [routerContextUpdateRouterInfo, dropOurRi]
  dsimp only
  rw [ok_bind]
  cases ops.createsInfo with
  | true =>
      refine iff_of_false (fun hupdate => ?_) (by simp)
      cases hupdate
  | false =>
      constructor
      · intro hupdate
        obtain ⟨rfl, rfl⟩ := ok_pair_inj hupdate
        exact ⟨rfl, rfl, rfl⟩
      · rintro ⟨_, rfl, rfl⟩
        rfl

theorem releasePrivkeys_eq_ok (hrelease : releasePrivkeys ctx = .ok ctx') :
    ctx' = keylessCtx ctx := by
  obtain ⟨_, hfree, hresult⟩ := bind_eq_ok.mp hrelease
  obtain ⟨_, _, hnone⟩ := bind_eq_ok.mp hfree
  obtain rfl := Except.ok.inj hnone
  exact (Except.ok.inj hresult).symm

theorem loadKeys_eq_ok (hri : ctx.ourRi = .null)
    (hopen : openForReading ops.opensKeys dir.routerKeys = some file)
    (hload : loadKeys fuel codecs ops ctx dir = .ok (ret, ctx', dir')) :
    ret = 0 ∧ ReadsKeysAs file 0 ∧ ctx' = keylessCtx ctx ∨
      ret = 1 ∧ ReadsKeysAs file (-1) ∧ ops.createsInfo = false ∧ ctx' = unreadCtx ctx ∧
        dir' = dir := by
  rw [loadKeys, hopen] at hload
  obtain ⟨⟨keysRet, k⟩, hkeys, hload⟩ := bind_eq_ok.mp hload
  obtain ⟨frame, rest, hframed, hsafe, houtcome⟩ := keysOfFrame_of_read hkeys
  obtain ⟨rfl, hret⟩ := keysOfFrame_new houtcome
  dsimp only at hload
  rcases hret with rfl | rfl
  · rw [if_neg (not_not_intro rfl)] at hload
    obtain ⟨released, hrelease, hload⟩ := bind_eq_ok.mp hload
    obtain ⟨rfl, hpair⟩ := ok_pair_inj hload
    obtain ⟨rfl, _⟩ := Prod.mk.inj hpair
    have hkeyless : released = keylessCtx ctx := (releasePrivkeys_eq_ok hrelease).trans rfl
    exact Or.inl ⟨rfl, ⟨frame, rest, hframed, hsafe, houtcome⟩, hkeyless⟩
  · rw [if_pos (by decide)] at hload
    obtain ⟨⟨updated, updatedDir⟩, hupdate, hresult⟩ := bind_eq_ok.mp hload
    obtain ⟨hcreates, hctx, hdir⟩ := (update_new_eq_ok_iff hri).mp hupdate
    obtain ⟨rfl, hpair⟩ := ok_pair_inj hresult
    obtain ⟨rfl, rfl⟩ := Prod.mk.inj hpair
    exact Or.inr ⟨rfl, ⟨frame, rest, hframed, hsafe, houtcome⟩, hcreates, hctx, hdir⟩

/-- A load does not come past the router info. -/
theorem loadInfo_eq_ok (hload : loadInfo fuel ops ctx dir = .ok (ret, ctx')) :
    ret = 0 ∧ openForReading ops.opensInfo dir.routerInfo = none ∧ ctx' = keylessCtx ctx ∨
      ret = 1 ∧ ctx'.ourRi = .live routerInfoNew := by
  rw [loadInfo] at hload
  split at hload
  · next hopen =>
      obtain ⟨released, hrelease, hload⟩ := bind_eq_ok.mp hload
      obtain ⟨rfl, rfl⟩ := ok_pair_inj hload
      exact Or.inl ⟨rfl, hopen, releasePrivkeys_eq_ok hrelease⟩
  · obtain ⟨⟨infoRet, ri⟩, hinfo, hload⟩ := bind_eq_ok.mp hload
    obtain ⟨rfl, _⟩ := loadsFrame_of_load hinfo
    dsimp only at hload
    split_ifs at hload
    · obtain ⟨rfl, rfl⟩ := ok_pair_inj hload
      exact Or.inr ⟨rfl, rfl⟩
    · cases hload

theorem finishLoad_ne_ok (hri : ctx.ourRi = .live routerInfoNew) :
    finishLoad fuel codecs ops ctx dir ≠ .ok (ret, ctx') := by
  intro hload
  rw [finishLoad, hri] at hload
  cases hload

theorem loadFiles_eq_ok (hri : ctx.ourRi = .null)
    (hload : loadFiles fuel codecs ops ctx dir = .ok (ret, ctx')) :
    ret = 0 ∧ (openForReading ops.opensKeys dir.routerKeys = none ∧ ctx' = ctx ∨
      ∃ file, openForReading ops.opensKeys dir.routerKeys = some file ∧
        (ReadsKeysAs file 0 ∧ ctx' = keylessCtx ctx ∨
          ReadsKeysAs file (-1) ∧ ops.createsInfo = false ∧
            openForReading ops.opensInfo dir.routerInfo = none ∧
            ctx' = keylessCtx (unreadCtx ctx))) := by
  obtain ⟨⟨keysRet, middle, middleDir⟩, hkeys, hrest⟩ := bind_eq_ok.mp hload
  dsimp only at hrest
  cases hopen : openForReading ops.opensKeys dir.routerKeys with
  | none =>
      rw [loadKeys, hopen] at hkeys
      obtain ⟨rfl, hpair⟩ := ok_pair_inj hkeys
      obtain ⟨rfl, _⟩ := Prod.mk.inj hpair
      rw [if_pos rfl] at hrest
      obtain ⟨rfl, rfl⟩ := ok_pair_inj hrest
      exact ⟨rfl, Or.inl ⟨rfl, rfl⟩⟩
  | some file =>
      rcases loadKeys_eq_ok hri hopen hkeys with
        ⟨rfl, hreads, rfl⟩ | ⟨rfl, hreads, hcreates, rfl, rfl⟩
      · rw [if_pos rfl] at hrest
        obtain ⟨rfl, rfl⟩ := ok_pair_inj hrest
        exact ⟨rfl, Or.inr ⟨file, rfl, Or.inl ⟨hreads, rfl⟩⟩⟩
      · rw [if_neg one_ne_zero] at hrest
        obtain ⟨⟨infoRet, last⟩, hinfo, hfinish⟩ := bind_eq_ok.mp hrest
        dsimp only at hfinish
        rcases loadInfo_eq_ok hinfo with ⟨rfl, hnone, rfl⟩ | ⟨rfl, hlast⟩
        · rw [if_pos rfl] at hfinish
          obtain ⟨rfl, rfl⟩ := ok_pair_inj hfinish
          exact ⟨rfl, Or.inr ⟨file, rfl, Or.inr ⟨hreads, hcreates, hnone, rfl⟩⟩⟩
        · rw [if_neg one_ne_zero] at hfinish
          exact absurd hfinish (finishLoad_ne_ok hlast)

theorem loadFiles_of_none (hopen : openForReading ops.opensKeys dir.routerKeys = none) :
    loadFiles fuel codecs ops ctx dir = .ok (0, ctx) := by
  rw [loadFiles, loadKeys, hopen]
  rfl

/-- A file of keys that was read as none, or could not be read, ends the load. -/
theorem exists_loadFiles (hri : ctx.ourRi = .null)
    (hopen : openForReading ops.opensKeys dir.routerKeys = some file)
    (hreads : ReadsKeysAs file 0 ∨ ReadsKeysAs file (-1) ∧ ops.createsInfo = false ∧
      openForReading ops.opensInfo dir.routerInfo = none) :
    ∃ fuel ctx', loadFiles fuel codecs ops ctx dir = .ok (0, ctx') := by
  rcases hreads with ⟨frame, rest, hframed, hsafe, houtcome⟩ |
    ⟨⟨frame, rest, hframed, hsafe, houtcome⟩, hcreates, hnone⟩
  · obtain ⟨fuel, hkeys⟩ := exists_read_of_keysOfFrame codecs.eddsa hframed hsafe houtcome
    refine ⟨fuel, { ctx with privkeys := none }, ?_⟩
    rw [loadFiles, loadKeys, hopen]
    dsimp only
    rw [hkeys]
    rfl
  · obtain ⟨fuel, hkeys⟩ := exists_read_of_keysOfFrame codecs.eddsa hframed hsafe houtcome
    refine ⟨fuel, { unreadCtx ctx with privkeys := none }, ?_⟩
    have hupdate := (@update_new_eq_ok_iff ops ctx (unreadCtx ctx) dir dir hri).mpr
      ⟨hcreates, rfl, rfl⟩
    rw [loadFiles, loadKeys, hopen]
    dsimp only
    rw [hkeys, ok_bind]
    dsimp only
    rw [if_pos (by decide), hupdate, ok_bind, ok_bind]
    dsimp only
    rw [if_neg one_ne_zero, loadInfo, hnone]
    rfl

end Load

section Fresh

variable {codecs : Codecs} {ops : Operations} {nodes : CString} {dir : DataDir} {ret : ℤ}

/-- The check for the keys leaves the file that is opened then, or there is none
to be opened. -/
theorem ensureKeys_cases (codecs : Codecs) (ops : Operations) (ctx : RouterContext)
    (dir : DataDir) :
    ∃ ret ctx' dir', ensureKeys codecs ops ctx dir = .ok (ret, ctx', dir') ∧
      (ret = 0 ∧ ctx' = ctx ∧ ops.findsKeys = false ∧ regeneratedKeys codecs.eddsa ops = none ∨
        ret = 1 ∧ ctx'.ourRi = ctx.ourRi ∧ ctx'.netdb = ctx.netdb ∧
          (ops.findsKeys = true ∧ ctx' = ctx ∨ ops.findsKeys = false ∧ ctx'.privkeys ≠ none ∧
            regeneratedKeys codecs.eddsa ops ≠ none) ∧
          openForReading ops.opensKeys dir'.routerKeys = keysOpened codecs.eddsa ops dir ∧
          dir'.routerInfo = dir.routerInfo) := by
  rw [keysOpened]
  cases hfinds : ops.findsKeys with
  | true =>
      refine ⟨1, ctx, dir, ?_, Or.inr ⟨rfl, rfl, rfl, Or.inl ⟨rfl, rfl⟩, rfl, rfl⟩⟩
      rw [ensureKeys, hfinds]
      rfl
  | false =>
      obtain ⟨left, hensure⟩ := @ensureKeys_of_missing codecs ops ctx dir hfinds
      rw [hensure]
      cases regeneratedKeys codecs.eddsa ops with
      | none => exact ⟨0, ctx, _, rfl, Or.inl ⟨rfl, rfl, rfl, rfl⟩⟩
      | some result =>
          exact ⟨1, _, _, rfl, Or.inr ⟨rfl, rfl, rfl, Or.inr ⟨rfl, by simp, by simp⟩, rfl, rfl⟩⟩

theorem keysOpened_of_missing {code : EddsaCode} (hmissing : ops.findsKeys = false)
    (hnone : regeneratedKeys code ops = none) : keysOpened code ops dir = none := by
  rw [keysOpened, hmissing, hnone]
  simp [openForReading]

/-- No data directory is there to be used; or no keys are there, or can be
written; or there are keys that cannot be opened; or the file of keys holds
none. -/
def StopsEarly (codecs : Codecs) (ops : Operations) (dir : DataDir) : Prop :=
  (ops.findsDataDir || ops.makesDataDir) = false ∨
    ops.findsKeys = false ∧ regeneratedKeys codecs.eddsa ops = none ∨
    ops.findsKeys = true ∧ keysOpened codecs.eddsa ops dir = none ∨
    ∃ file, keysOpened codecs.eddsa ops dir = some file ∧ ReadsKeysAs file 0

/-- Keys have been made that cannot be opened; or the file of keys cannot be
read, and the router info can be neither written nor opened. -/
def StopsLate (codecs : Codecs) (ops : Operations) (dir : DataDir) (ctx : RouterContext) : Prop :=
  (ops.findsDataDir || ops.makesDataDir) = true ∧
    (ops.findsKeys = false ∧ regeneratedKeys codecs.eddsa ops ≠ none ∧
        keysOpened codecs.eddsa ops dir = none ∧ ctx.privkeys ≠ none ∨
      ∃ file, keysOpened codecs.eddsa ops dir = some file ∧ ReadsKeysAs file (-1) ∧
        ops.createsInfo = false ∧ openForReading ops.opensInfo dir.routerInfo = none ∧
        ctx.ourRi ≠ .null)

/-- What a load that returns has come to. -/
theorem load_cases {fuel : ℕ} {ctx : RouterContext}
    (hload : routerContextLoad fuel codecs ops (routerContextNew nodes) dir = .ok (ret, ctx)) :
    ret = 0 ∧ ctx.netdb = mnetNetdbNew nodes ∧
      (StopsEarly codecs ops dir ∧ ctx = routerContextNew nodes ∨
        StopsLate codecs ops dir ctx) := by
  rw [routerContextLoad] at hload
  cases hdir : ops.findsDataDir || ops.makesDataDir with
  | false =>
      rw [hdir] at hload
      obtain ⟨rfl, rfl⟩ := ok_pair_inj hload
      exact ⟨rfl, rfl, Or.inl ⟨Or.inl hdir, rfl⟩⟩
  | true =>
      obtain ⟨keysRet, middle, middleDir, hensure, hcases⟩ :=
        ensureKeys_cases codecs ops (routerContextNew nodes) dir
      rw [hdir, if_pos rfl, hensure, ok_bind] at hload
      dsimp only at hload
      rcases hcases with ⟨rfl, rfl, hmissing, hnone⟩ | ⟨rfl, hri, hnetdb, hfinds, hkeys, hinfo⟩
      · rw [if_pos rfl] at hload
        obtain ⟨rfl, rfl⟩ := ok_pair_inj hload
        exact ⟨rfl, rfl, Or.inl ⟨Or.inr (Or.inl ⟨hmissing, hnone⟩), rfl⟩⟩
      · rw [if_neg one_ne_zero] at hload
        have hkeyless : keylessCtx middle = routerContextNew nodes := by
          obtain ⟨netdb, privkeys, ourRi⟩ := middle
          obtain rfl : netdb = mnetNetdbNew nodes := hnetdb
          obtain rfl : ourRi = .null := hri
          rfl
        obtain ⟨rfl, houtcome⟩ := loadFiles_eq_ok hri hload
        rw [hkeys, hinfo] at houtcome
        rcases houtcome with ⟨hclosed, rfl⟩ | ⟨file, hopen, ⟨hreads, rfl⟩ | ⟨hreads, hcreates,
          hnone, rfl⟩⟩
        · refine ⟨rfl, hnetdb, ?_⟩
          rcases hfinds with ⟨hfinds, rfl⟩ | ⟨hmissing, hprivkeys, hmade⟩
          · exact Or.inl ⟨Or.inr (Or.inr (Or.inl ⟨hfinds, hclosed⟩)), rfl⟩
          · exact Or.inr ⟨hdir, Or.inl ⟨hmissing, hmade, hclosed, hprivkeys⟩⟩
        · exact ⟨rfl, hnetdb, Or.inl ⟨Or.inr (Or.inr (Or.inr ⟨file, hopen, hreads⟩)), hkeyless⟩⟩
        · exact ⟨rfl, hnetdb, Or.inr ⟨hdir, Or.inr ⟨file, hopen, hreads, hcreates, hnone,
            fun hnull => by cases hnull⟩⟩⟩

theorem givesUp_of_stopsEarly (hstops : StopsEarly codecs ops dir) : GivesUp codecs ops dir := by
  rcases hstops with hdir | ⟨hmissing, hnone⟩ | ⟨_, hclosed⟩ | ⟨file, hopen, hreads⟩
  · exact Or.inl hdir
  · exact Or.inr (Or.inl (keysOpened_of_missing hmissing hnone))
  · exact Or.inr (Or.inl hclosed)
  · exact Or.inr (Or.inr ⟨file, hopen, Or.inl hreads⟩)

/-- A load that returns has given up, and has not touched the netdb. -/
theorem givesUp_of_load {fuel : ℕ} {ctx : RouterContext}
    (hload : routerContextLoad fuel codecs ops (routerContextNew nodes) dir = .ok (ret, ctx)) :
    ret = 0 ∧ ctx.netdb = mnetNetdbNew nodes ∧ GivesUp codecs ops dir := by
  obtain ⟨hret, hnetdb, ⟨hstops, _⟩ | ⟨_, ⟨_, _, hclosed, _⟩ | ⟨file, hopen, hreads, hcreates,
    hnone, _⟩⟩⟩ := load_cases hload
  · exact ⟨hret, hnetdb, givesUp_of_stopsEarly hstops⟩
  · exact ⟨hret, hnetdb, Or.inr (Or.inl hclosed)⟩
  · exact ⟨hret, hnetdb, Or.inr (Or.inr ⟨file, hopen, Or.inr ⟨hreads, hcreates, hnone⟩⟩)⟩

theorem exists_load_of_givesUp (nodes : CString) (hgivesUp : GivesUp codecs ops dir) :
    ∃ fuel ctx, routerContextLoad fuel codecs ops (routerContextNew nodes) dir = .ok (0, ctx) := by
  obtain ⟨keysRet, middle, middleDir, hensure, hcases⟩ :=
    ensureKeys_cases codecs ops (routerContextNew nodes) dir
  simp only [routerContextLoad, hensure, ok_bind]
  rw [GivesUp] at hgivesUp
  cases hdir : ops.findsDataDir || ops.makesDataDir with
  | false => exact ⟨0, _, rfl⟩
  | true =>
      rw [hdir] at hgivesUp
      simp only [reduceCtorEq, false_or] at hgivesUp
      simp only [if_true]
      rcases hcases with ⟨rfl, rfl, _⟩ | ⟨rfl, hri, _, _, hkeys, hinfo⟩
      · exact ⟨0, _, rfl⟩
      · rw [← hkeys, ← hinfo] at hgivesUp
        rcases hgivesUp with hopen | ⟨file, hopen, hreads⟩
        · exact ⟨0, _, loadFiles_of_none hopen⟩
        · exact exists_loadFiles hri hopen hreads

end Fresh

/-- Loading a fresh context returns exactly where it gives up, and what it
returns is 0: whatever is in the data directory and whichever operations
succeed, the router does not get started. -/
theorem routerContextLoad_iff (codecs : Codecs) (ops : Operations) (nodes : CString)
    (dir : DataDir) (ret : ℤ) :
    (∃ fuel ctx, routerContextLoad fuel codecs ops (routerContextNew nodes) dir = .ok (ret, ctx)) ↔
      ret = 0 ∧ GivesUp codecs ops dir := by
  constructor
  · rintro ⟨fuel, ctx, hload⟩
    obtain ⟨hret, _, hgivesUp⟩ := givesUp_of_load hload
    exact ⟨hret, hgivesUp⟩
  · rintro ⟨rfl, hgivesUp⟩
    exact exists_load_of_givesUp nodes hgivesUp

end I2pLite.ContextStreams
