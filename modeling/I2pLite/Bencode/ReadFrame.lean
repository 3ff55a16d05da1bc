import I2pLite.Bencode.Framing
import I2pLite.Bencode.ReadSound

/-!
# Which streams are read without a fault

A read that returns has followed the frame of the stream, and its object is
what the frame says.  So it returns exactly on the streams whose frame is
safe.
-/

namespace I2pLite.ReadFrame

open I2pLite.CRun
open I2pLite.CBytes
open I2pLite.Decimal
open I2pLite.Stdio
open I2pLite.BencodeObject
open I2pLite.Denotation
open I2pLite.DictSet
open I2pLite.Clone
open I2pLite.MoreFuel
open I2pLite.ChainState
open I2pLite.Read
open I2pLite.ReadCount
open I2pLite.ReadSound
open I2pLite.Framing

/-! ## Strings -/

/-- The first byte of a string has no part in its length. -/
theorem lineLength_first (prefixByte : Byte) (line : List Byte) :
    lineLength prefixByte line = lineLength 0 line := by
  simp only [lineLength, numbuf_eq]

/-- A string is read as its frame says: the error flag, or a count that grows. -/
theorem bencodeReadStr_of_strFrame (prefixByte : Byte) (ctx : ReadCtx)
    {result : Option (List Byte)} {rest : InFile} (hstr : strFrame ctx.f = .ok (result, rest)) :
    ∃ count, bencodeReadStr prefixByte ctx =
        .ok (result.map BencodeObj.str, { f := rest, read := count }) ∧
      (result = none → count = -1) ∧ (result ≠ none → ctx.read < count) := by
  by_cases hempty : ctx.f = []
  · simp only [strFrame, if_pos hempty] at hstr
    obtain ⟨rfl, rfl⟩ := ok_pair_inj hstr
    exact ⟨-1, by simp [bencodeReadStr, getdelim, hempty], by simp, by simp⟩
  · simp only [strFrame, if_neg hempty] at hstr
    obtain ⟨⟨slen, sz⟩, hlength, hresult⟩ := bind_eq_ok.mp hstr
    have hpos := (lineLength_eq_ok hlength).2.1
    rw [← lineLength_first prefixByte] at hlength
    simp only [bencodeReadStr, getdelim_of_ne_nil hempty, hlength, ok_bind]
    simp only at hresult
    generalize (splitLine (ch ':') ctx.f).2 = tail at hresult ⊢
    split_ifs at hresult with hzero hone
    · obtain ⟨rfl, rfl⟩ := ok_pair_inj hresult
      exact ⟨ctx.read + slen, by simp [hzero, bencodeObjStr], by simp, fun _ => by omega⟩
    · obtain ⟨rfl, rfl⟩ := ok_pair_inj hresult
      refine ⟨ctx.read + slen + 1, ?_, by simp, fun _ => by omega⟩
      have hlong : 1 ≤ tail.length := List.length_pos_iff.mpr hone.2
      simp [hone.1, freadItem, hlong, bencodeObjStr]
    · obtain ⟨rfl, rfl⟩ := ok_pair_inj hresult
      refine ⟨-1, ?_, by simp, by simp⟩
      by_cases hsign : 0 ≤ sz
      · rw [if_pos hsign, if_pos hzero, freadItem]
        split_ifs with henough hcount hcount
        · -- one item is one byte, which is not there
          have hsz : sz = 1 := hcount.symm
          exact absurd ⟨hsz, List.length_pos_iff.mp (by omega)⟩ hone
        · rfl
        · exact absurd hcount.symm hzero
        · rw [List.drop_eq_nil_of_le (by omega)]
          rfl
      · rw [if_neg hsign, Int.toNat_of_nonpos (by omega)]
        rfl

/-- A string that is read has a frame. -/
theorem exists_strFrame {prefixByte : Byte} {ctx ctx' : ReadCtx} {o : Option BencodeObj}
    (hcall : bencodeReadStr prefixByte ctx = .ok (o, ctx')) :
    ∃ result, strFrame ctx.f = .ok (result, ctx'.f) ∧ o = result.map BencodeObj.str ∧
      (result = none → ctx'.read = -1) ∧ (result ≠ none → ctx.read < ctx'.read) := by
  have hframe : ∃ result rest, strFrame ctx.f = .ok (result, rest) := by
    by_cases hempty : ctx.f = []
    · exact ⟨none, [], by rw [strFrame, if_pos hempty]⟩
    · simp only [bencodeReadStr, getdelim_of_ne_nil hempty] at hcall
      obtain ⟨⟨slen, sz⟩, hlength, _⟩ := bind_eq_ok.mp hcall
      rw [lineLength_first] at hlength
      simp only [strFrame, if_neg hempty, hlength, ok_bind]
      split_ifs <;> exact ⟨_, _, rfl⟩
  obtain ⟨result, rest, hstr⟩ := hframe
  obtain ⟨count, hcall', hfailed, hread⟩ := bencodeReadStr_of_strFrame prefixByte ctx hstr
  rw [hcall] at hcall'
  obtain ⟨rfl, rfl⟩ := ok_pair_inj hcall'
  exact ⟨result, hstr, rfl, hfailed, hread⟩

/-! ## The object of a frame -/

/-- The value of a list node whose item had this frame. -/
def itemPtr (item : Frame) : ObjPtr BencodeObj := if item.isBad then .null else .freed

/-- What is delivered for a frame. -/
def Represents : Frame → Option BencodeObj → Prop
  | .bad, o => o = none
  | .str data, o => o = some (.str data)
  | .list items _, o => o = some (.list (items.map itemPtr ++ [.null]))
  | .dict entries _, o => ∃ dict chain, o = some dict ∧
      chainFrom .empty (storedKeys entries) = some chain ∧ HoldsChain chain dict
  | .skip frame, o => Represents frame o

theorem Represents.eq_none_iff {frame : Frame} {o : Option BencodeObj}
    (hrep : Represents frame o) : o = none ↔ frame.isBad = true := by
  cases frame with
  | bad => simp [Frame.isBad, show o = none from hrep]
  | str data => simp [Frame.isBad, show o = _ from hrep]
  | list items closed => simp [Frame.isBad, show o = _ from hrep]
  | dict entries closed =>
      obtain ⟨dict, chain, rfl, _⟩ := hrep
      simp [Frame.isBad]
  | skip frame => exact @Represents.eq_none_iff frame o hrep

/-- The list node of an item, from the item that was read. -/
theorem Represents.appendedItem {frame : Frame} {o : Option BencodeObj}
    (hrep : Represents frame o) : Read.appendedItem o = itemPtr frame := by
  cases o with
  | none => simp [Read.appendedItem, itemPtr, hrep.eq_none_iff.mp rfl]
  | some obj =>
      have hgood : ¬ frame.isBad = true := fun hbad => by
        simpa using hrep.eq_none_iff.mpr hbad
      simp [Read.appendedItem, itemPtr, hgood]

theorem Represents.frees_iff {frame : Frame} {o : Option BencodeObj} (hrep : Represents frame o) :
    (∃ fuel, freeIfSet (bencodeObjFree fuel) o = .ok ()) ↔ frame.releasable = true := by
  cases frame with
  | bad =>
      obtain rfl : o = none := hrep
      simp [freeIfSet, Frame.releasable]
  | str data =>
      obtain rfl : o = some (.str data) := hrep
      exact iff_of_true (frees_str data) rfl
  | list items closed =>
      obtain rfl : o = _ := hrep
      simp only [freeIfSet, Frame.releasable, List.all_eq_true]
      constructor
      · rintro ⟨fuel, hfree⟩ item hitem
        by_contra hgood
        refine free_list_freed_ne_ok ?_ fuel hfree
        rw [List.mem_append]
        refine Or.inl (List.mem_map.mpr ⟨item, hitem, ?_⟩)
        simp [itemPtr, hgood]
      · intro hbad
        apply frees_list_null
        intro val hval
        rcases List.mem_append.mp hval with hval | hval
        · obtain ⟨item, hitem, rfl⟩ := List.mem_map.mp hval
          simp [itemPtr, hbad item hitem]
        · exact List.mem_singleton.mp hval
  | dict entries closed =>
      obtain ⟨dict, chain, rfl, hchain, hholds⟩ := hrep
      rw [Frame.releasable, decide_eq_true_iff, ← (looped_eq_false_iff hchain).1]
      constructor
      · rintro ⟨fuel, hfree⟩
        by_contra hlooped
        exact hholds.free_ne_ok (by simpa using hlooped) fuel hfree
      · exact hholds.frees
  | skip frame => exact @Represents.frees_iff frame o hrep

theorem Represents.flat {frame : Frame} {obj : BencodeObj} (hrep : Represents frame (some obj))
    (hstorable : frame.storable = true) : Flat obj := by
  cases frame with
  | bad => cases hrep
  | str data =>
      obtain rfl : obj = .str data := Option.some.inj hrep
      exact ⟨_, .str data, rfl⟩
  | list items closed => simp [Frame.storable] at hstorable
  | dict entries closed =>
      obtain ⟨dict, chain, hobj, hchain, hholds⟩ := hrep
      obtain rfl := Option.some.inj hobj
      refine hholds.flat ((length_le_one_iff hchain).mpr ?_)
      simpa [Frame.storable] using hstorable
  | skip frame => exact @Represents.flat frame obj hrep hstorable

theorem Represents.storable_of_clone {frame : Frame} {obj copy : BencodeObj} {fuel : ℕ}
    (hrep : Represents frame (some obj)) (hclone : bencodeObjClone fuel obj = .ok copy) :
    frame.storable = true := by
  cases frame with
  | bad => cases hrep
  | str data => rfl
  | list items closed =>
      obtain rfl : obj = _ := Option.some.inj hrep
      exact absurd hclone (clone_list_ne_ok fuel)
  | dict entries closed =>
      obtain ⟨dict, chain, hobj, hchain, hholds⟩ := hrep
      obtain rfl := Option.some.inj hobj
      rw [Frame.storable, decide_eq_true_iff, ← length_le_one_iff hchain]
      by_contra hmany
      exact hholds.clone_ne_ok (by omega) fuel hclone
  | skip frame => exact @Represents.storable_of_clone frame obj copy fuel hrep hclone

/-! ## Reads that return -/

theorem signOf_add_one {count : ℤ} (hcount : -1 ≤ count) :
    signOf (count + 1) = (signOf count).count := by
  unfold signOf
  split_ifs <;> first | rfl | omega

theorem signOf_of_pos {count : ℤ} (hcount : 0 < count) : signOf count = .positive := by
  rw [signOf, if_neg (by omega), if_neg (by omega)]

theorem signOf_eq_positive_iff {count : ℤ} : signOf count = .positive ↔ 0 < count := by
  unfold signOf
  split_ifs <;> simp <;> omega

theorem not_storable_of_isBad {frame : Frame} (hbad : frame.isBad = true) :
    frame.storable = false := by
  cases frame with
  | bad => rfl
  | str data => cases hbad
  | list items closed => cases hbad
  | dict entries closed => cases hbad
  | skip frame => exact @not_storable_of_isBad frame hbad

/-- What a read that returned has delivered, from the count behind the first
byte of the frame. -/
structure Delivered (frame : Frame) (start : ℤ) (o : Option BencodeObj) (count : ℤ) : Prop where
  safe : frame.safe = true
  represents : Represents frame o
  low : -1 ≤ count
  sign : signOf count = frame.sign (signOf start)

/-- Whenever the reader returns, it has followed a frame. -/
structure FollowsFrames (read : Reader) : Prop where
  given : ∀ c ctx o ctx', c ≠ 0 → 0 ≤ ctx.read → read c ctx = .ok (o, ctx') →
    ∃ frame, Framed (c :: ctx.f) (.value frame) ctx'.f ∧ Delivered frame ctx.read o ctx'.read
  fetched : ∀ ctx o ctx', -1 ≤ ctx.read → read 0 ctx = .ok (o, ctx') →
    ∃ frame, Framed ctx.f (.value frame) ctx'.f ∧ Delivered frame (ctx.read + 1) o ctx'.read

section Follow

variable {read : Reader} {fuel release : ℕ} {ctx ctx' : ReadCtx}

/-- The frame of an item, the NUL in front of it included. -/
theorem FollowsFrames.item (hread : FollowsFrames read) {c : Byte} {f : InFile}
    {o : Option BencodeObj} {count : ℤ} {middle : ReadCtx} (hend : c ≠ ch 'e')
    (hcount : -1 ≤ count) (hitem : read c { f := f, read := count + 1 } = .ok (o, middle)) :
    ∃ item, Delivered item (count + 1) o middle.read ∧
      ∀ items closed rest, Framed middle.f (.items items closed) rest →
        Framed (c :: f) (.items (item :: items) closed) rest := by
  by_cases hzero : c = 0
  · subst hzero
    obtain ⟨frame, hframed, hdelivered⟩ :=
      hread.fetched _ _ _ (show -1 ≤ count + 1 by omega) hitem
    refine ⟨.skip frame, ?_, fun _ _ _ hitems => .itemsSkip hframed hitems⟩
    exact {
      safe := hdelivered.safe
      represents := hdelivered.represents
      low := hdelivered.low
      sign := by rw [hdelivered.sign, Frame.sign, signOf_add_one (by dsimp only; omega)] }
  · obtain ⟨frame, hframed, hdelivered⟩ :=
      hread.given _ _ _ _ hzero (show 0 ≤ count + 1 by omega) hitem
    exact ⟨frame, hdelivered, fun _ _ _ hitems => .itemsCons hend hzero hframed hitems⟩

theorem readListLoop_follows (hread : FollowsFrames read) {vals : List (ObjPtr BencodeObj)}
    {list' : BencodeObj} (hcount : -1 ≤ ctx.read)
    (hloop : readListLoop read release fuel (.list (vals ++ [.null])) ctx = .ok (list', ctx')) :
    ∃ items closed, Framed ctx.f (.items items closed) ctx'.f ∧ itemsSafe items = true ∧
      list' = .list (vals ++ items.map itemPtr ++ [.null]) ∧ -1 ≤ ctx'.read ∧
      signOf ctx'.read = if closed then itemsSign items (signOf ctx.read) else .negative := by
  induction fuel generalizing vals ctx with
  | zero => simp [readListLoop] at hloop
  | succ fuel ih =>
      obtain ⟨f, count⟩ := ctx
      rw [readListLoop] at hloop
      cases f with
      | nil =>
          obtain ⟨rfl, rfl⟩ := ok_pair_inj hloop
          exact ⟨[], false, .itemsOpen, rfl, by simp, le_rfl, rfl⟩
      | cons c f =>
          simp only [fgetc] at hloop
          split_ifs at hloop with hend
          · obtain ⟨rfl, rfl⟩ := ok_pair_inj hloop
            rw [hend]
            exact ⟨[], true, .itemsEnd, rfl, by simp, hcount, rfl⟩
          · obtain ⟨⟨li, middle⟩, hitem, hloop⟩ := bind_eq_ok.mp hloop
            obtain ⟨list, happend, hloop⟩ := bind_eq_ok.mp hloop
            obtain ⟨_, hfree, hloop⟩ := bind_eq_ok.mp hloop
            obtain ⟨item, hdelivered, hframed⟩ := hread.item hend hcount hitem
            have hlist : list = .list ((vals ++ [itemPtr item]) ++ [.null]) := by
              rw [bencodeObjListAppend, hdelivered.represents.appendedItem,
                List.dropLast_concat] at happend
              rw [← Except.ok.inj happend, List.append_assoc]
              rfl
            rw [hlist] at hloop
            obtain ⟨items, closed, hitems, hsafe, hlist', hlow, hsign⟩ := ih hdelivered.low hloop
            refine ⟨item :: items, closed, hframed _ _ _ hitems, ?_, ?_, hlow, ?_⟩
            · rw [itemsSafe, hdelivered.safe, hsafe,
                hdelivered.represents.frees_iff.mp ⟨release, hfree⟩]
              rfl
            · simpa using hlist'
            · rw [hsign, hdelivered.sign, itemsSign, signOf_add_one hcount]

/-- The key of an entry, where the entry is stored. -/
def storedKey (key : List Byte) (value : Frame) : List CString :=
  if value.stored then [ofBuffer key] else []

theorem storedKeys_cons (key : List Byte) (value : Frame) (entries : Entries) :
    storedKeys (some (key, value) :: entries) = storedKey key value ++ storedKeys entries := by
  by_cases hstored : value.stored <;> simp [storedKeys, storedKey, hstored]

theorem chainFrom_append {chain : KeyChain} {left right : List CString} :
    chainFrom chain (left ++ right) =
      (chainFrom chain left).bind fun middle => chainFrom middle right := by
  rw [chainFrom, List.foldlM_append]
  rfl

theorem dictSet_null_ne_ok {dict val dict' : BencodeObj} :
    bencodeObjDictSet fuel dict none val ≠ .ok dict' := by
  intro hcall
  simp only [bencodeObjDictSet, dictSetWith, bind_eq_ok, deref_eq_ok] at hcall
  obtain ⟨_, _, _, _, _, _, _, _, _, hkey, _⟩ := hcall
  cases hkey

/-- An entry is stored where the count behind its value is positive. -/
theorem stored_iff {value : Frame} {count : ℤ} (hsign : signOf count = value.sign .positive) :
    value.stored = true ↔ 0 < count := by
  rw [Frame.stored, decide_eq_true_iff, ← hsign, signOf_eq_positive_iff]

theorem setIfRead_follows {chain : KeyChain} {key : List Byte} {value : Frame}
    {v : Option BencodeObj} {dict dict' : BencodeObj} (hholds : HoldsChain chain dict)
    (hrep : Represents value v) (hsign : signOf ctx.read = value.sign .positive)
    (hcall : setIfRead fuel dict (some (.str key)) v ctx = .ok dict') :
    (value.stored = true → key ≠ [] ∧ value.storable = true) ∧
      ∃ chain', chainFrom chain (storedKey key value) = some chain' ∧ HoldsChain chain' dict' := by
  have hstored := stored_iff hsign
  rw [setIfRead] at hcall
  split_ifs at hcall with hpos
  · rw [deref_some, ok_bind] at hcall
    obtain ⟨data, hdata, hcall⟩ := bind_eq_ok.mp hcall
    obtain ⟨obj, hobj, hcall⟩ := bind_eq_ok.mp hcall
    obtain rfl := deref_eq_ok.mp hobj
    have hkey : key ≠ [] := by
      rintro rfl
      obtain rfl := Except.ok.inj hdata
      exact dictSet_null_ne_ok hcall
    have hname : data = some (ofBuffer key) := by
      have hlength : ¬ key.length = 0 := by simpa using hkey
      simpa [strData, hlength, eq_comm] using hdata
    rw [hname] at hcall
    obtain ⟨_, _, copy, _, _, _, hclone, _⟩ := dictSetWith_eq_ok hcall
    have hstorable := hrep.storable_of_clone hclone
    obtain ⟨chain', hset, hholds'⟩ := hholds.set_of_ok
      (fun copy hcopy => stored_of_clone (hrep.flat hstorable) hcopy) hcall
    refine ⟨fun _ => ⟨hkey, hstorable⟩, chain', ?_, hholds'⟩
    rw [storedKey, if_pos (hstored.mpr hpos)]
    simpa [chainFrom] using hset
  · obtain rfl := Except.ok.inj hcall
    have hnot : ¬ value.stored = true := fun htrue => hpos (hstored.mp htrue)
    refine ⟨fun htrue => absurd htrue hnot, chain, ?_, hholds⟩
    rw [storedKey, if_neg hnot]
    rfl

theorem readDictLoop_follows (hread : FollowsFrames read) {chain : KeyChain}
    {dict dict' : BencodeObj} (hholds : HoldsChain chain dict) (hcount : -1 ≤ ctx.read)
    (hloop : readDictLoop read release fuel dict ctx = .ok (dict', ctx')) :
    ∃ entries closed, Framed ctx.f (.entries entries closed) ctx'.f ∧
      entriesSafe entries = true ∧
      (∃ chain', chainFrom chain (storedKeys entries) = some chain' ∧ HoldsChain chain' dict') ∧
      -1 ≤ ctx'.read ∧
      signOf ctx'.read = if closed then entriesSign entries (signOf ctx.read) else .negative := by
  induction fuel generalizing chain dict ctx with
  | zero => simp [readDictLoop] at hloop
  | succ fuel ih =>
      obtain ⟨f, count⟩ := ctx
      rw [readDictLoop] at hloop
      cases f with
      | nil =>
          obtain ⟨rfl, rfl⟩ := ok_pair_inj hloop
          exact ⟨[], false, .entriesOpen, rfl, ⟨chain, rfl, hholds⟩, le_rfl, rfl⟩
      | cons c f =>
          simp only [fgetc] at hloop
          split_ifs at hloop with hend
          · obtain ⟨rfl, rfl⟩ := ok_pair_inj hloop
            rw [hend]
            exact ⟨[], true, .entriesEnd, rfl, ⟨chain, rfl, hholds⟩, hcount, rfl⟩
          · obtain ⟨⟨next, middle⟩, hitem, hloop⟩ := bind_eq_ok.mp hloop
            obtain ⟨⟨k, afterKey⟩, hkey, hitem⟩ := bind_eq_ok.mp hitem
            obtain ⟨result, hstr, rfl, hfailed, hgrows⟩ := exists_strFrame hkey
            dsimp only at hitem hstr hfailed hgrows hcount ⊢
            cases result with
            | none =>
                rw [if_pos (by rw [hfailed rfl]; decide)] at hitem
                obtain ⟨rfl, rfl⟩ := ok_pair_inj hitem
                obtain ⟨entries, closed, hentries, hsafe, hchain, hlow, hsign⟩ :=
                  ih hholds (by rw [hfailed rfl]) hloop
                refine ⟨none :: entries, closed, .entriesNoKey hend hstr hentries, hsafe, hchain,
                  hlow, ?_⟩
                rw [hsign, hfailed rfl]
                rfl
            | some key =>
                have hpositive := hgrows (by simp)
                rw [if_neg (by omega)] at hitem
                obtain ⟨⟨v, afterValue⟩, hvalue, hitem⟩ := bind_eq_ok.mp hitem
                obtain ⟨stored, hset, hitem⟩ := bind_eq_ok.mp hitem
                obtain ⟨_, _, hitem⟩ := bind_eq_ok.mp hitem
                obtain ⟨_, hfree, hitem⟩ := bind_eq_ok.mp hitem
                obtain ⟨rfl, rfl⟩ := ok_pair_inj hitem
                obtain ⟨value, hframed, hdelivered⟩ := hread.fetched _ _ _ (by omega) hvalue
                have hvalueSign := hdelivered.sign
                rw [signOf_of_pos (show 0 < afterKey.read + 1 by omega)] at hvalueSign
                obtain ⟨hstorable, chain', hchain', hholds'⟩ :=
                  setIfRead_follows hholds hdelivered.represents hvalueSign hset
                obtain ⟨entries, closed, hentries, hsafe, ⟨last, hlast, hholdsLast⟩, hlow, hsign⟩ :=
                  ih hholds' hdelivered.low hloop
                refine ⟨some (key, value) :: entries, closed,
                  .entriesCons hend hstr hframed hentries, ?_, ⟨last, ?_, hholdsLast⟩, hlow, ?_⟩
                · rw [entriesSafe, hdelivered.safe, hsafe,
                    hdelivered.represents.frees_iff.mp ⟨release, hfree⟩]
                  by_cases hstored : value.stored
                  · obtain ⟨hne, hcopy⟩ := hstorable hstored
                    simp [hne, hcopy]
                  · simp [hstored]
                · rw [storedKeys_cons, chainFrom_append, hchain']
                  exact hlast
                · rw [hsign, hvalueSign, entriesSign]

theorem dispatch_follows (hread : FollowsFrames read) {c : Byte} {o : Option BencodeObj}
    (hcount : 0 ≤ ctx.read) (hcall : dispatch read fuel (some c) ctx = .ok (o, ctx')) :
    ∃ frame, Framed (c :: ctx.f) (.value frame) ctx'.f ∧
      Delivered frame ctx.read o ctx'.read := by
  rw [dispatch] at hcall
  split_ifs at hcall with hlist hdict hdigit
  · obtain ⟨⟨list, after⟩, hloop, hresult⟩ := bind_eq_ok.mp hcall
    obtain ⟨rfl, rfl⟩ := ok_pair_inj hresult
    rw [show bencodeObjList = .list ([] ++ [.null]) from rfl] at hloop
    obtain ⟨items, closed, hitems, hsafe, hlist', hlow, hsign⟩ :=
      readListLoop_follows hread (show -1 ≤ ctx.read by omega) hloop
    rw [hlist]
    refine ⟨.list items closed, .list hitems, ?_⟩
    exact {
      safe := hsafe
      represents := congrArg some hlist'
      low := hlow
      sign := hsign }
  · obtain ⟨⟨dict, after⟩, hloop, hresult⟩ := bind_eq_ok.mp hcall
    obtain ⟨rfl, rfl⟩ := ok_pair_inj hresult
    obtain ⟨entries, closed, hentries, hsafe, ⟨chain, hchain, hholds⟩, hlow, hsign⟩ :=
      readDictLoop_follows hread holdsChain_empty (show -1 ≤ ctx.read by omega) hloop
    rw [hdict]
    refine ⟨.dict entries closed, .dict hentries, ?_⟩
    exact {
      safe := by rw [Frame.safe, hsafe, hchain]; rfl
      represents := ⟨dict, chain, rfl, hchain, hholds⟩
      low := hlow
      sign := hsign }
  · obtain ⟨result, hstr, rfl, hfailed, hgrows⟩ := exists_strFrame hcall
    refine ⟨frameOfStr result, .str hdigit hstr, ?_⟩
    cases result with
    | none =>
        exact {
          safe := rfl
          represents := rfl
          low := by rw [hfailed rfl]
          sign := by rw [hfailed rfl]; rfl }
    | some data =>
        have hpositive := hgrows (by simp)
        exact {
          safe := rfl
          represents := rfl
          low := by omega
          sign := signOf_of_pos (by omega) }
  · obtain ⟨rfl, rfl⟩ := ok_pair_inj hcall
    refine ⟨.bad, .badByte hlist hdict hdigit, ?_⟩
    exact {
      safe := rfl
      represents := rfl
      low := le_rfl
      sign := rfl }

end Follow

/-- A read that returns has followed the frame of its input. -/
theorem bencodeRead_follows (fuel : ℕ) : FollowsFrames (bencodeRead fuel) := by
  induction fuel with
  | zero =>
      exact {
        given := by
          intro c ctx o ctx' _ _ hcall
          cases hcall
        fetched := by
          intro ctx o ctx' _ hcall
          cases hcall }
  | succ fuel ih =>
      exact {
        given := by
          intro c ctx o ctx' hc hcount hcall
          rw [bencodeRead, if_pos hc] at hcall
          exact dispatch_follows ih hcount hcall
        fetched := by
          rintro ⟨f, count⟩ o ctx' hcount hcall
          rw [bencodeRead, if_neg (by decide)] at hcall
          dsimp only at hcount hcall ⊢
          cases f with
          | nil =>
              obtain ⟨rfl, rfl⟩ := ok_pair_inj hcall
              refine ⟨.bad, .eof, ?_⟩
              exact {
                safe := rfl
                represents := rfl
                low := le_rfl
                sign := rfl }
          | cons c f => exact dispatch_follows ih (show 0 ≤ count + 1 by omega) hcall }

/-! ## Safe frames are read -/

/-- The part of a stream is read, from any count, once it is safe. -/
def Readable (f : InFile) : Part → Prop
  | .value frame => frame.safe = true → ∀ c rest count, f = c :: rest → 0 ≤ count →
      ∃ fuel result, dispatch (bencodeRead fuel) fuel (some c) { f := rest, read := count } =
        .ok result
  | .items items _ => itemsSafe items = true → ∀ vals count, -1 ≤ count →
      ∃ fuel result, readListLoop (bencodeRead fuel) fuel fuel (.list (vals ++ [.null]))
        { f := f, read := count } = .ok result
  | .entries entries _ => entriesSafe entries = true → ∀ chain dict count,
      HoldsChain chain dict → (chainFrom chain (storedKeys entries)).isSome → -1 ≤ count →
      ∃ fuel result, readDictLoop (bencodeRead fuel) fuel fuel dict { f := f, read := count } =
        .ok result

section Readable

variable {c : Byte} {f rest : InFile} {frame : Frame} {count : ℤ}

/-- A frame whose first byte was read before. -/
theorem Readable.given (hreadable : Readable (c :: f) (.value frame))
    (hframed : Framed (c :: f) (.value frame) rest) (hsafe : frame.safe = true) (hc : c ≠ 0)
    (hcount : 0 ≤ count) :
    ∃ fuel o count', bencodeRead fuel c { f := f, read := count } =
        .ok (o, { f := rest, read := count' }) ∧ Delivered frame count o count' := by
  obtain ⟨fuel, ⟨o, after⟩, hcall⟩ := hreadable hsafe c f count rfl hcount
  have hread : bencodeRead (fuel + 1) c { f := f, read := count } = .ok (o, after) := by
    rw [bencodeRead, if_pos hc]
    exact hcall
  obtain ⟨frame', hframed', hdelivered⟩ :=
    (bencodeRead_follows (fuel + 1)).given _ _ _ _ hc hcount hread
  obtain ⟨rfl, rfl⟩ := hframed.frame_unique hframed'
  exact ⟨fuel + 1, o, after.read, hread, hdelivered⟩

/-- A frame whose first byte is fetched. -/
theorem Readable.fetched (hreadable : Readable f (.value frame))
    (hframed : Framed f (.value frame) rest) (hsafe : frame.safe = true) (hcount : -1 ≤ count) :
    ∃ fuel o count', bencodeRead fuel 0 { f := f, read := count } =
        .ok (o, { f := rest, read := count' }) ∧ Delivered frame (count + 1) o count' := by
  have hcall : ∃ fuel result, bencodeRead fuel 0 { f := f, read := count } = .ok result := by
    cases f with
    | nil => exact ⟨1, _, rfl⟩
    | cons c f =>
        obtain ⟨fuel, result, hcall⟩ := hreadable hsafe c f (count + 1) rfl (by omega)
        exact ⟨fuel + 1, result, hcall⟩
  obtain ⟨fuel, ⟨o, after⟩, hread⟩ := hcall
  obtain ⟨frame', hframed', hdelivered⟩ := (bencodeRead_follows fuel).fetched _ _ _ hcount hread
  obtain ⟨rfl, rfl⟩ := hframed.frame_unique hframed'
  exact ⟨fuel, o, after.read, hread, hdelivered⟩

/-- One turn of the list loop and the turns after it. -/
theorem exists_readListLoop {vals : List (ObjPtr BencodeObj)} {item : Frame}
    {o : Option BencodeObj} {middle : ReadCtx} {readFuel : ℕ} (hend : c ≠ ch 'e')
    (hread : bencodeRead readFuel c { f := f, read := count + 1 } = .ok (o, middle))
    (hrep : Represents item o) (hreleasable : item.releasable = true)
    (hrest : ∃ fuel result, readListLoop (bencodeRead fuel) fuel fuel
      (.list ((vals ++ [itemPtr item]) ++ [.null])) middle = .ok result) :
    ∃ fuel result, readListLoop (bencodeRead fuel) fuel fuel (.list (vals ++ [.null]))
      { f := c :: f, read := count } = .ok result := by
  obtain ⟨freeFuel, hfree⟩ := hrep.frees_iff.mpr hreleasable
  obtain ⟨restFuel, result, hrest⟩ := hrest
  obtain ⟨fuel, hreadFuel, hfreeFuel, hrestFuel⟩ :
      ∃ fuel, readFuel ≤ fuel + 1 ∧ freeFuel ≤ fuel + 1 ∧ restFuel ≤ fuel :=
    ⟨readFuel + freeFuel + restFuel, by omega, by omega, by omega⟩
  refine ⟨fuel + 1, result, ?_⟩
  have happend : bencodeObjListAppend (.list (vals ++ [.null])) (Read.appendedItem o) =
      .ok (.list ((vals ++ [itemPtr item]) ++ [.null])) := by
    rw [bencodeObjListAppend, hrep.appendedItem, List.dropLast_concat, List.append_assoc]
    rfl
  rw [readListLoop]
  simp only [fgetc, if_neg hend, bencodeRead_keeps hreadFuel _ _ _ hread, ok_bind, happend,
    freeIfSet_keeps (bencodeObjFree_keeps hfreeFuel) _ _ hfree]
  exact readListLoop_keeps (bencodeRead_keeps (by omega)) (by omega) hrestFuel _ _ _ hrest

/-- One turn of the dict loop and the turns after it. -/
theorem exists_readDictLoop {dict dict' : BencodeObj} {middle : ReadCtx} {itemFuel : ℕ}
    (hend : c ≠ ch 'e')
    (hitem : bencodeReadDictItem (bencodeRead itemFuel) itemFuel dict c
      { f := f, read := count + 1 } = .ok (dict', middle))
    (hrest : ∃ fuel result, readDictLoop (bencodeRead fuel) fuel fuel dict' middle = .ok result) :
    ∃ fuel result, readDictLoop (bencodeRead fuel) fuel fuel dict { f := c :: f, read := count } =
      .ok result := by
  obtain ⟨restFuel, result, hrest⟩ := hrest
  obtain ⟨fuel, hitemFuel, hrestFuel⟩ : ∃ fuel, itemFuel ≤ fuel + 1 ∧ restFuel ≤ fuel :=
    ⟨itemFuel + restFuel, by omega, by omega⟩
  refine ⟨fuel + 1, result, ?_⟩
  rw [readDictLoop]
  simp only [fgetc, if_neg hend,
    bencodeReadDictItem_keeps (bencodeRead_keeps hitemFuel) hitemFuel _ _ _ _ hitem, ok_bind]
  exact readDictLoop_keeps (bencodeRead_keeps (by omega)) (by omega) hrestFuel _ _ _ hrest

theorem exists_setIfRead {chain chain' : KeyChain} {key : List Byte} {value : Frame}
    {v : Option BencodeObj} {dict : BencodeObj} (ctx : ReadCtx) (hholds : HoldsChain chain dict)
    (hrep : Represents value v) (hsign : signOf ctx.read = value.sign .positive)
    (hstorable : value.stored = true → key ≠ [] ∧ value.storable = true)
    (hchain : chainFrom chain (storedKey key value) = some chain') :
    ∃ fuel dict', setIfRead fuel dict (some (.str key)) v ctx = .ok dict' ∧
      HoldsChain chain' dict' := by
  have hstored := stored_iff hsign
  by_cases hpos : 0 < ctx.read
  · rw [storedKey, if_pos (hstored.mpr hpos)] at hchain
    have hset : chain.set (ofBuffer key) = some chain' := by simpa [chainFrom] using hchain
    obtain ⟨hkey, hcopy⟩ := hstorable (hstored.mpr hpos)
    cases v with
    | none =>
        have hbad := not_storable_of_isBad (hrep.eq_none_iff.mp rfl)
        exact absurd hcopy (by simp [hbad])
    | some obj =>
        have hflat := hrep.flat hcopy
        obtain ⟨valueData, hvalue, hobj⟩ := id hflat
        obtain ⟨cloneFuel, hclone⟩ := hvalue.exists_clone
        obtain ⟨fuel, hcloneFuel, hkeys⟩ :
            ∃ fuel, cloneFuel ≤ fuel ∧ chain.keys.length + 1 < fuel :=
          ⟨cloneFuel + chain.keys.length + 2, by omega, by omega⟩
        obtain ⟨copy, hcopied⟩ := hclone fuel obj hcloneFuel hobj
        obtain ⟨dict', hcall, hholds'⟩ := hholds.exists_set hset hcopied
          (stored_of_clone hflat hcopied) hkeys
        refine ⟨fuel, dict', ?_, hholds'⟩
        have hlength : ¬ key.length = 0 := by simpa using hkey
        rw [setIfRead, if_pos hpos, deref_some, ok_bind, strData, if_neg hlength]
        exact hcall
  · have hnot : ¬ value.stored = true := fun htrue => hpos (hstored.mp htrue)
    rw [storedKey, if_neg hnot] at hchain
    obtain rfl : chain = chain' := by simpa [chainFrom] using hchain
    exact ⟨0, dict, by rw [setIfRead, if_neg hpos], hholds⟩

/-- A dict item that has a key. -/
theorem exists_readDictItem {chain chain' : KeyChain} {key : List Byte} {value : Frame}
    {dict : BencodeObj} {afterKey middle : InFile} (hstr : strFrame f = .ok (some key, afterKey))
    (hreadable : Readable afterKey (.value value)) (hframed : Framed afterKey (.value value) middle)
    (hsafe : value.safe = true) (hreleasable : value.releasable = true)
    (hstorable : value.stored = true → key ≠ [] ∧ value.storable = true)
    (hchain : chainFrom chain (storedKey key value) = some chain')
    (hholds : HoldsChain chain dict) (hcount : -1 ≤ count) :
    ∃ fuel dict' count', bencodeReadDictItem (bencodeRead fuel) fuel dict c
        { f := f, read := count + 1 } = .ok (dict', { f := middle, read := count' }) ∧
      HoldsChain chain' dict' ∧ -1 ≤ count' := by
  obtain ⟨keyCount, hkey, _, hgrows⟩ :=
    bencodeReadStr_of_strFrame c { f := f, read := count + 1 } hstr
  have hpositive : count + 1 < keyCount := hgrows (by simp)
  obtain ⟨readFuel, v, count', hread, hdelivered⟩ :=
    hreadable.fetched hframed hsafe (show -1 ≤ keyCount by omega)
  have hsign := hdelivered.sign
  rw [signOf_of_pos (show 0 < keyCount + 1 by omega)] at hsign
  obtain ⟨setFuel, dict', hset, hholds'⟩ := exists_setIfRead
    { f := middle, read := count' } hholds hdelivered.represents hsign hstorable hchain
  obtain ⟨keyFuel, hfreeKey⟩ := frees_str key
  obtain ⟨valueFuel, hfreeValue⟩ := hdelivered.represents.frees_iff.mpr hreleasable
  obtain ⟨fuel, hreadFuel, hsetFuel, hkeyFuel, hvalueFuel⟩ :
      ∃ fuel, readFuel ≤ fuel ∧ setFuel ≤ fuel ∧ keyFuel ≤ fuel ∧ valueFuel ≤ fuel :=
    ⟨readFuel + setFuel + keyFuel + valueFuel, by omega, by omega, by omega, by omega⟩
  refine ⟨fuel, dict', count', ?_, hholds', hdelivered.low⟩
  have hreadKey : ¬ keyCount < 0 := by omega
  simp only [bencodeReadDictItem, hkey, ok_bind, Option.map_some, if_neg hreadKey,
    bencodeRead_keeps hreadFuel _ _ _ hread, setIfRead_keeps hsetFuel _ _ _ _ _ hset,
    show freeIfSet (bencodeObjFree fuel) (some (.str key)) = .ok () from
      bencodeObjFree_keeps hkeyFuel _ _ hfreeKey,
    freeIfSet_keeps (bencodeObjFree_keeps hvalueFuel) _ _ hfreeValue]

/-- A dict item without a key leaves the dict as it is. -/
theorem readDictItem_noKey {dict : BencodeObj} {middle : InFile}
    (hstr : strFrame f = .ok (none, middle)) (fuel : ℕ) :
    bencodeReadDictItem (bencodeRead fuel) fuel dict c { f := f, read := count + 1 } =
      .ok (dict, { f := middle, read := -1 }) := by
  obtain ⟨keyCount, hkey, hfailed, _⟩ :=
    bencodeReadStr_of_strFrame c { f := f, read := count + 1 } hstr
  simp only [bencodeReadDictItem, hkey, ok_bind, hfailed rfl]
  rfl

end Readable

/-- Every part of a stream that has a safe frame is read. -/
theorem readable_of_framed {f rest : InFile} {part : Part} (hframed : Framed f part rest) :
    Readable f part := by
  induction hframed with
  | eof =>
      intro _ c rest count hf
      cases hf
  | badByte hlist hdict hdigit =>
      intro _ c rest count hf _
      obtain ⟨rfl, rfl⟩ := List.cons.inj hf
      exact ⟨0, (none, { f := _, read := -1 }), by
        rw [dispatch, if_neg hlist, if_neg hdict, if_neg hdigit]⟩
  | str hdigit hstr =>
      intro _ c rest count hf _
      obtain ⟨rfl, rfl⟩ := List.cons.inj hf
      obtain ⟨count', hcall, _⟩ :=
        bencodeReadStr_of_strFrame _ { f := _, read := count } hstr
      have hlist : ¬ _ = ch 'l' := fun heq => isDigit_l (heq ▸ hdigit)
      have hdict : ¬ _ = ch 'd' := fun heq => isDigit_d (heq ▸ hdigit)
      exact ⟨0, _, by rw [dispatch, if_neg hlist, if_neg hdict, if_pos hdigit, hcall]⟩
  | list _ ihItems =>
      intro hsafe c rest count hf hcount
      obtain ⟨rfl, rfl⟩ := List.cons.inj hf
      obtain ⟨fuel, ⟨list, ctx⟩, hloop⟩ := ihItems hsafe [] count (by omega)
      refine ⟨fuel, (some list, ctx), ?_⟩
      rw [dispatch, if_pos rfl, show bencodeObjList = .list ([] ++ [.null]) from rfl, hloop]
      rfl
  | dict _ ihEntries =>
      intro hsafe c rest count hf hcount
      obtain ⟨rfl, rfl⟩ := List.cons.inj hf
      obtain ⟨hentries, hchain⟩ := Bool.and_eq_true_iff.mp hsafe
      obtain ⟨fuel, ⟨dict, ctx⟩, hloop⟩ :=
        ihEntries hentries .empty bencodeObjDict count holdsChain_empty hchain (by omega)
      refine ⟨fuel, (some dict, ctx), ?_⟩
      rw [dispatch, if_neg (by decide), if_pos rfl, hloop]
      rfl
  | itemsOpen => exact fun _ vals count _ => ⟨1, _, rfl⟩
  | itemsEnd => exact fun _ vals count _ => ⟨1, _, rfl⟩
  | itemsSkip hitem _ ihItem ihItems =>
      intro hsafe vals count hcount
      simp only [itemsSafe, Bool.and_eq_true, Frame.safe] at hsafe
      obtain ⟨⟨hsafeItem, hreleasable⟩, hsafeItems⟩ := hsafe
      obtain ⟨readFuel, o, count', hread, hdelivered⟩ :=
        ihItem.fetched hitem hsafeItem (show -1 ≤ count + 1 by omega)
      exact exists_readListLoop (by decide) hread
        (show Represents (.skip _) o from hdelivered.represents) hreleasable
        (ihItems hsafeItems _ _ hdelivered.low)
  | itemsCons hend hzero hitem _ ihItem ihItems =>
      intro hsafe vals count hcount
      simp only [itemsSafe, Bool.and_eq_true] at hsafe
      obtain ⟨⟨hsafeItem, hreleasable⟩, hsafeItems⟩ := hsafe
      obtain ⟨readFuel, o, count', hread, hdelivered⟩ :=
        ihItem.given hitem hsafeItem hzero (show 0 ≤ count + 1 by omega)
      exact exists_readListLoop hend hread hdelivered.represents hreleasable
        (ihItems hsafeItems _ _ hdelivered.low)
  | entriesOpen => exact fun _ _ dict count _ _ _ => ⟨1, _, rfl⟩
  | entriesEnd => exact fun _ _ dict count _ _ _ => ⟨1, _, rfl⟩
  | entriesNoKey hend hstr _ ihEntries =>
      intro hsafe chain dict count hholds hchain _
      exact exists_readDictLoop hend (readDictItem_noKey hstr 0)
        (ihEntries hsafe chain dict (-1) hholds hchain le_rfl)
  | @entriesCons c f key afterKey value middle entries closed rest hend hstr hvalue _ ihValue
      ihEntries =>
      intro hsafe chain dict count hholds hchain hcount
      simp only [entriesSafe, Bool.and_eq_true] at hsafe
      obtain ⟨⟨⟨hsafeValue, hreleasable⟩, hstorable⟩, hsafeEntries⟩ := hsafe
      obtain ⟨last, hlast⟩ := Option.isSome_iff_exists.mp hchain
      rw [storedKeys_cons, chainFrom_append, Option.bind_eq_some_iff] at hlast
      obtain ⟨chain', hchain', hentriesChain⟩ := hlast
      obtain ⟨itemFuel, dict', count', hitem, hholds', hcount'⟩ :=
        exists_readDictItem hstr ihValue hvalue hsafeValue hreleasable
          (by intro hstored; simpa [hstored] using hstorable) hchain' hholds hcount
      exact exists_readDictLoop hend hitem
        (ihEntries hsafeEntries chain' dict' count' hholds' (by simp [hentriesChain]) hcount')

/-! ## The reader returns exactly on safe streams -/

theorem exists_safe_frame {fuel : ℕ} {f : InFile} {result : ℤ × Option BencodeObj × InFile}
    (hread : bencodeReadFile fuel f = .ok result) :
    ∃ frame rest, Framed f (.value frame) rest ∧ frame.safe = true := by
  obtain ⟨⟨o, ctx⟩, hcall, _⟩ := bind_eq_ok.mp hread
  obtain ⟨frame, hframed, hdelivered⟩ :=
    (bencodeRead_follows fuel).fetched _ _ _ (show (-1 : ℤ) ≤ 0 by decide) hcall
  exact ⟨frame, ctx.f, hframed, hdelivered.safe⟩

/-- `bencode_read_file` terminates, without a fault on the way, exactly on the
streams that have a safe frame. -/
theorem bencodeReadFile_returns_iff (f : InFile) :
    (∃ fuel result, bencodeReadFile fuel f = .ok result) ↔
      ∃ frame rest, Framed f (.value frame) rest ∧ frame.safe = true := by
  constructor
  · rintro ⟨fuel, result, hread⟩
    exact exists_safe_frame hread
  · rintro ⟨frame, rest, hframed, hsafe⟩
    obtain ⟨fuel, o, count, hread, _⟩ :=
      (readable_of_framed hframed).fetched hframed hsafe (show (-1 : ℤ) ≤ 0 by decide)
    refine ⟨fuel, (count, o, rest), ?_⟩
    rw [bencodeReadFile, hread]
    rfl

theorem strFrame_colon (tail : InFile) : strFrame (ch ':' :: tail) = .ok (some [], tail) := by
  obtain ⟨result, hstr, hresult, _⟩ := exists_strFrame (bencodeReadStr_colon 0 tail 0)
  cases result with
  | none => cases hresult
  | some data =>
      obtain rfl : [] = data := by simpa using hresult
      exact hstr

/-- The stream `d0:0:e` hands `bencode_obj_dict_set` the null data of an empty
key. -/
theorem bencodeReadFile_emptyKey_never_returns :
    ¬ ∃ fuel result, bencodeReadFile fuel
      [ch 'd', ch '0', ch ':', ch '0', ch ':', ch 'e'] = .ok result := by
  rintro ⟨fuel, result, hread⟩
  obtain ⟨frame, rest, hframed, hsafe⟩ := exists_safe_frame hread
  have hvalue : Framed [ch '0', ch ':', ch 'e'] (.value (.str [])) [ch 'e'] :=
    .str (by decide) (strFrame_colon _)
  have hentry : Framed [ch 'd', ch '0', ch ':', ch '0', ch ':', ch 'e']
      (.value (.dict [some ([], .str [])] true)) [] :=
    .dict (.entriesCons (by decide) (strFrame_colon _) hvalue .entriesEnd)
  obtain ⟨rfl, _⟩ := hframed.frame_unique hentry
  exact absurd hsafe (by decide)

end I2pLite.ReadFrame
