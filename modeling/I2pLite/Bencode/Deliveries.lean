import I2pLite.Bencode.Decoded
import I2pLite.Bencode.ShortStrings

/-!
# What the callers of the reader meet

A caller of `bencode_read_file` walks the dict that it gets, and releases it.
The frame of the stream says whether there is a dict, whether the count is an
error, and whether the walk and the release end; and no entry of the dict has
one of the names that the callers look for.
-/

namespace I2pLite.Deliveries

open I2pLite.CRun
open I2pLite.CBytes
open I2pLite.Stdio
open I2pLite.BencodeObject
open I2pLite.Denotation
open I2pLite.Decoded (BencodeCode)
open I2pLite.MoreFuel
open I2pLite.ChainState
open I2pLite.Read
open I2pLite.Framing
open I2pLite.ReadFrame
open I2pLite.ShortStrings

def isDictFrame : Frame → Bool
  | .dict _ _ => true
  | _ => false

/-- `bencode_obj_free`, given whether a string of the object has been released
already. -/
def releaseRead (fuel : ℕ) (released : Bool) (obj : BencodeObj) : Run Unit :=
  if released then .error .useAfterFree else bencodeObjFree fuel obj

/-- Files as `bencode_read_file` itself reads them. -/
def streamFiles (fuel : ℕ) : BencodeCode InFile where
  readFile f := do
    let (count, benc, _) ← bencodeReadFile fuel f
    .ok (count, benc)
  iterDict := bencodeObjIterDict fuel
  objFree := releaseRead fuel

theorem streamFiles_readFile_eq_ok {fuel : ℕ} {f : InFile} {count : ℤ}
    {o : Option BencodeObj} :
    (streamFiles fuel).readFile f = .ok (count, o) ↔
      ∃ rest, bencodeReadFile fuel f = .ok (count, o, rest) := by
  constructor
  · intro hread
    obtain ⟨⟨count', o', rest⟩, hcall, hresult⟩ := bind_eq_ok.mp hread
    obtain ⟨rfl, rfl⟩ := ok_pair_inj hresult
    exact ⟨rest, hcall⟩
  · rintro ⟨rest, hread⟩
    exact bind_eq_ok.mpr ⟨_, hread, rfl⟩

/-- What is delivered for the frame of a stream. -/
structure DeliveredFile (frame : Frame) (count : ℤ) (o : Option BencodeObj) : Prop where
  safe : frame.safe = true
  represents : Represents frame o
  low : -1 ≤ count
  sign : signOf count = frame.sign .positive
  short : ShortIfSet o

section Files

variable {fuel : ℕ} {f rest : InFile} {count : ℤ} {o : Option BencodeObj} {frame : Frame}

theorem deliveredFile_of_delivered (hcall : bencodeRead fuel 0 { f := f, read := 0 } =
      .ok (o, { f := rest, read := count })) (hdelivered : Delivered frame (0 + 1) o count) :
    DeliveredFile frame count o where
  safe := hdelivered.safe
  represents := hdelivered.represents
  low := hdelivered.low
  sign := hdelivered.sign
  short := bencodeRead_short fuel 0 _ o _ hcall

theorem exists_frame_of_read (hread : bencodeReadFile fuel f = .ok (count, o, rest)) :
    ∃ frame, Framed f (.value frame) rest ∧ DeliveredFile frame count o := by
  obtain ⟨⟨o', ctx⟩, hcall, hresult⟩ := bind_eq_ok.mp hread
  obtain ⟨rfl, hpair⟩ := Prod.mk.inj (Except.ok.inj hresult)
  obtain ⟨rfl, rfl⟩ := Prod.mk.inj hpair
  obtain ⟨frame, hframed, hdelivered⟩ :=
    (bencodeRead_follows fuel).fetched _ _ _ (show (-1 : ℤ) ≤ 0 by decide) hcall
  exact ⟨frame, hframed, deliveredFile_of_delivered hcall hdelivered⟩

theorem exists_read_of_frame (hframed : Framed f (.value frame) rest)
    (hsafe : frame.safe = true) :
    ∃ fuel count o, bencodeReadFile fuel f = .ok (count, o, rest) ∧
      DeliveredFile frame count o := by
  obtain ⟨fuel, o, count, hcall, hdelivered⟩ :=
    (readable_of_framed hframed).fetched hframed hsafe (show (-1 : ℤ) ≤ 0 by decide)
  refine ⟨fuel, count, o, ?_, deliveredFile_of_delivered hcall hdelivered⟩
  rw [bencodeReadFile, hcall]
  rfl

theorem bencodeReadFile_keeps {fuel' : ℕ} (hle : fuel ≤ fuel') (f : InFile) :
    Keeps (bencodeReadFile fuel f) (bencodeReadFile fuel' f) :=
  .bind (bencodeRead_keeps hle _ _) fun _ => .refl _

end Files

/-! ## The object -/

section Object

variable {frame : Frame} {count : ℤ} {o : Option BencodeObj} {obj : BencodeObj}

/-- The error flag is there exactly where the sign is negative. -/
theorem DeliveredFile.count_eq_neg_one_iff (hfile : DeliveredFile frame count o) :
    count = -1 ↔ frame.sign .positive = .negative := by
  have hlow := hfile.low
  rw [← hfile.sign, signOf]
  split_ifs with hneg hzero
  · exact iff_of_true (by omega) rfl
  · exact iff_of_false (by omega) (by simp)
  · exact iff_of_false (by omega) (by simp)

theorem DeliveredFile.count_pos_iff (hfile : DeliveredFile frame count o) :
    0 < count ↔ frame.sign .positive = .positive := by
  rw [← hfile.sign, signOf_eq_positive_iff]

/-- Without an object there is the error flag. -/
theorem DeliveredFile.exists_obj (hfile : DeliveredFile frame count o)
    (hsign : frame.sign .positive ≠ .negative) : ∃ obj, o = some obj := by
  cases o with
  | some obj => exact ⟨obj, rfl⟩
  | none =>
      have hbad := hfile.represents.eq_none_iff.mp rfl
      have hnegative : ∀ {frame : Frame} {sign : Sign}, frame.isBad = true →
          frame.sign sign = .negative := by
        intro frame
        induction frame using Frame.isBad.induct with
        | case1 => exact fun _ => rfl
        | case2 frame ih => exact fun hbad => ih hbad
        | case3 frame hnotBad hnotSkip =>
            intro sign hbad
            rw [Frame.isBad.eq_3 _ hnotBad hnotSkip] at hbad
            cases hbad
      exact absurd (hnegative hbad) hsign

theorem isDict_of_represents (hrep : Represents frame (some obj))
    (hskip : ∀ inner, frame ≠ .skip inner) : bencodeObjIsDict obj = isDictFrame frame := by
  cases frame with
  | bad => cases hrep
  | str data =>
      obtain rfl := Option.some.inj hrep
      rfl
  | list items closed =>
      obtain rfl := Option.some.inj hrep
      rfl
  | dict entries closed =>
      obtain ⟨dict, chain, hdict, _, nodes, _, _, _, rfl, _⟩ := hrep
      obtain rfl := Option.some.inj hdict
      rfl
  | skip inner => exact absurd rfl (hskip inner)

/-- A stream does not begin with an item of a list. -/
theorem ne_skip_of_framed {f rest : InFile} (hframed : Framed f (.value frame) rest)
    (inner : Frame) : frame ≠ .skip inner := by
  rintro rfl
  cases f with
  | nil => cases hframed
  | cons c f =>
      rcases hframed.value_cons with ⟨_, _, _, hframe, _⟩ | ⟨_, _, _, hframe, _⟩ |
        ⟨_, result, _, hframe⟩ | ⟨_, _, _, hframe, _⟩
      · cases hframe
      · cases hframe
      · cases result with
        | none => cases hframe
        | some data => cases hframe
      · cases hframe

/-! ## Walking and releasing it -/

theorem exists_entries {nodes : DictStore} {cells : List ℕ} {keys : List CString}
    (hkeys : List.Forall₂ (HoldsKey nodes) cells keys) :
    ∃ entries, List.Forall₂ (HoldsEntry nodes) cells entries := by
  induction hkeys with
  | nil => exact ⟨[], .nil⟩
  | cons hkey _ ih =>
      obtain ⟨entries, hentries⟩ := ih
      obtain ⟨val, hentry, _⟩ := hkey
      exact ⟨_, .cons hentry hentries⟩

theorem exists_dictHolds_of_holdsChain {chain : KeyChain} {dict : BencodeObj}
    (hholds : HoldsChain chain dict) (hlooped : chain.looped = false) :
    ∃ entries, DictHolds dict entries := by
  obtain ⟨nodes, head, cells, stop, rfl, hwalks⟩ := hholds
  obtain rfl := hwalks.ends hlooped
  obtain ⟨entries, hentries⟩ := exists_entries hwalks.keys
  exact ⟨entries, nodes, head, cells, rfl, hwalks.headNode, hwalks.headKey, hwalks.segment,
    hentries⟩

/-- The entries of a short dict have short names. -/
theorem strlen_le_of_short {dict : BencodeObj} (hdict : Short dict)
    {entries : List (CString × BencodeObj)} (hholds : DictHolds dict entries) :
    ∀ entry ∈ entries, strlen entry.1 ≤ 1 := by
  obtain ⟨nodes, head, cells, rfl, _, _, _, hentries⟩ := hholds
  intro entry hentry
  obtain ⟨cell, _, node, hnode, hkey, _⟩ := exists_left_of_mem hentries hentry
  cases hdict with
  | dict hkeys hvals => exact hkeys node (List.mem_of_getElem? hnode) _ hkey

/-- What ends the walk and the release of an object, from some fuel on. -/
structure Passes (bound : ℕ) (obj : BencodeObj) : Prop where
  releases : ∀ fuel, bound ≤ fuel → bencodeObjFree fuel obj = .ok ()
  walks : ∀ {S : Type} (visit : CString → BencodeObj → S → Run S) (user : S),
    (∀ key val user, strlen key ≤ 1 → visit key val user = .ok user) →
    ∀ fuel, bound ≤ fuel → bencodeObjIterDict fuel obj visit user = .ok user

theorem foldlM_short {S : Type} {entries : List (CString × BencodeObj)}
    {visit : CString → BencodeObj → S → Run S} (user : S)
    (hshort : ∀ entry ∈ entries, strlen entry.1 ≤ 1)
    (hvisit : ∀ key val user, strlen key ≤ 1 → visit key val user = .ok user) :
    entries.foldlM (fun user entry => visit entry.1 entry.2 user) user = .ok user := by
  induction entries with
  | nil => rfl
  | cons entry entries ih =>
      rw [List.foldlM_cons, hvisit _ _ _ (hshort entry (by simp)), ok_bind]
      exact ih fun other hother => hshort other (by simp [hother])

theorem exists_passes (hfile : DeliveredFile frame count (some obj))
    (hskip : ∀ inner, frame ≠ .skip inner) (hreleasable : frame.releasable = true) :
    ∃ bound, Passes bound obj := by
  obtain ⟨release, hfree⟩ := hfile.represents.frees_iff.mpr hreleasable
  cases hdict : bencodeObjIsDict obj with
  | false =>
      refine ⟨release, fun fuel hfuel => bencodeObjFree_keeps hfuel _ _ hfree, ?_⟩
      intro S visit user _ fuel _
      cases obj with
      | dict nodes => cases hdict
      | list vals => rfl
      | str data => rfl
      | integer value => rfl
  | true =>
      have hshort := hfile.short obj rfl
      have hentries : ∃ entries, DictHolds obj entries := by
        cases frame with
        | dict entries closed =>
            obtain ⟨dict, chain, hobj, hchain, hholds⟩ := hfile.represents
            obtain rfl := Option.some.inj hobj
            refine exists_dictHolds_of_holdsChain hholds ?_
            rw [(looped_eq_false_iff hchain).1]
            simpa [Frame.releasable] using hreleasable
        | bad => cases hfile.represents
        | str data =>
            obtain rfl := Option.some.inj hfile.represents
            cases hdict
        | list items closed =>
            obtain rfl := Option.some.inj hfile.represents
            cases hdict
        | skip inner => exact absurd rfl (hskip inner)
      obtain ⟨entries, hholds⟩ := hentries
      refine ⟨max release (entries.length + 1), fun fuel hfuel => ?_, ?_⟩
      · exact bencodeObjFree_keeps (by omega) _ _ hfree
      · intro S visit user hvisit fuel hfuel
        rw [bencodeObjIterDict_holds hholds (by omega)]
        exact foldlM_short user (strlen_le_of_short hshort hholds) hvisit

end Object

end I2pLite.Deliveries
