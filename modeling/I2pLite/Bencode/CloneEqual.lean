import I2pLite.Bencode.DictRun

/-!
# Copies that are equal

A clone sets the entries of a dict one in front of the other, and clones every
value twice.  What comes out is turned around, so that a dict inside another
one is only copied where this makes no difference.
-/

namespace I2pLite.CloneEqual

open I2pLite.CRun
open I2pLite.CBytes
open I2pLite.LinkedChain
open I2pLite.Bencoding
open I2pLite.BencodeObject
open I2pLite.Denotation
open I2pLite.DictSet
open I2pLite.Clone
open I2pLite.DictRun

/-! ## Equal values -/

mutual

/-- Equal up to the order of the entries in dicts. -/
inductive SameValue : BencodeValue → BencodeValue → Prop
  | str (data : List Byte) : SameValue (.str data) (.str data)
  | int (value : ℤ) : SameValue (.int value) (.int value)
  | list {items items' : List BencodeValue} :
      SameItems items items' → SameValue (.list items) (.list items')
  | dict {entries entries' : List (List Byte × BencodeValue)} :
      SameEntries entries entries' → SameValue (.dict entries) (.dict entries')

inductive SameItems : List BencodeValue → List BencodeValue → Prop
  | nil : SameItems [] []
  | cons {item item' : BencodeValue} {items items' : List BencodeValue} :
      SameValue item item' → SameItems items items' → SameItems (item :: items) (item' :: items')

inductive SameEntries :
    List (List Byte × BencodeValue) → List (List Byte × BencodeValue) → Prop
  | nil : SameEntries [] []
  | cons {key : List Byte} {value value' : BencodeValue}
      {entries entries' : List (List Byte × BencodeValue)} :
      SameValue value value' → SameEntries entries entries' →
      SameEntries ((key, value) :: entries) ((key, value') :: entries')
  | swap (first second : List Byte × BencodeValue) (entries : List (List Byte × BencodeValue)) :
      SameEntries (second :: first :: entries) (first :: second :: entries)
  | trans {entries middle entries' : List (List Byte × BencodeValue)} :
      SameEntries entries middle → SameEntries middle entries' → SameEntries entries entries'

end

mutual

theorem SameValue.refl : ∀ value, SameValue value value
  | .str data => .str data
  | .int value => .int value
  | .list items => .list (SameItems.refl items)
  | .dict entries => .dict (SameEntries.refl entries)

theorem SameItems.refl : ∀ items, SameItems items items
  | [] => .nil
  | item :: items => .cons (SameValue.refl item) (SameItems.refl items)

theorem SameEntries.refl : ∀ entries, SameEntries entries entries
  | [] => .nil
  | (_, value) :: entries => .cons (SameValue.refl value) (SameEntries.refl entries)

end

theorem SameEntries.of_perm {entries entries' : List (List Byte × BencodeValue)}
    (hperm : entries.Perm entries') : SameEntries entries entries' := by
  induction hperm with
  | nil => exact .nil
  | cons entry _ ih => exact .cons (.refl entry.2) ih
  | swap first second entries => exact .swap first second entries
  | trans _ _ ih ih' => exact .trans ih ih'

theorem denotesEntries_iff {entries : List (List Byte × BencodeValue)}
    {held : List (CString × BencodeObj)} :
    DenotesEntries entries held ↔
      List.Forall₂ (fun entry call => call.1.bytes = entry.1 ∧ Denotes entry.2 call.2)
        entries held := by
  induction entries generalizing held with
  | nil => rw [List.forall₂_nil_left_iff]; rfl
  | cons entry entries ih =>
      obtain ⟨key, value⟩ := entry
      rw [List.forall₂_cons_left_iff]
      constructor
      · rintro ⟨name, obj, rest, rfl, hname, hobj, hrest⟩
        exact ⟨(name, obj), rest, ⟨hname, hobj⟩, ih.mp hrest, rfl⟩
      · rintro ⟨call, rest, ⟨hname, hobj⟩, hrest, rfl⟩
        exact ⟨call.1, call.2, rest, rfl, hname, hobj, ih.mpr hrest⟩

/-! ## Copies -/

/-- Lists and dicts are finite, and there is an object behind each item and
entry. -/
def WellFormed (obj : BencodeObj) : Prop := ∃ value, Denotes value obj

/-- The objects have the same strings, integers, list items and bindings. -/
def EqualObj (obj copy : BencodeObj) : Prop :=
  ∃ value value', Denotes value obj ∧ Denotes value' copy ∧ SameValue value value'

/-- The clone of the object returns, and what it returns is equal to it.  The
object is left as it was: the copy shares no node with it. -/
def ClonesEqual (obj : BencodeObj) : Prop :=
  ∃ bound, ∀ fuel, bound ≤ fuel →
    ∃ copy, bencodeObjClone fuel obj = .ok copy ∧ EqualObj obj copy

/-- A dict of flat values whose keys descend along its chain. -/
def Descending (obj : BencodeObj) : Prop :=
  ∃ held, DictHolds obj held ∧ (held.map Prod.fst).Pairwise (· > ·) ∧ ∀ entry ∈ held, Flat entry.2

section Copies

variable {obj copy val : BencodeObj} {held : List (CString × BencodeObj)} {fuel : ℕ}

theorem equalObj_of_sameObj (hsame : SameObj obj copy) : EqualObj obj copy := by
  obtain ⟨value, hobj, hcopy⟩ := hsame
  exact ⟨value, value, hobj, hcopy, .refl value⟩

/-- The entries of a dict are turned around. -/
theorem InOrder.equalObj (hholds : DictHolds obj held) (horder : InOrder held copy) :
    EqualObj obj copy := by
  obtain ⟨entries, hcopy, hentries⟩ := horder.holds
  have hvalues : ∃ values, DenotesEntries values held.reverse ∧ DenotesEntries values entries := by
    clear hcopy
    generalize held.reverse = calls at hentries
    induction hentries with
    | nil => exact ⟨[], rfl, rfl⟩
    | @cons call entry calls entries hcall _ ih =>
        obtain ⟨values, hcalls, hrest⟩ := ih
        obtain ⟨hkey, value, hval, hstored⟩ := hcall
        exact ⟨(call.1.bytes, value) :: values, ⟨_, _, _, rfl, rfl, hval, hcalls⟩,
          ⟨_, _, _, rfl, by rw [hkey], hstored, hrest⟩⟩
  obtain ⟨values, hcalls, hvals⟩ := hvalues
  have hheld : DenotesEntries values.reverse held := by
    rw [denotesEntries_iff, ← List.forall₂_reverse_iff, List.reverse_reverse]
    exact denotesEntries_iff.mp hcalls
  exact ⟨.dict values.reverse, .dict values, ⟨held, hholds, hheld⟩, ⟨entries, hcopy, hvals⟩,
    .dict (.of_perm (List.reverse_perm values))⟩

theorem iterDictFrom_endless_ne_ok {S : Type} {nodes : DictStore}
    {visit : CString → BencodeObj → S → Run S} {start : Option ℕ}
    (hendless : Endless (links nodes) start) (fuel : ℕ) {user user' : S} :
    iterDictFrom nodes visit fuel start user ≠ .ok user' := by
  obtain ⟨region, hstart, hregion⟩ := hendless
  intro hwalk
  induction fuel generalizing start user with
  | zero =>
      obtain ⟨cell, _, rfl⟩ := hstart
      cases hwalk
  | succ fuel ih =>
      obtain ⟨cell, hcell, rfl⟩ := hstart
      obtain ⟨next, hnext, hlink⟩ := hregion cell hcell
      obtain ⟨node, hnode, hnodeNext⟩ := links_eq_some_iff.mp hlink
      rw [iterDictFrom, nodeAt_of_getElem? hnode, ok_bind] at hwalk
      dsimp only at hwalk
      split at hwalk
      · obtain ⟨middle, _, hrest⟩ := bind_eq_ok.mp hwalk
        exact ih ⟨next, hnext, hnodeNext⟩ hrest
      · exact ih ⟨next, hnext, hnodeNext⟩ hwalk

/-- A chain that never ends is not cloned. -/
theorem clone_endless_ne_ok (hendless : EndlessDict obj) (fuel : ℕ) :
    bencodeObjClone fuel obj ≠ .ok copy := by
  obtain ⟨nodes, head, rfl, hhead, hkey, hnext⟩ := hendless
  intro hclone
  match fuel with
  | 0 => cases hclone
  | 1 => cases hclone
  | fuel + 2 =>
      rw [bencodeObjClone, bencodeObjIterDict, iterDictFrom_head hhead hkey] at hclone
      exact iterDictFrom_endless_ne_ok hnext fuel hclone

/-- A dict whose entries have been turned around is not turned around again. -/
theorem flat_or_startsAscending (hholds : DictHolds obj held) (horder : InOrder held copy) :
    Flat obj ∨ StartsAscending copy := by
  match held with
  | [] => exact Or.inl ⟨.dict [], .empty, denotes_dict_nil.mpr hholds⟩
  | [(name, val)] =>
      exact Or.inl (flat_of_dictHolds_single hholds (horder.flat (name, val) (by simp)))
  | first :: second :: rest =>
      obtain ⟨entries, hcopy, hentries⟩ := horder.holds
      have hascending := horder.ascending
      have hlength := hentries.length_eq
      rw [keys_eq hentries] at hascending
      rw [List.length_reverse] at hlength
      match entries, hlength with
      | left :: right :: others, _ =>
          refine Or.inr (startsAscending_of_dictHolds hcopy ?_)
          exact (List.pairwise_cons.mp hascending).1 right.1 (by simp)

/-- The three kinds of objects that are clone's own, and the dicts. -/
theorem wellFormed_cases (hwell : WellFormed obj) :
    Flat obj ∨ (∃ vals, obj = .list (vals ++ [.null])) ∨
      ∃ held, DictHolds obj held ∧ ∀ entry ∈ held, WellFormed entry.2 := by
  obtain ⟨value, hobj⟩ := hwell
  cases value with
  | str data => exact Or.inl ⟨_, .str data, hobj⟩
  | int value => exact Or.inl ⟨_, .int value, hobj⟩
  | list items =>
      obtain ⟨vals, rfl, _⟩ := hobj
      exact Or.inr (Or.inl ⟨vals, rfl⟩)
  | dict entries =>
      obtain ⟨held, hholds, hheld⟩ := hobj
      refine Or.inr (Or.inr ⟨held, hholds, fun call hcall => ?_⟩)
      obtain ⟨entry, _, _, hval⟩ := exists_left_of_mem (denotesEntries_iff.mp hheld) hcall
      exact ⟨entry.2, hval⟩

/-! ### The entries of a dict -/

/-- What the callback of a clone makes of an entry. -/
def copyEntry (fuel : ℕ) (copy : BencodeObj) (entry : Call) : Run BencodeObj := do
  let valClone ← bencodeObjClone fuel entry.2
  dictSetWith (bencodeObjClone fuel) fuel copy (some entry.1) valClone

/-- The values that a clone turns around can be cloned. -/
def CloneTurns (fuel : ℕ) (obj : BencodeObj) : Prop :=
  ∀ copy, bencodeObjClone fuel obj = .ok copy →
    Flat obj ∨ (∃ held, DictHolds obj held ∧ InOrder held copy) ∨ EndlessDict copy

/-- What can be cloned, and cloned again, is flat. -/
theorem CloneTurns.flat (hturns : CloneTurns fuel obj)
    (hclone : bencodeObjClone fuel obj = .ok val) (hagain : bencodeObjClone fuel val = .ok copy) :
    Flat obj := by
  rcases hturns val hclone with hflat | ⟨held, hholds, horder⟩ | hendless
  · exact hflat
  · rcases flat_or_startsAscending hholds horder with hflat | hascending
    · exact hflat
    · exact absurd hagain (hascending.clone_ne_ok fuel)
  · exact absurd hagain (clone_endless_ne_ok hendless fuel)

theorem sameObj_trans_clone (hflat : Flat obj) (hclone : bencodeObjClone fuel obj = .ok val)
    (hagain : bencodeObjClone fuel val = .ok copy) : SameObj obj copy := by
  obtain ⟨value, hvalue, hobj⟩ := hflat
  exact ⟨value, hobj, hvalue.denotes_clone (hvalue.denotes_clone hobj hclone) hagain⟩

/-- The entries are turned around, or a cycle is closed. -/
theorem foldlM_copyEntry_cases (hvals : ∀ entry ∈ held, CloneTurns fuel entry.2)
    (hfold : held.foldlM (copyEntry fuel) bencodeObjDict = .ok copy) :
    InOrder held copy ∨ EndlessDict copy := by
  induction held using List.reverseRecOn generalizing copy with
  | nil =>
      obtain rfl := Except.ok.inj hfold
      exact Or.inl inOrder_nil
  | append_singleton held entry ih =>
      rw [List.foldlM_append, bind_eq_ok] at hfold
      obtain ⟨before, hbefore, hlast⟩ := hfold
      rw [List.foldlM_cons, bind_eq_ok] at hlast
      obtain ⟨after, hentry, hafter⟩ := hlast
      obtain rfl := Except.ok.inj hafter
      obtain ⟨valClone, hclone, hset⟩ := bind_eq_ok.mp hentry
      rcases ih (fun other hother => hvals other (by simp [hother])) hbefore with horder | hendless
      · refine horder.stored (fun valCopy hagain => ?_) hset
        have hflat := (hvals entry (by simp)).flat hclone hagain
        exact ⟨hflat, sameObj_trans_clone hflat hclone hagain⟩
      · exact Or.inr (endlessDict_set hendless hset)

theorem cloneTurns (hwell : WellFormed obj) (fuel : ℕ) : CloneTurns fuel obj := by
  induction fuel generalizing obj with
  | zero => exact fun copy hclone => by cases hclone
  | succ fuel ih =>
      intro copy hclone
      rcases wellFormed_cases hwell with hflat | ⟨vals, rfl⟩ | ⟨held, hholds, hvals⟩
      · exact Or.inl hflat
      · exact absurd hclone (clone_list_ne_ok (fuel + 1))
      · rw [clone_of_dictHolds hholds] at hclone
        have hfold := foldlM_of_bencodeObjIterDict hholds hclone
        rcases foldlM_copyEntry_cases (fun entry hentry => ih (hvals entry hentry)) hfold with
          horder | hendless
        · exact Or.inr (Or.inl ⟨held, hholds, horder⟩)
        · exact Or.inr (Or.inr hendless)

/-- From some fuel on, descending entries are turned around. -/
theorem exists_foldlM_copyEntry (hdescending : (held.map Prod.fst).Pairwise (· > ·))
    (hflat : ∀ entry ∈ held, Flat entry.2) :
    ∃ bound, ∀ fuel, bound ≤ fuel →
      ∃ copy, held.foldlM (copyEntry fuel) bencodeObjDict = .ok copy ∧ InOrder held copy := by
  induction held using List.reverseRecOn with
  | nil => exact ⟨0, fun fuel _ => ⟨bencodeObjDict, rfl, inOrder_nil⟩⟩
  | append_singleton held entry ih =>
      rw [List.map_append, List.pairwise_append] at hdescending
      obtain ⟨hheld, _, hlast⟩ := hdescending
      obtain ⟨bound, hbound⟩ := ih hheld fun entry hentry => hflat entry (by simp [hentry])
      obtain ⟨value, hvalue, hval⟩ := hflat entry (by simp)
      obtain ⟨cloneBound, hclones⟩ := hvalue.exists_clone
      refine ⟨bound + cloneBound + 1, fun fuel hfuel => ?_⟩
      obtain ⟨before, hfold, horder⟩ := hbound fuel (by omega)
      obtain ⟨valClone, hclone⟩ := hclones fuel entry.2 (by omega) hval
      obtain ⟨valCopy, hagain⟩ := hclones fuel valClone (by omega)
        (hvalue.denotes_clone hval hclone)
      have hbelow : ∀ earlier ∈ held, entry.1 < earlier.1 := fun earlier hearlier =>
        hlast _ (List.mem_map_of_mem hearlier) _ (by simp)
      have hsame := sameObj_trans_clone ⟨value, hvalue, hval⟩ hclone hagain
      obtain ⟨fuel, rfl⟩ := Nat.exists_eq_add_of_le' (show 1 ≤ fuel by omega)
      obtain ⟨after, hset, horder'⟩ := @InOrder.exists_front held _ fuel _ _ _ _ _ horder hbelow
        hagain (hflat entry (by simp)) hsame
      refine ⟨after, ?_, horder'⟩
      rw [List.foldlM_append, hfold, ok_bind, List.foldlM_cons, copyEntry, hclone, ok_bind, hset]
      rfl

theorem not_denotes_endless (hendless : EndlessDict obj) (value : BencodeValue) :
    ¬ Denotes value obj := by
  intro hdenotes
  obtain ⟨nodes, head, rfl, _⟩ := id hendless
  cases value with
  | str data => cases hdenotes
  | int value =>
      obtain ⟨stored, hobj, _⟩ := hdenotes
      cases hobj
  | list items =>
      obtain ⟨vals, hobj, _⟩ := hdenotes
      cases hobj
  | dict entries =>
      obtain ⟨held, hholds, _⟩ := hdenotes
      exact hendless.not_dictHolds held hholds

theorem clonesEqual_of_flat (hflat : Flat obj) : ClonesEqual obj := by
  obtain ⟨value, hvalue, hobj⟩ := hflat
  obtain ⟨bound, hclones⟩ := hvalue.exists_clone
  refine ⟨bound, fun fuel hfuel => ?_⟩
  obtain ⟨copy, hclone⟩ := hclones fuel obj hfuel hobj
  exact ⟨copy, hclone, equalObj_of_sameObj ⟨value, hobj, hvalue.denotes_clone hobj hclone⟩⟩

theorem clonesEqual_of_descending (hdescending : Descending obj) : ClonesEqual obj := by
  obtain ⟨held, hholds, hkeys, hflat⟩ := hdescending
  obtain ⟨bound, hfolds⟩ := exists_foldlM_copyEntry hkeys hflat
  refine ⟨max bound (held.length + 1) + 1, fun fuel hfuel => ?_⟩
  obtain ⟨fuel, rfl⟩ := Nat.exists_eq_add_of_le' (show 1 ≤ fuel by omega)
  obtain ⟨copy, hfold, horder⟩ := hfolds fuel (by omega)
  refine ⟨copy, ?_, InOrder.equalObj hholds horder⟩
  rw [clone_of_dictHolds hholds, bencodeObjIterDict_holds hholds (by omega)]
  exact hfold

/-- The keys of a dict that the API builds ascend, so it is copied with one
entry at most. -/
theorem clonesEqual_iff_flat (hbuilt : Built obj) : ClonesEqual obj ↔ Flat obj := by
  constructor
  · rintro ⟨bound, hclones⟩
    obtain ⟨copy, hclone, _⟩ := hclones bound le_rfl
    exact flat_of_clone hbuilt hclone
  · exact clonesEqual_of_flat

/-- Of what is well formed, a clone copies the flat objects, and the dicts of
flat values whose keys descend. -/
theorem clonesEqual_iff (hwell : WellFormed obj) :
    ClonesEqual obj ↔ Flat obj ∨ Descending obj := by
  constructor
  · rintro ⟨bound, hclones⟩
    obtain ⟨copy, hclone, value, value', _, hcopy, _⟩ := hclones bound le_rfl
    rcases cloneTurns hwell bound copy hclone with hflat | ⟨held, hholds, horder⟩ | hendless
    · exact Or.inl hflat
    · refine Or.inr ⟨held, hholds, ?_, horder.flat⟩
      have hascending := horder.ascending
      rwa [List.map_reverse, List.pairwise_reverse] at hascending
    · exact absurd hcopy (not_denotes_endless hendless value')
  · rintro (hflat | hdescending)
    · exact clonesEqual_of_flat hflat
    · exact clonesEqual_of_descending hdescending

end Copies

/-! ## Small objects -/

/-- The dict of two integers, with this key in front. -/
def pairDict (first second : CString) : BencodeObj :=
  .dict [{ next := some 1 },
    { key := some first, val := some (bencodeObjInt 1), next := some 2 },
    { key := some second, val := some (bencodeObjInt 2) }]

theorem dictHolds_pairDict (first second : CString) :
    DictHolds (pairDict first second)
      [(first, bencodeObjInt 1), (second, bencodeObjInt 2)] := by
  refine ⟨_, _, [1, 2], rfl, rfl, rfl, .cons rfl (.cons rfl .nil), ?_⟩
  exact .cons ⟨_, rfl, rfl, rfl⟩ (.cons ⟨_, rfl, rfl, rfl⟩ .nil)

theorem wellFormed_pairDict (first second : CString) : WellFormed (pairDict first second) := by
  refine ⟨.dict [(first.bytes, .int 1), (second.bytes, .int 2)], _,
    dictHolds_pairDict first second, ?_⟩
  exact ⟨_, _, _, rfl, rfl, ⟨1, rfl, rfl⟩, _, _, _, rfl, rfl, ⟨2, rfl, rfl⟩, rfl⟩

theorem keyA_lt_keyB : keyA < keyB := strcmp_neg_iff.mp (by decide)

theorem clonesEqual_iff_pairDict : ClonesEqual (pairDict keyB keyA) := by
  refine (clonesEqual_iff (wellFormed_pairDict keyB keyA)).mpr (Or.inr ?_)
  refine ⟨_, dictHolds_pairDict keyB keyA, by simpa using keyA_lt_keyB, ?_⟩
  simp only [List.mem_cons, List.not_mem_nil, or_false, forall_eq_or_imp, forall_eq]
  exact ⟨⟨_, .int 1, 1, rfl, rfl⟩, ⟨_, .int 2, 2, rfl, rfl⟩⟩

/-- A dict with sorted keys is not copied, and neither is the empty list. -/
theorem not_clonesEqual_pairDict :
    WellFormed (pairDict keyA keyB) ∧ ¬ ClonesEqual (pairDict keyA keyB) ∧
      WellFormed bencodeObjList ∧ ¬ ClonesEqual bencodeObjList := by
  refine ⟨wellFormed_pairDict keyA keyB, ?_, ⟨.list [], [], rfl, rfl⟩, ?_⟩
  · rintro ⟨bound, hclones⟩
    obtain ⟨copy, hclone, _⟩ := hclones bound le_rfl
    have hascending := startsAscending_of_dictHolds (dictHolds_pairDict keyA keyB) keyA_lt_keyB
    exact hascending.clone_ne_ok bound hclone
  · rintro ⟨bound, hclones⟩
    obtain ⟨copy, hclone, _⟩ := hclones bound le_rfl
    exact @clone_list_ne_ok [] copy bound hclone

end I2pLite.CloneEqual
