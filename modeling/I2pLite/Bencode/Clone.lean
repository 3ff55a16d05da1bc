import I2pLite.Bencode.DictSet

/-!
# What `bencode_obj_clone` can copy

A copy of a dict is made with `bencode_obj_dict_set`, in chain order.  On the
sorted chains that the API builds only the first entry can be put in front, so
a clone delivers a copy exactly of the flat objects: no list at any depth, and
no dict with more than one entry.
-/

namespace I2pLite.Clone

open I2pLite.CRun
open I2pLite.CBytes
open I2pLite.LinkedChain
open I2pLite.Bencoding
open I2pLite.BencodeObject
open I2pLite.Denotation
open I2pLite.DictSet

/-- No list at any depth, and at most one entry in every dict. -/
inductive FlatValue : BencodeValue → Prop
  | str (data : List Byte) : FlatValue (.str data)
  | int (value : ℤ) : FlatValue (.int value)
  | empty : FlatValue (.dict [])
  | single {key : List Byte} {value : BencodeValue} :
      FlatValue value → FlatValue (.dict [(key, value)])

/-- The object denotes a flat value. -/
def Flat (obj : BencodeObj) : Prop := ∃ value, FlatValue value ∧ Denotes value obj

theorem dictHolds_bencodeObjDict : DictHolds bencodeObjDict [] :=
  ⟨[{}], {}, [], rfl, rfl, rfl, .nil, .nil⟩

@[simp]
theorem denotes_dict_nil {obj : BencodeObj} : Denotes (.dict []) obj ↔ DictHolds obj [] := by
  simp [Denotes, DenotesEntries]

theorem denotes_dict_single {key : List Byte} {value : BencodeValue} {obj : BencodeObj} :
    Denotes (.dict [(key, value)]) obj ↔
      ∃ name val, DictHolds obj [(name, val)] ∧ name.bytes = key ∧ Denotes value val := by
  simp only [Denotes, DenotesEntries]
  constructor
  · rintro ⟨held, hholds, name, val, rest, rfl, hname, hval, rfl⟩
    exact ⟨name, val, hholds, hname, hval⟩
  · rintro ⟨name, val, hholds, hname, hval⟩
    exact ⟨_, hholds, name, val, [], rfl, hname, hval, rfl⟩

/-- Only a dict holds entries, and its clone walks it. -/
theorem clone_of_dictHolds {obj : BencodeObj} {entries : List (CString × BencodeObj)}
    (hholds : DictHolds obj entries) (fuel : ℕ) :
    bencodeObjClone (fuel + 1) obj =
      bencodeObjIterDict fuel obj
        (fun key val copy => do
          let valClone ← bencodeObjClone fuel val
          dictSetWith (bencodeObjClone fuel) fuel copy (some key) valClone)
        bencodeObjDict := by
  obtain ⟨nodes, _, _, rfl, _⟩ := hholds
  rfl

/-- A clone that returns has set one entry after the other. -/
theorem foldlM_of_clone {fuel : ℕ} {obj copy : BencodeObj}
    {entries : List (CString × BencodeObj)} (hholds : DictHolds obj entries)
    (hclone : bencodeObjClone fuel obj = .ok copy) :
    ∃ fuel', entries.foldlM
      (fun copy entry => do
        let valClone ← bencodeObjClone fuel' entry.2
        dictSetWith (bencodeObjClone fuel') fuel' copy (some entry.1) valClone)
      bencodeObjDict = .ok copy := by
  cases fuel with
  | zero => cases hclone
  | succ fuel =>
      rw [clone_of_dictHolds hholds] at hclone
      exact ⟨fuel, foldlM_of_bencodeObjIterDict hholds hclone⟩

theorem eq_of_clone_empty {fuel : ℕ} {obj copy : BencodeObj} (hholds : DictHolds obj [])
    (hclone : bencodeObjClone fuel obj = .ok copy) : copy = bencodeObjDict := by
  obtain ⟨fuel', hfold⟩ := foldlM_of_clone hholds hclone
  exact (Except.ok.inj hfold).symm

/-- The value is cloned twice, by the callback and by the setter. -/
theorem exists_of_clone_single {fuel : ℕ} {name : CString} {obj val copy : BencodeObj}
    (hholds : DictHolds obj [(name, val)]) (hclone : bencodeObjClone fuel obj = .ok copy) :
    ∃ fuel' valClone, bencodeObjClone fuel' val = .ok valClone ∧
      dictSetWith (bencodeObjClone fuel') fuel' bencodeObjDict (some name) valClone =
        .ok copy := by
  obtain ⟨fuel', hfold⟩ := foldlM_of_clone hholds hclone
  rw [List.foldlM_cons] at hfold
  obtain ⟨dict, hentry, hdict⟩ := bind_eq_ok.mp hfold
  obtain rfl := Except.ok.inj hdict
  obtain ⟨valClone, hvalClone, hset⟩ := bind_eq_ok.mp hentry
  exact ⟨fuel', valClone, hvalClone, hset⟩

/-- The first key set on a fresh dict becomes its only entry. -/
theorem dictSetWith_bencodeObjDict {clone : BencodeObj → Run BencodeObj} {fuel : ℕ}
    {name : CString} {val dict' : BencodeObj}
    (hcall : dictSetWith clone fuel bencodeObjDict (some name) val = .ok dict') :
    ∃ copy, clone val = .ok copy ∧ DictHolds dict' [(name, copy)] := by
  obtain ⟨nodes, head, copy, nodes', hdict, hhead, hcopy, rfl, houtcome⟩ :=
    dictSetWith_eq_ok hcall
  obtain rfl := BencodeObj.dict.inj hdict
  obtain rfl : ({} : DictNode BencodeObj) = head := by simpa using hhead
  cases houtcome with
  | front _ =>
      exact ⟨copy, hcopy, dictHolds_spliced_front hhead dictHolds_bencodeObjDict⟩
  | behind hbefore => exact absurd (by simp [BeforeFirst]) hbefore

/-- A clone of a flat object that returns denotes the same value. -/
theorem FlatValue.denotes_clone {value : BencodeValue} (hflat : FlatValue value) {fuel : ℕ}
    {obj copy : BencodeObj} (hobj : Denotes value obj)
    (hclone : bencodeObjClone fuel obj = .ok copy) : Denotes value copy := by
  induction hflat generalizing fuel obj copy with
  | str data =>
      simp only [Denotes] at hobj
      cases fuel with
      | zero => simp [bencodeObjClone] at hclone
      | succ fuel => simpa [hobj, bencodeObjClone, bencodeObjStr, Denotes, eq_comm] using hclone
  | int value =>
      obtain ⟨stored, rfl, hstored⟩ := hobj
      cases fuel with
      | zero => simp [bencodeObjClone] at hclone
      | succ fuel =>
          have hcopy : copy = .integer stored := by
            simpa [bencodeObjClone, bencodeObjInt, eq_comm] using hclone
          exact ⟨stored, hcopy, hstored⟩
  | empty =>
      rw [eq_of_clone_empty (denotes_dict_nil.mp hobj) hclone]
      exact denotes_dict_nil.mpr dictHolds_bencodeObjDict
  | single _ ih =>
      obtain ⟨name, val, hholds, hname, hval⟩ := denotes_dict_single.mp hobj
      obtain ⟨fuel', valClone, hvalClone, hset⟩ := exists_of_clone_single hholds hclone
      obtain ⟨valCopy, hvalCopy, hheld⟩ := dictSetWith_bencodeObjDict hset
      exact denotes_dict_single.mpr
        ⟨name, valCopy, hheld, hname, ih (ih hval hvalClone) hvalCopy⟩

/-- From some fuel on, every object that denotes a flat value is cloned. -/
theorem FlatValue.exists_clone {value : BencodeValue} (hflat : FlatValue value) :
    ∃ bound, ∀ fuel obj, bound ≤ fuel → Denotes value obj →
      ∃ copy, bencodeObjClone fuel obj = .ok copy := by
  induction hflat with
  | str data =>
      refine ⟨1, fun fuel obj hfuel hobj => ?_⟩
      obtain ⟨fuel, rfl⟩ := Nat.exists_eq_add_of_le' hfuel
      simp only [Denotes] at hobj
      exact ⟨obj, by simp [hobj, bencodeObjClone, bencodeObjStr]⟩
  | int value =>
      refine ⟨1, fun fuel obj hfuel hobj => ?_⟩
      obtain ⟨fuel, rfl⟩ := Nat.exists_eq_add_of_le' hfuel
      obtain ⟨stored, rfl, _⟩ := hobj
      exact ⟨_, rfl⟩
  | empty =>
      refine ⟨2, fun fuel obj hfuel hobj => ?_⟩
      obtain ⟨fuel, rfl⟩ := Nat.exists_eq_add_of_le' hfuel
      rw [denotes_dict_nil] at hobj
      refine ⟨bencodeObjDict, ?_⟩
      rw [clone_of_dictHolds hobj, bencodeObjIterDict_holds hobj (by simp)]
      rfl
  | @single key value hflat ih =>
      obtain ⟨bound, hbound⟩ := ih
      refine ⟨bound + 3, fun fuel obj hfuel hobj => ?_⟩
      obtain ⟨fuel, rfl⟩ := Nat.exists_eq_add_of_le' (show 3 ≤ fuel by omega)
      obtain ⟨name, val, hholds, _, hval⟩ := denotes_dict_single.mp hobj
      obtain ⟨valClone, hvalClone⟩ := hbound (fuel + 2) val (by omega) hval
      obtain ⟨valCopy, hvalCopy⟩ := hbound (fuel + 2) valClone (by omega)
        (hflat.denotes_clone hval hvalClone)
      have hset : dictSetWith (bencodeObjClone (fuel + 2)) (fuel + 2) bencodeObjDict
          (some name) valClone = .ok (.dict (spliced [{}] 0 {} none name valCopy)) :=
        dictSetWith_of_beforeFirst hvalCopy rfl (by simp [BeforeFirst])
      refine ⟨.dict (spliced [{}] 0 {} none name valCopy), ?_⟩
      rw [clone_of_dictHolds hholds, bencodeObjIterDict_holds hholds (by simp)]
      simp [hvalClone, hset]

/-! ## What cannot be copied -/

/-- The first two entries of the chain are in ascending order. -/
def StartsAscending (dict : BencodeObj) : Prop :=
  ∃ nodes head first second left right, dict = .dict nodes ∧ nodes[0]? = some head ∧
    head.key = none ∧ head.next = some first ∧ HoldsEntry nodes first left ∧
    links nodes first = some (some second) ∧ HoldsEntry nodes second right ∧
    left.1 < right.1

/-- A second key that is not below the only one sends the cursors off the chain. -/
theorem dictSetWith_single_ne_ok {clone : BencodeObj → Run BencodeObj} {fuel : ℕ}
    {entry : CString × BencodeObj} {name : CString} {dict val dict' : BencodeObj}
    (hholds : DictHolds dict [entry]) (hle : ¬ name < entry.1) :
    dictSetWith clone fuel dict (some name) val ≠ .ok dict' := by
  intro hcall
  obtain ⟨nodes, head, cells, rfl, hhead, hkey, hchain, hentries⟩ := hholds
  obtain ⟨_, head', copy, nodes', hdict, hhead', _, _, houtcome⟩ := dictSetWith_eq_ok hcall
  obtain rfl := BencodeObj.dict.inj hdict
  obtain rfl := Option.some.inj (hhead.symm.trans hhead')
  obtain ⟨cell, _, ⟨node, hnode, hnodeKey, _⟩, hnil, rfl⟩ :=
    List.forall₂_cons_right_iff.mp hentries
  obtain rfl := List.forall₂_nil_right_iff.mp hnil
  obtain ⟨hfirst, next, hlink, hnext⟩ := segment_cons_iff.mp hchain
  obtain rfl := segment_nil_iff.mp hnext
  cases houtcome with
  | front hbefore =>
      obtain ⟨node', key, hnode', hkey', hname⟩ := hbefore cell hfirst
      obtain rfl := Option.some.inj (hnode.symm.trans hnode')
      obtain rfl := Option.some.inj (hnodeKey.symm.trans hkey')
      exact hle hname
  | @behind curr path currNode key _ hpath hcurr hkey' hname =>
      -- the only cell that the path can stop at is the first
      have hpath' := hpath
      rw [hfirst] at hpath'
      cases path with
      | nil =>
          obtain rfl := Option.some.inj (segment_nil_iff.mp hpath')
          obtain rfl := Option.some.inj (hnode.symm.trans hcurr)
          obtain rfl := Option.some.inj (hnodeKey.symm.trans hkey')
          exact hle hname
      | cons other path =>
          obtain ⟨hother, next, hlink', hrest⟩ := segment_cons_iff.mp hpath'
          obtain rfl := Option.some.inj hother
          obtain rfl := Option.some.inj (hlink.symm.trans hlink')
          cases hrest

theorem StartsAscending.clone_ne_ok {dict copy : BencodeObj}
    (hascending : StartsAscending dict) (fuel : ℕ) : bencodeObjClone fuel dict ≠ .ok copy := by
  obtain ⟨nodes, head, first, second, left, right, rfl, hhead, hkey, hfirst, hleft, hlink,
    hright, hlt⟩ := hascending
  intro hclone
  -- one unit of fuel for the clone, the head and each of the two entries
  match fuel with
  | 0 => simp [bencodeObjClone] at hclone
  | 1 => simp [bencodeObjClone, bencodeObjIterDict, iterDictFrom] at hclone
  | 2 =>
      rw [bencodeObjClone, bencodeObjIterDict, iterDictFrom_head hhead hkey, hfirst] at hclone
      simp [iterDictFrom] at hclone
  | fuel + 3 =>
      rw [bencodeObjClone, bencodeObjIterDict, iterDictFrom_head hhead hkey, hfirst,
        iterDictFrom_entry hleft hlink, bind_eq_ok] at hclone
      obtain ⟨dict, hvisit, hrest⟩ := hclone
      obtain ⟨_, _, hset⟩ := bind_eq_ok.mp hvisit
      obtain ⟨_, _, hheld⟩ := dictSetWith_bencodeObjDict hset
      cases fuel with
      | zero => simp [iterDictFrom] at hrest
      | succ fuel =>
          obtain ⟨node, hnode, _⟩ := id hright
          rw [iterDictFrom_entry hright (links_eq_some_iff.mpr ⟨node, hnode, rfl⟩),
            bind_eq_ok] at hrest
          obtain ⟨_, hvisit', _⟩ := hrest
          obtain ⟨_, _, hset'⟩ := bind_eq_ok.mp hvisit'
          exact dictSetWith_single_ne_ok hheld hlt.not_gt hset'

/-- The callback of a list's clone meets the null value of its last node. -/
theorem clone_list_ne_ok {vals : List (ObjPtr BencodeObj)} {copy : BencodeObj} (fuel : ℕ) :
    bencodeObjClone fuel (.list (vals ++ [.null])) ≠ .ok copy := by
  intro hclone
  cases fuel with
  | zero => simp [bencodeObjClone] at hclone
  | succ fuel =>
      simp only [bencodeObjClone, bencodeObjIterList, List.foldlM_append, bind_eq_ok] at hclone
      obtain ⟨_, _, hlast⟩ := hclone
      simp [objOf] at hlast

end I2pLite.Clone
