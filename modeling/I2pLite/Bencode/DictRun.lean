import I2pLite.Bencode.Clone

/-!
# Runs of `bencode_obj_dict_set`

A run of calls on a fresh dict keeps the chain finite, sorted and complete
exactly as long as every key is below all earlier ones and every value can be
cloned.  The first other call either follows a null link or closes a cycle,
and a cycle stays.
-/

namespace I2pLite.DictRun

open I2pLite.CRun
open I2pLite.CBytes
open I2pLite.LinkedChain
open I2pLite.Bencoding
open I2pLite.BencodeObject
open I2pLite.Denotation
open I2pLite.DictSet
open I2pLite.Clone

/-! ## What the API can build -/

theorem startsAscending_of_dictHolds {dict : BencodeObj} {left right : CString × BencodeObj}
    {entries : List (CString × BencodeObj)} (hholds : DictHolds dict (left :: right :: entries))
    (hlt : left.1 < right.1) : StartsAscending dict := by
  obtain ⟨nodes, head, cells, rfl, hhead, hkey, hchain, hentries⟩ := hholds
  obtain ⟨first, others, hleft, hothers, rfl⟩ := List.forall₂_cons_right_iff.mp hentries
  obtain ⟨second, _, hright, _, rfl⟩ := List.forall₂_cons_right_iff.mp hothers
  obtain ⟨hfirst, next, hlink, hrest⟩ := segment_cons_iff.mp hchain
  obtain rfl := (segment_cons_iff.mp hrest).1
  exact ⟨nodes, head, first, second, left, right, rfl, hhead, hkey, hfirst, hleft, hlink,
    hright, hlt⟩

/-- A further entry never comes between the first two of an ascending start,
other than in front of them. -/
theorem startsAscending_set {nodes nodes' : DictStore} {head : DictNode BencodeObj}
    {name : CString} {copy : BencodeObj} (hascending : StartsAscending (.dict nodes))
    (hhead : nodes[0]? = some head) (houtcome : SetOutcome nodes head name copy nodes') :
    StartsAscending (.dict nodes') := by
  obtain ⟨_, head', first, second, left, right, hdict, hhead', hheadKey, hfirst, hleft, hlink,
    hright, hlt⟩ := hascending
  obtain rfl := BencodeObj.dict.inj hdict
  obtain rfl := Option.some.inj (hhead.symm.trans hhead')
  obtain ⟨node, hnode, hkey, hval⟩ := id hleft
  have hfirstKey : BeforeFirst nodes head.next name ↔ name < left.1 := by
    constructor
    · intro hbefore
      obtain ⟨node', key', hnode', hkey', hname⟩ := hbefore first hfirst
      rw [hnode] at hnode'
      rw [← Option.some.inj hnode', hkey] at hkey'
      rwa [Option.some.inj hkey']
    · intro hname other hother
      rw [hfirst] at hother
      rw [← Option.some.inj hother]
      exact ⟨node, left.1, hnode, hkey, hname⟩
  cases houtcome with
  | front hbefore =>
      exact ⟨_, _, nodes.length, first, (name, copy), left, rfl, spliced_curr hhead, hheadKey, rfl,
        ⟨_, spliced_new, rfl, rfl⟩, by rw [links_spliced_new, hfirst],
        holdsEntry_spliced hhead hleft, hfirstKey.mp hbefore⟩
  | @behind curr cells currNode key hbefore _ hcurr hcurrKey hname =>
      have hzero : 0 ≠ curr := by
        intro heq
        rw [← heq, hhead] at hcurr
        rw [← Option.some.inj hcurr, hheadKey] at hcurrKey
        exact Option.some_ne_none _ hcurrKey.symm
      have hfirstNe : first ≠ curr := by
        intro heq
        rw [← heq, hnode] at hcurr
        rw [← Option.some.inj hcurr, hkey] at hcurrKey
        exact hbefore (hfirstKey.mpr (Option.some.inj hcurrKey ▸ hname))
      refine ⟨_, head, first, second, left, right, rfl, spliced_other hzero hhead, hheadKey, hfirst,
        holdsEntry_spliced hcurr hleft, ?_, holdsEntry_spliced hcurr hright, hlt⟩
      rw [links_spliced_other hfirstNe (by simp [hlink]), hlink]

theorem flat_of_dictHolds_single {dict val : BencodeObj} {name : CString}
    (hholds : DictHolds dict [(name, val)]) (hval : Flat val) : Flat dict := by
  obtain ⟨value, hflat, hdenotes⟩ := hval
  exact ⟨_, .single hflat, denotes_dict_single.mpr ⟨name, val, hholds, rfl, hdenotes⟩⟩

/-- The dicts among the flat objects have at most one entry. -/
theorem flat_dict_cases {nodes : DictStore} (hflat : Flat (.dict nodes)) :
    DictHolds (.dict nodes) [] ∨ ∃ name val, DictHolds (.dict nodes) [(name, val)] ∧ Flat val := by
  obtain ⟨value, hflat, hdenotes⟩ := hflat
  cases hflat with
  | str data => simp [Denotes] at hdenotes
  | int value => simp [Denotes] at hdenotes
  | empty => exact Or.inl (denotes_dict_nil.mp hdenotes)
  | single hvalue =>
      obtain ⟨name, val, hholds, _, hval⟩ := denotes_dict_single.mp hdenotes
      exact Or.inr ⟨name, val, hholds, _, hvalue, hval⟩

/-- What the API builds is flat, or starts with two ascending keys, or is a
list with its zeroed last node. -/
theorem built_shape {obj : BencodeObj} (hbuilt : Built obj) :
    Flat obj ∨ StartsAscending obj ∨ ∃ vals, obj = .list (vals ++ [.null]) := by
  have happended : ∀ {obj obj' : BencodeObj} {val : ObjPtr BencodeObj},
      bencodeObjListAppend obj val = .ok obj' → ∃ vals, obj' = .list (vals ++ [.null]) := by
    intro obj obj' val happend
    cases obj with
    | list vals =>
        refine ⟨vals.dropLast ++ [val], ?_⟩
        simpa [bencodeObjListAppend, eq_comm] using happend
    | _ => simp [bencodeObjListAppend] at happend
  induction hbuilt with
  | str data => exact Or.inl ⟨_, .str data, rfl⟩
  | int value => exact Or.inl ⟨_, .int value.toInt, value, rfl, rfl⟩
  | list => exact Or.inr (Or.inr ⟨[], rfl⟩)
  | dict => exact Or.inl ⟨_, .empty, denotes_dict_nil.mpr dictHolds_bencodeObjDict⟩
  | append _ _ happend _ _ => exact Or.inr (Or.inr (happended happend))
  | appendReleased _ happend _ => exact Or.inr (Or.inr (happended happend))
  | @set fuel key obj val obj' _ _ hcall ihObj ihVal =>
      obtain ⟨nodes, head, copy, nodes', rfl, hhead, hcopy, rfl, houtcome⟩ :=
        dictSetWith_eq_ok hcall
      have hflatCopy : Flat copy := by
        rcases ihVal with ⟨value, hflat, hval⟩ | hascending | ⟨vals, rfl⟩
        · exact ⟨value, hflat, hflat.denotes_clone hval hcopy⟩
        · exact absurd hcopy (hascending.clone_ne_ok fuel)
        · exact absurd hcopy (clone_list_ne_ok fuel)
      rcases ihObj with hflat | hascending | ⟨vals, hlist⟩
      · rcases flat_dict_cases hflat with hnil | ⟨name, val, hsingle, _⟩
        · have hbefore : BeforeFirst nodes head.next key :=
            (beforeFirst_iff hhead hnil).mpr (by simp)
          cases houtcome with
          | front _ =>
              exact Or.inl (flat_of_dictHolds_single (dictHolds_spliced_front hhead hnil) hflatCopy)
          | behind hnot => exact absurd hbefore hnot
        · have hlt : key < name := by
            by_contra hle
            exact dictSetWith_single_ne_ok hsingle hle hcall
          have hbefore : BeforeFirst nodes head.next key :=
            (beforeFirst_iff hhead hsingle).mpr (by simpa using hlt)
          cases houtcome with
          | front _ =>
              exact Or.inr (Or.inl (startsAscending_of_dictHolds
                (dictHolds_spliced_front hhead hsingle) hlt))
          | behind hnot => exact absurd hbefore hnot
      · exact Or.inr (Or.inl (startsAscending_set hascending hhead houtcome))
      · exact absurd hlist (by simp)

/-- Of the values the API can build, `bencode_obj_clone` copies only the flat
ones. -/
theorem flat_of_clone {fuel : ℕ} {obj copy : BencodeObj} (hbuilt : Built obj)
    (hclone : bencodeObjClone fuel obj = .ok copy) : Flat obj := by
  rcases built_shape hbuilt with hflat | hascending | ⟨vals, rfl⟩
  · exact hflat
  · exact absurd hclone (hascending.clone_ne_ok fuel)
  · exact absurd hclone (clone_list_ne_ok fuel)

/-! ## Runs -/

/-- One call: a key and the value to be copied. -/
abbrev Call := CString × BencodeObj

/-- The calls made one after the other on the same dict. -/
def dictSetCalls (fuel : ℕ) (calls : List Call) (dict : BencodeObj) : Run BencodeObj :=
  calls.foldlM (fun dict call => bencodeObjDictSet fuel dict (some call.1) call.2) dict

/-- The value of the last call for a key. -/
def lastValue (calls : List Call) (key : CString) : Option BencodeObj :=
  (calls.reverse.find? fun call => call.1 = key).map Prod.snd

/-- The chain after the head is finite, its keys ascend under `strcmp`, they
are the keys set so far, and each is bound to a copy of the value of the last
call for it. -/
def SortedBindings (calls : List Call) (dict : BencodeObj) : Prop :=
  ∃ entries, DictHolds dict entries ∧
    (entries.map Prod.fst).Pairwise (fun left right => strcmp left right < 0) ∧
    (∀ key, key ∈ entries.map Prod.fst ↔ key ∈ calls.map Prod.fst) ∧
    ∀ entry ∈ entries, ∃ val, lastValue calls entry.1 = some val ∧ SameObj val entry.2

/-- The state after a run whose keys descend and whose values are flat: the
latest call is the first entry. -/
structure InOrder (calls : List Call) (dict : BencodeObj) : Prop where
  ascending : (calls.reverse.map Prod.fst).Pairwise (· < ·)
  flat : ∀ call ∈ calls, Flat call.2
  holds : ∃ entries, DictHolds dict entries ∧
    List.Forall₂ (fun call entry => call.1 = entry.1 ∧ SameObj call.2 entry.2)
      calls.reverse entries

theorem inOrder_nil : InOrder [] bencodeObjDict where
  ascending := .nil
  flat := by simp
  holds := ⟨[], dictHolds_bencodeObjDict, .nil⟩

/-- In an ordered state, the first key of the chain is the latest key. -/
theorem InOrder.beforeFirst_iff {calls : List Call} {nodes : DictStore}
    {head : DictNode BencodeObj} {name : CString} (horder : InOrder calls (.dict nodes))
    (hhead : nodes[0]? = some head) :
    BeforeFirst nodes head.next name ↔ ∀ call ∈ calls.reverse, name < call.1 := by
  obtain ⟨entries, hholds, hentries⟩ := horder.holds
  rw [DictSet.beforeFirst_iff hhead hholds]
  have hascending := horder.ascending
  generalize calls.reverse = later at hascending hentries ⊢
  cases hentries with
  | nil => simp
  | @cons call entry rest _ hsame _ =>
      rw [List.map_cons, List.pairwise_cons] at hascending
      simp only [List.head?_cons, Option.mem_some_iff, forall_eq', List.mem_cons,
        forall_eq_or_imp, ← hsame.1]
      constructor
      · intro hlt
        refine ⟨hlt, fun later hlater => ?_⟩
        exact hlt.trans (hascending.1 _ (List.mem_map_of_mem hlater))
      · exact fun hall => hall.1

/-- A call on an ordered state that puts its node in front keeps the order. -/
theorem InOrder.front {calls : List Call} {nodes : DictStore} {head : DictNode BencodeObj}
    {name : CString} {val copy : BencodeObj} (horder : InOrder calls (.dict nodes))
    (hhead : nodes[0]? = some head) (hbefore : BeforeFirst nodes head.next name)
    (hflat : Flat val) (hsame : SameObj val copy) :
    InOrder (calls ++ [(name, val)]) (.dict (spliced nodes 0 head head.next name copy)) where
  ascending := by
    rw [List.reverse_append, List.reverse_singleton, List.singleton_append, List.map_cons,
      List.pairwise_cons]
    refine ⟨?_, horder.ascending⟩
    intro key hkey
    obtain ⟨call, hcall, rfl⟩ := List.mem_map.mp hkey
    exact (horder.beforeFirst_iff hhead).mp hbefore call hcall
  flat := by
    intro call hcall
    rcases List.mem_append.mp hcall with hcall | hcall
    · exact horder.flat call hcall
    · rw [List.mem_singleton.mp hcall]
      exact hflat
  holds := by
    obtain ⟨entries, hholds, hentries⟩ := horder.holds
    refine ⟨_, dictHolds_spliced_front hhead hholds, ?_⟩
    rw [List.reverse_append, List.reverse_singleton, List.singleton_append]
    exact .cons ⟨rfl, hsame⟩ hentries

section Stored

variable {calls : List Call} {clone : BencodeObj → Run BencodeObj} {fuel : ℕ}
variable {dict dict' given val : BencodeObj} {name : CString}

/-- One call that stores an equal copy of a flat value keeps the order or closes
a cycle. -/
theorem InOrder.stored (horder : InOrder calls dict)
    (hcopies : ∀ copy, clone given = .ok copy → Flat val ∧ SameObj val copy)
    (hcall : dictSetWith clone fuel dict (some name) given = .ok dict') :
    InOrder (calls ++ [(name, val)]) dict' ∨ EndlessDict dict' := by
  obtain ⟨nodes, head, copy, nodes', rfl, hhead, hcopy, rfl, houtcome⟩ := dictSetWith_eq_ok hcall
  obtain ⟨hflat, hsame⟩ := hcopies copy hcopy
  cases houtcome with
  | front hbefore => exact Or.inl (horder.front hhead hbefore hflat hsame)
  | behind _ hcells hcurr hkey _ =>
      obtain ⟨_, ⟨_, head', _, hdict, hhead', hheadKey, _⟩, _⟩ := horder.holds
      obtain rfl := BencodeObj.dict.inj hdict
      obtain rfl := Option.some.inj (hhead.symm.trans hhead')
      exact Or.inr (endless_spliced_behind hhead hheadKey hcells hcurr hkey)

/-- A key below all earlier ones is stored in one turn of the loop. -/
theorem InOrder.exists_front {copy : BencodeObj} (horder : InOrder calls dict)
    (hbelow : ∀ call ∈ calls, name < call.1) (hcopy : clone given = .ok copy) (hflat : Flat val)
    (hsame : SameObj val copy) :
    ∃ dict', dictSetWith clone (fuel + 1) dict (some name) given = .ok dict' ∧
      InOrder (calls ++ [(name, val)]) dict' := by
  obtain ⟨_, ⟨nodes, head, _, rfl, hhead, _⟩, _⟩ := id horder.holds
  have hbefore : BeforeFirst nodes head.next name :=
    (horder.beforeFirst_iff hhead).mpr fun call hcall => hbelow call (List.mem_reverse.mp hcall)
  exact ⟨_, dictSetWith_of_beforeFirst hcopy hhead hbefore,
    horder.front hhead hbefore hflat hsame⟩

/-- A cycle stays. -/
theorem endlessDict_set (hendless : EndlessDict dict)
    (hcall : dictSetWith clone fuel dict (some name) given = .ok dict') : EndlessDict dict' := by
  obtain ⟨nodes, head, copy, nodes', rfl, hhead, _, rfl, houtcome⟩ := dictSetWith_eq_ok hcall
  obtain ⟨_, head', hdict, hhead', hheadKey, hnext⟩ := hendless
  obtain rfl := BencodeObj.dict.inj hdict
  obtain rfl := Option.some.inj (hhead.symm.trans hhead')
  cases houtcome with
  | front _ => exact endless_spliced_front hhead hheadKey hnext
  | behind _ hcells hcurr hkey _ => exact endless_spliced_behind hhead hheadKey hcells hcurr hkey

end Stored

theorem Flat.sameObj_clone {val copy : BencodeObj} {fuel : ℕ} (hflat : Flat val)
    (hcopy : bencodeObjClone fuel val = .ok copy) : SameObj val copy := by
  obtain ⟨value, hvalue, hval⟩ := hflat
  exact ⟨value, hval, hvalue.denotes_clone hval hcopy⟩

/-- One call on a built value keeps the order or closes a cycle. -/
theorem InOrder.set {calls : List Call} {dict dict' val : BencodeObj} {name : CString}
    {fuel : ℕ} (horder : InOrder calls dict) (hbuilt : Built val)
    (hcall : bencodeObjDictSet fuel dict (some name) val = .ok dict') :
    InOrder (calls ++ [(name, val)]) dict' ∨ EndlessDict dict' := by
  refine horder.stored (fun copy hcopy => ?_) hcall
  have hflat := flat_of_clone hbuilt hcopy
  exact ⟨hflat, Flat.sameObj_clone hflat hcopy⟩

/-- A run that returns has kept the order or has closed a cycle. -/
theorem dictSetCalls_cases {calls : List Call} {fuel : ℕ} {dict : BencodeObj}
    (hbuilt : ∀ call ∈ calls, Built call.2)
    (hrun : dictSetCalls fuel calls bencodeObjDict = .ok dict) :
    InOrder calls dict ∨ EndlessDict dict := by
  induction calls using List.reverseRecOn generalizing dict with
  | nil =>
      obtain rfl : bencodeObjDict = dict := by simpa [dictSetCalls] using hrun
      exact Or.inl inOrder_nil
  | append_singleton calls call ih =>
      simp only [dictSetCalls, List.foldlM_append, List.foldlM_cons, List.foldlM_nil,
        bind_eq_ok] at hrun
      obtain ⟨before, hbefore, after, hcall, hafter⟩ := hrun
      obtain rfl := Except.ok.inj hafter
      rcases ih (fun call hcall => hbuilt call (by simp [hcall])) hbefore with horder | hendless
      · exact horder.set (hbuilt call (by simp)) hcall
      · exact Or.inr (endlessDict_set hendless hcall)

/-- A run whose keys descend and whose values are flat returns, in order. -/
theorem exists_dictSetCalls {calls : List Call}
    (hdescending : (calls.map Prod.fst).Pairwise (· > ·))
    (hflat : ∀ call ∈ calls, Flat call.2) :
    ∃ bound, ∀ fuel, bound ≤ fuel →
      ∃ dict, dictSetCalls fuel calls bencodeObjDict = .ok dict ∧ InOrder calls dict := by
  induction calls using List.reverseRecOn with
  | nil => exact ⟨0, fun fuel _ => ⟨bencodeObjDict, rfl, inOrder_nil⟩⟩
  | append_singleton calls call ih =>
      rw [List.map_append, List.pairwise_append] at hdescending
      obtain ⟨hcalls, _, hlast⟩ := hdescending
      obtain ⟨bound, hbound⟩ := ih hcalls fun call hcall => hflat call (by simp [hcall])
      obtain ⟨value, hvalue, hdenotes⟩ := hflat call (by simp)
      obtain ⟨cloneBound, hcloneBound⟩ := hvalue.exists_clone
      refine ⟨bound + cloneBound + 1, fun fuel hfuel => ?_⟩
      obtain ⟨dict, hrun, horder⟩ := hbound fuel (by omega)
      obtain ⟨copy, hcopy⟩ := hcloneBound fuel call.2 (by omega) hdenotes
      obtain ⟨fuel, rfl⟩ := Nat.exists_eq_add_of_le' (show 1 ≤ fuel by omega)
      have hbelow : ∀ earlier ∈ calls, call.1 < earlier.1 := fun earlier hearlier =>
        hlast _ (List.mem_map_of_mem hearlier) _ (by simp)
      obtain ⟨dict', hset, horder'⟩ := @InOrder.exists_front calls _ fuel _ _ _ _ copy horder hbelow
        hcopy (hflat call (by simp)) ⟨value, hdenotes, hvalue.denotes_clone hdenotes hcopy⟩
      refine ⟨dict', ?_, horder'⟩
      rw [dictSetCalls] at hrun ⊢
      rw [List.foldlM_append, hrun, ok_bind, List.foldlM_cons, bencodeObjDictSet, hset]
      rfl

/-- Where the keys ascend, each is found at its own call. -/
theorem find?_of_ascending {later : List Call} (hascending : (later.map Prod.fst).Pairwise (· < ·))
    {call : Call} (hcall : call ∈ later) :
    (later.find? fun other => other.1 = call.1) = some call := by
  induction later with
  | nil => simp at hcall
  | cons other later ih =>
      rw [List.map_cons, List.pairwise_cons] at hascending
      rcases List.mem_cons.mp hcall with rfl | hcall
      · simp
      · have hlt := hascending.1 _ (List.mem_map_of_mem hcall)
        rw [List.find?_cons_of_neg (by simpa using hlt.ne)]
        exact ih hascending.2 hcall

theorem keys_eq {calls entries : List Call}
    (hentries : List.Forall₂ (fun call entry => call.1 = entry.1 ∧ SameObj call.2 entry.2)
      calls entries) : calls.map Prod.fst = entries.map Prod.fst := by
  rw [← List.forall₂_eq_eq_eq, List.forall₂_map_left_iff, List.forall₂_map_right_iff]
  exact hentries.imp fun _ _ hsame => hsame.1

theorem InOrder.sortedBindings {calls : List Call} {dict : BencodeObj}
    (horder : InOrder calls dict) : SortedBindings calls dict := by
  obtain ⟨entries, hholds, hentries⟩ := horder.holds
  have hkeys := keys_eq hentries
  refine ⟨entries, hholds, ?_, ?_, ?_⟩
  · rw [← hkeys]
    exact horder.ascending.imp strcmp_neg_iff.mpr
  · intro key
    rw [← hkeys]
    simp
  · intro entry hentry
    obtain ⟨call, hcall, hkey, hsame⟩ := exists_left_of_mem hentries hentry
    refine ⟨call.2, ?_, hsame⟩
    rw [lastValue, ← hkey, find?_of_ascending horder.ascending hcall]
    rfl

/-- The calls of a run on a fresh dict all return and leave the sorted
bindings of the calls exactly when every key is below all earlier ones and
every value is flat. -/
theorem dictSetCalls_sortedBindings_iff (calls : List Call)
    (hbuilt : ∀ call ∈ calls, Built call.2) :
    (∃ fuel dict, dictSetCalls fuel calls bencodeObjDict = .ok dict ∧
        SortedBindings calls dict) ↔
      (calls.map Prod.fst).Pairwise (· > ·) ∧ ∀ call ∈ calls, Flat call.2 := by
  constructor
  · rintro ⟨fuel, dict, hrun, entries, hholds, _⟩
    rcases dictSetCalls_cases hbuilt hrun with horder | hendless
    · refine ⟨?_, horder.flat⟩
      have hascending := horder.ascending
      rwa [List.map_reverse, List.pairwise_reverse] at hascending
    · exact absurd hholds (hendless.not_dictHolds entries)
  · rintro ⟨hdescending, hflat⟩
    obtain ⟨bound, hbound⟩ := exists_dictSetCalls hdescending hflat
    obtain ⟨dict, hrun, horder⟩ := hbound bound le_rfl
    exact ⟨bound, dict, hrun, horder.sortedBindings⟩

/-- The keys `"a"` and `"b"`, in either order of the calls. -/
def keyA : CString := ⟨[ch 'a'], List.forall_mem_singleton.mpr (by decide)⟩

def keyB : CString := ⟨[ch 'b'], List.forall_mem_singleton.mpr (by decide)⟩

/-- With the keys in descending order the run is as it should be. -/
theorem dictSetCalls_sortedBindings_descending :
    (∃ fuel dict, dictSetCalls fuel
        [(keyB, bencodeObjInt 2), (keyA, bencodeObjStr [ch 'x'])] bencodeObjDict = .ok dict ∧
      SortedBindings [(keyB, bencodeObjInt 2), (keyA, bencodeObjStr [ch 'x'])] dict) := by
  apply (dictSetCalls_sortedBindings_iff _ ?_).mpr
  · refine ⟨by simpa using strcmp_neg_iff.mp (by decide : strcmp keyA keyB < 0), ?_⟩
    simp only [List.mem_cons, List.not_mem_nil, or_false, forall_eq_or_imp, forall_eq]
    exact ⟨⟨_, .int 2, 2, rfl, rfl⟩, ⟨_, .str [ch 'x'], rfl⟩⟩
  · simp only [List.mem_cons, List.not_mem_nil, or_false, forall_eq_or_imp, forall_eq]
    exact ⟨.int 2, .str [ch 'x']⟩

/-- Two calls in ascending order: the second follows a null link. -/
theorem dictSetCalls_ascending (fuel : ℕ) :
    dictSetCalls (fuel + 3) [(keyA, bencodeObjInt 1), (keyB, bencodeObjInt 2)] bencodeObjDict =
      .error .nullDeref := rfl

theorem dictSetCalls_not_sortedBindings_ascending :
    ¬ ∃ fuel dict, dictSetCalls fuel
        [(keyA, bencodeObjInt 1), (keyB, bencodeObjInt 2)] bencodeObjDict = .ok dict ∧
      SortedBindings [(keyA, bencodeObjInt 1), (keyB, bencodeObjInt 2)] dict := by
  rintro ⟨fuel, dict, hrun, _⟩
  have hfault : ∃ fault, dictSetCalls fuel
      [(keyA, bencodeObjInt 1), (keyB, bencodeObjInt 2)] bencodeObjDict = .error fault := by
    match fuel with
    | 0 => exact ⟨.outOfFuel, rfl⟩
    | 1 => exact ⟨.outOfFuel, rfl⟩
    | 2 => exact ⟨.nullDeref, rfl⟩
    | fuel + 3 => exact ⟨.nullDeref, dictSetCalls_ascending fuel⟩
  obtain ⟨fault, hfault⟩ := hfault
  rw [hfault] at hrun
  cases hrun

end I2pLite.DictRun
