import I2pLite.Bencode.Denotation

/-!
# One call of `bencode_obj_dict_set`

The two cursors of the insertion loop start one link apart, but the loop loads
both from `curr->next`, so after one turn they are the same node.  A call that
returns has therefore either put the new node in front of the chain, or has
linked it behind the very node it points back to.
-/

namespace I2pLite.DictSet

open I2pLite.CRun
open I2pLite.CBytes
open I2pLite.LinkedChain
open I2pLite.BencodeObject
open I2pLite.Denotation

variable {clone : BencodeObj → Run BencodeObj} {nodes : DictStore} {fuel : ℕ}

theorem nodeAt_eq_ok {index : ℕ} {node : DictNode BencodeObj} :
    nodeAt nodes index = .ok node ↔ nodes[index]? = some node := by
  unfold nodeAt
  cases nodes[index]? <;> simp

theorem dictOf_eq_ok {dict : BencodeObj} :
    dictOf dict = .ok nodes ↔ dict = .dict nodes := by
  cases dict <;> simp [dictOf]

@[simp]
theorem nodeAt_of_getElem? {index : ℕ} {node : DictNode BencodeObj}
    (hnode : nodes[index]? = some node) : nodeAt nodes index = .ok node :=
  nodeAt_eq_ok.mpr hnode

/-! ## The insertion loop -/

/-- A first node above the key ends the loop at once. -/
theorem dictSetLoop_of_lt {curr next : ℕ} {node : DictNode BencodeObj} {key name : CString}
    (hnode : nodes[next]? = some node) (hkey : node.key = some key) (hlt : name < key) :
    dictSetLoop nodes (some name) (fuel + 1) (some curr) (some next) =
      .ok (some curr, some next) := by
  have hstop := strcmp_pos_iff.mpr hlt
  simp [dictSetLoop, hnode, hkey, hstop]

/-- One turn of the loop that delivers cursors. -/
theorem dictSetLoop_succ_eq_ok {curr : Option ℕ} {next : ℕ} {name : CString}
    {cursors : Option ℕ × Option ℕ} :
    dictSetLoop nodes (some name) (fuel + 1) curr (some next) = .ok cursors ↔
      ∃ node key, nodes[next]? = some node ∧ node.key = some key ∧
        ((name < key ∧ cursors = (curr, some next)) ∨
          (¬ name < key ∧ ∃ cell currNode, curr = some cell ∧
            nodes[cell]? = some currNode ∧
            dictSetLoop nodes (some name) fuel currNode.next currNode.next =
              .ok cursors)) := by
  simp only [dictSetLoop, bind_eq_ok, nodeAt_eq_ok, deref_eq_ok, Option.some.injEq]
  constructor
  · rintro ⟨node, hnode, key, hkey, _, rfl, hrest⟩
    refine ⟨node, key, hnode, hkey, ?_⟩
    by_cases hlt : name < key
    · rw [if_pos (strcmp_pos_iff.mpr hlt)] at hrest
      exact Or.inl ⟨hlt, (Except.ok.inj hrest).symm⟩
    · rw [if_neg (fun hpos => hlt (strcmp_pos_iff.mp hpos))] at hrest
      simp only [bind_eq_ok, nodeAt_eq_ok, deref_eq_ok] at hrest
      obtain ⟨cell, hcurr, currNode, hcell, hloop⟩ := hrest
      exact Or.inr ⟨hlt, cell, currNode, hcurr, hcell, hloop⟩
  · rintro ⟨node, key, hnode, hkey, hcases⟩
    refine ⟨node, hnode, key, hkey, name, rfl, ?_⟩
    rcases hcases with ⟨hlt, rfl⟩ | ⟨hlt, cell, currNode, hcurr, hcell, hloop⟩
    · rw [if_pos (strcmp_pos_iff.mpr hlt)]
    · rw [if_neg (fun hpos => hlt (strcmp_pos_iff.mp hpos))]
      simp only [bind_eq_ok, nodeAt_eq_ok, deref_eq_ok]
      exact ⟨cell, hcurr, currNode, hcell, hloop⟩

/-- Once the cursors are equal they stay equal: the loop stops on a node above
the key, with both cursors there. -/
theorem dictSetLoop_same {start : Option ℕ} {name : CString} {curr : ℕ}
    {next : Option ℕ}
    (hloop : dictSetLoop nodes (some name) fuel start start = .ok (some curr, next)) :
    next = some curr ∧ (∃ cells, Segment (links nodes) start cells (some curr)) ∧
      ∃ node key, nodes[curr]? = some node ∧ node.key = some key ∧ name < key := by
  induction fuel generalizing start with
  | zero =>
      cases start with
      | none => simp [dictSetLoop] at hloop
      | some first => simp [dictSetLoop] at hloop
  | succ fuel ih =>
      cases start with
      | none => simp [dictSetLoop] at hloop
      | some first =>
          obtain ⟨node, key, hnode, hkey, hcases⟩ := dictSetLoop_succ_eq_ok.mp hloop
          rcases hcases with ⟨hlt, hcursors⟩ | ⟨_, cell, currNode, hcell, hcurrNode, hrest⟩
          · obtain ⟨hcurr, hnext⟩ := Prod.mk.inj hcursors
            obtain rfl := Option.some.inj hcurr
            exact ⟨hnext, ⟨[], .nil⟩, node, key, hnode, hkey, hlt⟩
          · obtain rfl := Option.some.inj hcell
            obtain ⟨hnext, ⟨cells, hcells⟩, hstop⟩ := ih hrest
            refine ⟨hnext, ⟨first :: cells, ?_⟩, hstop⟩
            exact .cons (by simp [links, hcurrNode]) hcells

/-! ## What a call that returns has done -/

/-- The store after `curr->next = node; node->next = next`. -/
def spliced (nodes : DictStore) (curr : ℕ) (currNode : DictNode BencodeObj)
    (next : Option ℕ) (name : CString) (val : BencodeObj) : DictStore :=
  nodes.set curr { currNode with next := some nodes.length } ++
    [{ key := some name, val := some val, next := next }]

/-- The new node does not find a smaller or equal key in front of it. -/
def BeforeFirst (nodes : DictStore) (start : Option ℕ) (name : CString) : Prop :=
  ∀ first, start = some first →
    ∃ node key, nodes[first]? = some node ∧ node.key = some key ∧ name < key

/-- The two ways of a call that returns: the node goes in front of the chain,
or behind the node that it points to. -/
inductive SetOutcome (nodes : DictStore) (head : DictNode BencodeObj) (name : CString)
    (copy : BencodeObj) : DictStore → Prop
  | front : BeforeFirst nodes head.next name →
      SetOutcome nodes head name copy (spliced nodes 0 head head.next name copy)
  | behind {curr cells currNode key} : ¬ BeforeFirst nodes head.next name →
      Segment (links nodes) head.next cells (some curr) →
      nodes[curr]? = some currNode → currNode.key = some key → name < key →
      SetOutcome nodes head name copy (spliced nodes curr currNode (some curr) name copy)

theorem dictSetWith_eq_ok {dict val dict' : BencodeObj} {name : CString}
    (hcall : dictSetWith clone fuel dict (some name) val = .ok dict') :
    ∃ nodes head copy nodes', dict = .dict nodes ∧ nodes[0]? = some head ∧
      clone val = .ok copy ∧ dict' = .dict nodes' ∧
      SetOutcome nodes head name copy nodes' := by
  simp only [dictSetWith, bind_eq_ok, dictOf_eq_ok, nodeAt_eq_ok, deref_eq_ok] at hcall
  obtain ⟨copy, hcopy, nodes, hdict, head, hhead, ⟨curr, next⟩, hloop, _, hname, cell,
    hcell, cellNode, hcellNode, hdict'⟩ := hcall
  obtain rfl := Option.some.inj hname
  refine ⟨nodes, head, copy, _, hdict, hhead, hcopy, (Except.ok.inj hdict').symm, ?_⟩
  simp only at hcell
  rw [hcell] at hloop
  cases hfirst : head.next with
  | none =>
      rw [hfirst] at hloop
      simp only [dictSetLoop, Except.ok.injEq, Prod.mk.injEq, Option.some.injEq] at hloop
      obtain ⟨hzero, hnext⟩ := hloop
      rw [← hzero, hhead] at hcellNode
      obtain rfl := Option.some.inj hcellNode
      rw [← hzero, ← hnext, ← hfirst]
      exact .front (by simp [BeforeFirst, hfirst])
  | some first =>
      cases fuel with
      | zero => simp [hfirst, dictSetLoop] at hloop
      | succ fuel =>
          rw [hfirst] at hloop
          obtain ⟨node, key, hnode, hkey, hcases⟩ := dictSetLoop_succ_eq_ok.mp hloop
          rcases hcases with ⟨hlt, hcursors⟩ | ⟨hlt, cell', headNode, hzero, hheadNode, hrest⟩
          · simp only [Prod.mk.injEq, Option.some.injEq] at hcursors
            obtain ⟨hzero, hnext⟩ := hcursors
            rw [hzero, hhead] at hcellNode
            obtain rfl := Option.some.inj hcellNode
            rw [hzero, hnext, ← hfirst]
            refine .front ?_
            intro other hother
            obtain rfl := Option.some.inj (hfirst.symm.trans hother)
            exact ⟨node, key, hnode, hkey, hlt⟩
          · -- from here on both cursors are the first node
            obtain rfl := Option.some.inj hzero
            obtain rfl := Option.some.inj (hhead.symm.trans hheadNode)
            obtain ⟨hnext, ⟨cells, hcells⟩, stopNode, stopKey, hstop, hstopKey, hstopLt⟩ :=
              dictSetLoop_same hrest
            obtain rfl := Option.some.inj (hcellNode.symm.trans hstop)
            rw [hnext]
            refine .behind ?_ hcells hstop hstopKey hstopLt
            intro hbefore
            obtain ⟨node', key', hnode', hkey', hlt'⟩ := hbefore first hfirst
            obtain rfl := Option.some.inj (hnode.symm.trans hnode')
            obtain rfl := Option.some.inj (hkey.symm.trans hkey')
            exact hlt hlt'

/-- A call whose key is below the first key needs one turn of the loop. -/
theorem dictSetWith_of_beforeFirst {head : DictNode BencodeObj} {val copy : BencodeObj}
    {name : CString} (hcopy : clone val = .ok copy) (hhead : nodes[0]? = some head)
    (hbefore : BeforeFirst nodes head.next name) :
    dictSetWith clone (fuel + 1) (.dict nodes) (some name) val =
      .ok (.dict (spliced nodes 0 head head.next name copy)) := by
  have hloop : dictSetLoop nodes (some name) (fuel + 1) (some 0) head.next =
      .ok (some 0, head.next) := by
    cases hfirst : head.next with
    | none => simp [dictSetLoop]
    | some first =>
        obtain ⟨node, key, hnode, hkey, hlt⟩ := hbefore first hfirst
        exact dictSetLoop_of_lt hnode hkey hlt
  simp [dictSetWith, hcopy, dictOf, hhead, hloop, spliced]

/-! ## The store after the call -/

section Spliced

variable {curr : ℕ} {currNode : DictNode BencodeObj} {next : Option ℕ} {name : CString}
variable {val : BencodeObj}

theorem spliced_curr (hcurr : nodes[curr]? = some currNode) :
    (spliced nodes curr currNode next name val)[curr]? =
      some { currNode with next := some nodes.length } := by
  obtain ⟨hlt, _⟩ := List.getElem?_eq_some_iff.mp hcurr
  simp [spliced, List.getElem?_append, hlt]

theorem spliced_new :
    (spliced nodes curr currNode next name val)[nodes.length]? =
      some { key := some name, val := some val, next := next } := by
  simp [spliced]

theorem spliced_other {cell : ℕ} {node : DictNode BencodeObj} (hcell : cell ≠ curr)
    (hnode : nodes[cell]? = some node) :
    (spliced nodes curr currNode next name val)[cell]? = some node := by
  obtain ⟨hlt, _⟩ := List.getElem?_eq_some_iff.mp hnode
  rw [spliced, List.getElem?_append_left (by simpa using hlt),
    List.getElem?_set_ne (Ne.symm hcell), hnode]

/-- Every node keeps its entry. -/
theorem holdsEntry_spliced {cell : ℕ} {entry : CString × BencodeObj}
    (hcurr : nodes[curr]? = some currNode) (hentry : HoldsEntry nodes cell entry) :
    HoldsEntry (spliced nodes curr currNode next name val) cell entry := by
  obtain ⟨node, hnode, hkey, hval⟩ := hentry
  by_cases hcell : cell = curr
  · rw [hcell] at hnode ⊢
    rw [← Option.some.inj (hcurr.symm.trans hnode)] at hkey hval
    exact ⟨_, spliced_curr hcurr, hkey, hval⟩
  · exact ⟨node, spliced_other hcell hnode, hkey, hval⟩

theorem links_eq_some_iff {cell : ℕ} {link : Option ℕ} :
    links nodes cell = some link ↔ ∃ node, nodes[cell]? = some node ∧ node.next = link := by
  simp [links]

theorem links_spliced_other {cell : ℕ} (hcell : cell ≠ curr)
    (hlink : (links nodes cell).isSome) :
    links (spliced nodes curr currNode next name val) cell = links nodes cell := by
  obtain ⟨link, hlink⟩ := Option.isSome_iff_exists.mp hlink
  obtain ⟨node, hnode, hnext⟩ := links_eq_some_iff.mp hlink
  rw [hlink, links_eq_some_iff]
  exact ⟨node, spliced_other hcell hnode, hnext⟩

theorem links_spliced_curr (hcurr : nodes[curr]? = some currNode) :
    links (spliced nodes curr currNode next name val) curr = some (some nodes.length) := by
  simp [links, spliced_curr hcurr]

theorem links_spliced_new :
    links (spliced nodes curr currNode next name val) nodes.length = some next := by
  simp [links, spliced_new]

end Spliced

/-- The head of a dict whose chain ends is not on the chain. -/
theorem zero_not_mem_of_chain {head : DictNode BencodeObj} {cells : List ℕ}
    (hhead : nodes[0]? = some head) (hchain : Chain (links nodes) head.next cells) :
    0 ∉ cells := by
  have hwhole : Chain (links nodes) (some 0) (0 :: cells) :=
    .cons (links_eq_some_iff.mpr ⟨head, hhead, rfl⟩) hchain
  exact (List.nodup_cons.mp hwhole.chain_nodup).1

/-- A node put in front becomes the first entry; the others stay. -/
theorem dictHolds_spliced_front {head : DictNode BencodeObj} {name : CString}
    {val : BencodeObj} {entries : List (CString × BencodeObj)}
    (hhead : nodes[0]? = some head) (hholds : DictHolds (.dict nodes) entries) :
    DictHolds (.dict (spliced nodes 0 head head.next name val)) ((name, val) :: entries) := by
  obtain ⟨_, head', cells, hdict, hhead', hkey, hchain, hentries⟩ := hholds
  obtain rfl := BencodeObj.dict.inj hdict
  obtain rfl := Option.some.inj (hhead.symm.trans hhead')
  have hzero := zero_not_mem_of_chain hhead hchain
  refine ⟨_, _, nodes.length :: cells, rfl, spliced_curr hhead, hkey, ?_, ?_⟩
  · refine .cons links_spliced_new (hchain.congr ?_)
    intro cell hcell
    exact links_spliced_other (fun heq => hzero (heq ▸ hcell)) (hchain.link_isSome cell hcell)
  · exact .cons ⟨_, spliced_new, rfl, rfl⟩ (hentries.imp fun _ _ => holdsEntry_spliced hhead)

/-- On a chain that ends, only its first key decides about the front. -/
theorem beforeFirst_iff {head : DictNode BencodeObj} {name : CString}
    {entries : List (CString × BencodeObj)} (hhead : nodes[0]? = some head)
    (hholds : DictHolds (.dict nodes) entries) :
    BeforeFirst nodes head.next name ↔ ∀ entry ∈ entries.head?, name < entry.1 := by
  obtain ⟨_, head', cells, hdict, hhead', _, hchain, hentries⟩ := hholds
  obtain rfl := BencodeObj.dict.inj hdict
  obtain rfl := Option.some.inj (hhead.symm.trans hhead')
  cases hentries with
  | nil => simp [BeforeFirst, segment_nil_iff.mp hchain]
  | @cons cell entry cells entries hentry _ =>
      obtain ⟨hfirst, _⟩ := segment_cons_iff.mp hchain
      obtain ⟨node, hnode, hkey, _⟩ := hentry
      simp [BeforeFirst, hfirst, hnode, hkey]

/-! ## Chains that never end -/

/-- The chain after the head of `dict` never ends. -/
def EndlessDict (dict : BencodeObj) : Prop :=
  ∃ nodes head, dict = .dict nodes ∧ nodes[0]? = some head ∧ head.key = none ∧
    Endless (links nodes) head.next

theorem EndlessDict.not_dictHolds {dict : BencodeObj} (hendless : EndlessDict dict)
    (entries : List (CString × BencodeObj)) : ¬ DictHolds dict entries := by
  obtain ⟨nodes, head, rfl, hhead, _, hnext⟩ := hendless
  rintro ⟨_, head', cells, hdict, hhead', _, hchain, _⟩
  obtain rfl := BencodeObj.dict.inj hdict
  obtain rfl := Option.some.inj (hhead.symm.trans hhead')
  exact hnext.not_chain cells hchain

/-- A node linked behind the one that it points to closes a cycle. -/
theorem endless_spliced_behind {curr : ℕ} {currNode head : DictNode BencodeObj}
    {cells : List ℕ} {key name : CString} {val : BencodeObj} (hhead : nodes[0]? = some head)
    (hheadKey : head.key = none) (hcells : Segment (links nodes) head.next cells (some curr))
    (hcurr : nodes[curr]? = some currNode) (hkey : currNode.key = some key) :
    EndlessDict (.dict (spliced nodes curr currNode (some curr) name val)) := by
  have hne : 0 ≠ curr := by
    intro heq
    rw [← heq, hhead] at hcurr
    rw [← Option.some.inj hcurr, hheadKey] at hkey
    exact Option.some_ne_none _ hkey.symm
  obtain ⟨before, hsubset, hbefore, hsegment⟩ := hcells.exists_first_visit
  have hsame : Segment (links (spliced nodes curr currNode (some curr) name val))
      head.next before (some curr) := by
    apply hsegment.congr
    intro cell hcell
    exact links_spliced_other (fun heq => hbefore (heq ▸ hcell))
      (hsegment.link_isSome cell hcell)
  have hloop : Segment (links (spliced nodes curr currNode (some curr) name val))
      (some curr) [curr, nodes.length] (some curr) :=
    .cons (links_spliced_curr hcurr) (.cons links_spliced_new .nil)
  exact ⟨_, head, rfl, spliced_other hne hhead, hheadKey,
    hsame.endless_of_stop (hloop.endless (by simp))⟩

/-- A node put in front of an endless chain leaves it endless. -/
theorem endless_spliced_front {head : DictNode BencodeObj} {name : CString}
    {val : BencodeObj} (hhead : nodes[0]? = some head) (hheadKey : head.key = none)
    (hendless : Endless (links nodes) head.next) :
    EndlessDict (.dict (spliced nodes 0 head head.next name val)) := by
  refine ⟨_, _, rfl, spliced_curr hhead, hheadKey, ?_⟩
  obtain ⟨region, ⟨first, hfirst, hnext⟩, hregion⟩ := hendless
  refine ⟨insert nodes.length region, ⟨_, Set.mem_insert _ _, rfl⟩, ?_⟩
  intro cell hcell
  rcases Set.mem_insert_iff.mp hcell with hnew | hcell
  · rw [hnew, links_spliced_new]
    exact ⟨first, Set.mem_insert_of_mem _ hfirst, congrArg some hnext⟩
  · by_cases hzero : cell = 0
    · rw [hzero, links_spliced_curr hhead]
      exact ⟨_, Set.mem_insert _ _, rfl⟩
    · obtain ⟨next, hnext', hlink⟩ := hregion cell hcell
      rw [links_spliced_other hzero (by simp [hlink])]
      exact ⟨next, Set.mem_insert_of_mem _ hnext', hlink⟩

end I2pLite.DictSet
