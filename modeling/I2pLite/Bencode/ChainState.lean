import I2pLite.Bencode.Clone
import I2pLite.Bencode.MoreFuel

/-!
# The chain of a dict, seen through its keys

What further calls of `bencode_obj_dict_set` do, and whether a dict can be
copied or released, is decided by the keys that a walk meets before it comes
back to a node, and by whether it comes back.  `KeyChain` is that much of a
dict, and `KeyChain.set` what a call does to it.
-/

namespace I2pLite.ChainState

open I2pLite.CRun
open I2pLite.CBytes
open I2pLite.LinkedChain
open I2pLite.Bencoding
open I2pLite.BencodeObject
open I2pLite.Denotation
open I2pLite.DictSet
open I2pLite.Clone
open I2pLite.MoreFuel

structure KeyChain where
  keys : List CString
  looped : Bool
  deriving DecidableEq

def KeyChain.empty : KeyChain := { keys := [], looped := false }

/-- A key below all others goes in front.  Any other key closes a cycle behind
the first key above it, and without one the call does not return. -/
def KeyChain.set (chain : KeyChain) (name : CString) : Option KeyChain :=
  match chain.keys.takeWhile (· ≤ name), chain.keys.dropWhile (· ≤ name) with
  | [], _ => some { chain with keys := name :: chain.keys }
  | _ :: _, [] => none
  | first :: below, above :: _ => some { keys := first :: (below ++ [above]), looped := true }

section Set

variable {chain chain' : KeyChain} {name : CString}

private theorem above_of_dropWhile {keys rest : List CString} {above : CString}
    (hdrop : keys.dropWhile (· ≤ name) = above :: rest) : name < above := by
  have hhead := List.head_dropWhile_not (fun key => decide (key ≤ name)) (l := keys)
    (by simp [hdrop])
  simpa [hdrop] using hhead

private theorem le_of_mem_takeWhile {keys : List CString} {key : CString}
    (hkey : key ∈ keys.takeWhile (· ≤ name)) : key ≤ name := by
  simpa using List.mem_takeWhile_imp hkey

/-- The two ways of a call that returns. -/
theorem KeyChain.set_eq_some (hset : chain.set name = some chain') :
    ((∀ key ∈ chain.keys.head?, name < key) ∧
        chain' = { chain with keys := name :: chain.keys }) ∨
      ∃ before above after, chain.keys = before ++ above :: after ∧ before ≠ [] ∧
        (∀ key ∈ before, key ≤ name) ∧ name < above ∧
        chain' = { keys := before ++ [above], looped := true } := by
  have hsplit := List.takeWhile_append_dropWhile (p := (· ≤ name)) (l := chain.keys)
  unfold KeyChain.set at hset
  split at hset
  · rename_i htake
    refine Or.inl ⟨fun key hkey => ?_, (Option.some.inj hset).symm⟩
    rw [htake, List.nil_append] at hsplit
    rw [← hsplit] at hkey
    cases hdrop : chain.keys.dropWhile (· ≤ name) with
    | nil => simp [hdrop] at hkey
    | cons above after =>
        obtain rfl : above = key := by simpa [hdrop] using hkey
        exact above_of_dropWhile hdrop
  · exact absurd hset (by simp)
  · rename_i first below above after htake hdrop
    refine Or.inr ⟨first :: below, above, after, ?_, by simp, ?_, above_of_dropWhile hdrop, ?_⟩
    · rw [← hsplit, htake, hdrop]
    · rw [← htake]
      exact fun key => le_of_mem_takeWhile
    · rw [List.cons_append]
      exact (Option.some.inj hset).symm

/-- A call that does not return finds no key above its own. -/
theorem KeyChain.set_eq_none (hset : chain.set name = none) :
    chain.keys ≠ [] ∧ ∀ key ∈ chain.keys, key ≤ name := by
  have hsplit := List.takeWhile_append_dropWhile (p := (· ≤ name)) (l := chain.keys)
  unfold KeyChain.set at hset
  split at hset
  · exact absurd hset (by simp)
  · rename_i first below htake hdrop
    rw [hdrop, List.append_nil] at hsplit
    refine ⟨?_, fun key hkey => le_of_mem_takeWhile (hsplit.symm ▸ hkey)⟩
    rw [← hsplit, htake]
    simp
  · exact absurd hset (by simp)

end Set

theorem lt_of_lt_head {keys : List CString} {name : CString} (hascending : keys.Pairwise (· < ·))
    (hhead : ∀ key ∈ keys.head?, name < key) : ∀ key ∈ keys, name < key := by
  cases keys with
  | nil => simp
  | cons first others =>
      have hfirst : name < first := hhead first rfl
      intro key hkey
      rcases List.mem_cons.mp hkey with rfl | hkey
      · exact hfirst
      · exact hfirst.trans ((List.pairwise_cons.mp hascending).1 key hkey)

/-- The chain that keys build, set one after the other. -/
def chainFrom (chain : KeyChain) (keys : List CString) : Option KeyChain :=
  keys.foldlM KeyChain.set chain

/-- As long as the keys descend, and only then, no cycle is closed. -/
theorem looped_eq_false_iff {keys : List CString} {chain : KeyChain}
    (hchain : chainFrom .empty keys = some chain) :
    (chain.looped = false ↔ keys.Pairwise (· > ·)) ∧
      (chain.looped = false → chain.keys = keys.reverse) := by
  induction keys using List.reverseRecOn generalizing chain with
  | nil =>
      obtain rfl : KeyChain.empty = chain := by simpa [chainFrom] using hchain
      simp [KeyChain.empty]
  | append_singleton keys key ih =>
      obtain ⟨before, hbefore, hset⟩ : ∃ before, chainFrom .empty keys = some before ∧
          before.set key = some chain := by
        simpa [chainFrom, List.foldlM_append, Option.bind_eq_some_iff] using hchain
      obtain ⟨hlooped, hkeys⟩ := ih hbefore
      rcases KeyChain.set_eq_some hset with ⟨hbelow, rfl⟩ |
        ⟨left, above, right, hsplit, hne, hle, _, rfl⟩
      · refine ⟨⟨fun hfalse => ?_, fun hpairwise => ?_⟩, fun hfalse => ?_⟩
        · have hdescending := hlooped.mp hfalse
          have hascending : before.keys.Pairwise (· < ·) := by
            rwa [hkeys hfalse, List.pairwise_reverse]
          refine List.pairwise_append.mpr ⟨hdescending, List.pairwise_singleton _ _, ?_⟩
          intro earlier hearlier last hlast
          rw [List.mem_singleton.mp hlast]
          exact lt_of_lt_head hascending hbelow earlier (by simpa [hkeys hfalse] using hearlier)
        · exact hlooped.mpr (List.pairwise_append.mp hpairwise).1
        · rw [List.reverse_append, List.reverse_singleton, List.singleton_append, hkeys hfalse]
      · refine ⟨iff_of_false (by simp) fun hpairwise => ?_, by simp⟩
        obtain ⟨hdescending, _, hlast⟩ := List.pairwise_append.mp hpairwise
        obtain ⟨earlier, left, rfl⟩ := List.exists_cons_of_ne_nil hne
        have hmem : earlier ∈ keys := by
          rw [← List.mem_reverse, ← hkeys (hlooped.mpr hdescending), hsplit]
          simp
        exact (hle earlier (by simp)).not_gt (hlast earlier hmem key (by simp))

/-- A chain has two keys as soon as two keys are set. -/
theorem length_le_one_iff {keys : List CString} {chain : KeyChain}
    (hchain : chainFrom .empty keys = some chain) :
    chain.keys.length ≤ 1 ↔ keys.length ≤ 1 := by
  have hlength : ∀ {first second : KeyChain} {name : CString}, first.set name = some second →
      1 ≤ second.keys.length ∧ (1 ≤ first.keys.length → 2 ≤ second.keys.length) := by
    intro first second name hset
    rcases KeyChain.set_eq_some hset with ⟨_, rfl⟩ | ⟨left, _, _, _, hne, _, _, rfl⟩
    · simp
    · have := List.length_pos_iff.mpr hne
      simp only [List.length_append, List.length_singleton]
      omega
  have hgrows : ∀ (names : List CString) {first second : KeyChain}, 2 ≤ first.keys.length →
      chainFrom first names = some second → 2 ≤ second.keys.length := by
    intro names
    induction names with
    | nil =>
        intro first second htwo hfold
        obtain rfl : first = second := by simpa [chainFrom] using hfold
        exact htwo
    | cons name names ih =>
        intro first second htwo hfold
        obtain ⟨next, hset, hrest⟩ : ∃ next, first.set name = some next ∧
            chainFrom next names = some second := by
          simpa [chainFrom, Option.bind_eq_some_iff] using hfold
        exact ih ((hlength hset).2 (by omega)) hrest
  match keys with
  | [] =>
      obtain rfl : KeyChain.empty = chain := by simpa [chainFrom] using hchain
      simp [KeyChain.empty]
  | [key] =>
      obtain rfl : KeyChain.mk [key] false = chain := by
        simpa [chainFrom, KeyChain.set, KeyChain.empty] using hchain
      simp
  | first :: second :: others =>
      obtain ⟨one, hone, two, htwo, hrest⟩ : ∃ one, KeyChain.empty.set first = some one ∧
          ∃ two, one.set second = some two ∧ chainFrom two others = some chain := by
        simpa [chainFrom, Option.bind_eq_some_iff] using hchain
      have hmany := hgrows others ((hlength htwo).2 (hlength hone).1) hrest
      refine iff_of_false (by omega) ?_
      simp

/-! ## Releasing -/

/-- `bencode_obj_free` releases the object. -/
def Frees (obj : BencodeObj) : Prop := ∃ fuel, bencodeObjFree fuel obj = .ok ()

theorem frees_str (data : List Byte) : Frees (.str data) := ⟨1, rfl⟩

theorem frees_integer (value : Int64) : Frees (.integer value) := ⟨1, rfl⟩

/-- Releasing a list follows the value of every node. -/
theorem frees_list_null {vals : List (ObjPtr BencodeObj)} (hvals : ∀ val ∈ vals, val = .null) :
    Frees (.list vals) := by
  refine ⟨1, ?_⟩
  rw [bencodeObjFree, List.forM_eq_forM]
  induction vals with
  | nil => rfl
  | cons val vals ih =>
      rw [List.forM_cons, hvals val (by simp)]
      exact ih fun other hother => hvals other (by simp [hother])

theorem free_list_freed_ne_ok {vals : List (ObjPtr BencodeObj)} (hfreed : .freed ∈ vals)
    (fuel : ℕ) : bencodeObjFree fuel (.list vals) ≠ .ok () := by
  intro hfree
  cases fuel with
  | zero => simp [bencodeObjFree] at hfree
  | succ fuel =>
      rw [bencodeObjFree, List.forM_eq_forM] at hfree
      induction vals with
      | nil => simp at hfreed
      | cons val vals ih =>
          rw [List.forM_cons, bind_eq_ok] at hfree
          obtain ⟨_, hval, hrest⟩ := hfree
          rcases List.mem_cons.mp hfreed with rfl | hfreed
          · simp [objOf] at hval
          · exact ih hfreed hrest

theorem freeDictFrom_endless_ne_ok {free : BencodeObj → Run Unit} {nodes : DictStore}
    {start : Option ℕ} (hendless : Endless (links nodes) start) (fuel : ℕ) (released : List ℕ) :
    freeDictFrom free nodes fuel released start ≠ .ok () := by
  obtain ⟨region, hstart, hregion⟩ := hendless
  intro hfree
  induction fuel generalizing start released with
  | zero =>
      obtain ⟨cell, _, rfl⟩ := hstart
      simp [freeDictFrom] at hfree
  | succ fuel ih =>
      obtain ⟨cell, hcell, rfl⟩ := hstart
      obtain ⟨next, hnext, hlink⟩ := hregion cell hcell
      obtain ⟨node, hnode, hnodeNext⟩ := links_eq_some_iff.mp hlink
      simp only [freeDictFrom, nodeAt_of_getElem? hnode, ok_bind] at hfree
      split_ifs at hfree
      obtain ⟨_, _, hrest⟩ := bind_eq_ok.mp hfree
      exact ih _ ⟨next, hnext, hnodeNext⟩ hrest

/-- A dict whose chain never ends cannot be released. -/
theorem free_endless_ne_ok {dict : BencodeObj} (hendless : EndlessDict dict) (fuel : ℕ) :
    bencodeObjFree fuel dict ≠ .ok () := by
  obtain ⟨nodes, head, rfl, hhead, _, hnext⟩ := hendless
  intro hfree
  match fuel with
  | 0 => simp [bencodeObjFree] at hfree
  | 1 => simp [bencodeObjFree, freeDictFrom] at hfree
  | fuel + 2 =>
      simp only [bencodeObjFree, freeDictFrom, nodeAt_of_getElem? hhead, ok_bind,
        List.not_mem_nil, if_false] at hfree
      obtain ⟨_, _, hrest⟩ := bind_eq_ok.mp hfree
      exact freeDictFrom_endless_ne_ok hnext _ _ hrest

theorem freeDictFrom_chain {free : BencodeObj → Run Unit} {nodes : DictStore} {start : Option ℕ}
    {cells released : List ℕ} {fuel : ℕ} (hchain : Chain (links nodes) start cells)
    (hfree : ∀ cell ∈ cells, ∃ entry, HoldsEntry nodes cell entry ∧ free entry.2 = .ok ())
    (hreleased : ∀ cell ∈ cells, cell ∉ released) (hfuel : cells.length ≤ fuel) :
    freeDictFrom free nodes fuel released start = .ok () := by
  induction cells generalizing start released fuel with
  | nil =>
      rw [segment_nil_iff.mp hchain]
      cases fuel <;> rfl
  | cons cell cells ih =>
      have hnodup := hchain.chain_nodup
      obtain ⟨rfl, next, hlink, hcells⟩ := segment_cons_iff.mp hchain
      obtain ⟨entry, ⟨node, hnode, _, hval⟩, hentry⟩ := hfree cell (by simp)
      obtain ⟨fuel, rfl⟩ := Nat.exists_eq_add_of_le' (show 1 ≤ fuel by simp at hfuel; omega)
      have hnext : node.next = next := by simpa [links, hnode] using hlink
      simp only [freeDictFrom, nodeAt_of_getElem? hnode, ok_bind, hval, freeIfSet, hentry, hnext,
        if_neg (hreleased cell (by simp))]
      refine ih hcells (fun other hother => hfree other (by simp [hother])) ?_
        (by simpa using hfuel)
      intro other hother
      rw [List.mem_cons, not_or]
      refine ⟨?_, hreleased other (by simp [hother])⟩
      rintro rfl
      exact (List.nodup_cons.mp hnodup).1 hother

/-! ## Dicts and their key chains -/

/-- A value that the chain keeps: it can be copied again and released. -/
def Stored (val : BencodeObj) : Prop := Flat val ∧ Frees val

def HoldsKey (nodes : DictStore) (cell : ℕ) (key : CString) : Prop :=
  ∃ val, HoldsEntry nodes cell (key, val) ∧ Stored val

/-- The walk from `head` meets the keys of the chain in `cells` and goes on at
`stop`; no key that it ever meets is above all of these. -/
structure Walks (chain : KeyChain) (nodes : DictStore) (head : DictNode BencodeObj)
    (cells : List ℕ) (stop : Option ℕ) : Prop where
  headNode : nodes[0]? = some head
  headKey : head.key = none
  headVal : head.val = none
  segment : Segment (links nodes) head.next cells stop
  keys : List.Forall₂ (HoldsKey nodes) cells chain.keys
  ascending : chain.keys.Pairwise (· < ·)
  region : ∃ region : Set ℕ, (∀ first, head.next = some first → first ∈ region) ∧
    ∀ cell ∈ region, (∀ next, links nodes cell = some (some next) → next ∈ region) ∧
      ∃ key, HoldsKey nodes cell key ∧ ∃ bound ∈ chain.keys, key ≤ bound
  ends : chain.looped = false → stop = none
  loops : chain.looped = true → 2 ≤ chain.keys.length ∧ EndlessDict (.dict nodes)

def HoldsChain (chain : KeyChain) (dict : BencodeObj) : Prop :=
  ∃ nodes head cells stop, dict = .dict nodes ∧ Walks chain nodes head cells stop

theorem holdsChain_empty : HoldsChain .empty bencodeObjDict := by
  refine ⟨[{}], {}, [], none, rfl, ?_⟩
  exact {
    headNode := rfl
    headKey := rfl
    headVal := rfl
    segment := .nil
    keys := .nil
    ascending := .nil
    region := ⟨∅, by simp, by simp⟩
    ends := fun _ => rfl
    loops := by simp [KeyChain.empty] }

section Steps

variable {chain : KeyChain} {nodes : DictStore} {head : DictNode BencodeObj}
variable {cells : List ℕ} {stop : Option ℕ} {name : CString} {copy : BencodeObj}

theorem HoldsKey.isSome {cell : ℕ} {key : CString} (hkey : HoldsKey nodes cell key) :
    (links nodes cell).isSome := by
  obtain ⟨_, ⟨node, hnode, _⟩, _⟩ := hkey
  simp [links, hnode]

theorem HoldsKey.unique {cell : ℕ} {key key' : CString} (hkey : HoldsKey nodes cell key)
    (hkey' : HoldsKey nodes cell key') : key = key' := by
  obtain ⟨_, ⟨node, hnode, hname, _⟩, _⟩ := hkey
  obtain ⟨_, ⟨node', hnode', hname', _⟩, _⟩ := hkey'
  obtain rfl := Option.some.inj (hnode.symm.trans hnode')
  exact Option.some.inj (hname.symm.trans hname')

theorem HoldsKey.spliced {cell curr : ℕ} {currNode : DictNode BencodeObj} {next : Option ℕ}
    {key : CString} (hcurr : nodes[curr]? = some currNode) (hkey : HoldsKey nodes cell key) :
    HoldsKey (spliced nodes curr currNode next name copy) cell key := by
  obtain ⟨val, hentry, hval⟩ := hkey
  exact ⟨val, holdsEntry_spliced hcurr hentry, hval⟩

theorem Walks.ne_zero (hwalks : Walks chain nodes head cells stop) {cell : ℕ} {key : CString}
    (hkey : HoldsKey nodes cell key) : cell ≠ 0 := by
  rintro rfl
  obtain ⟨_, ⟨node, hnode, hname, _⟩, _⟩ := hkey
  obtain rfl := Option.some.inj (hwalks.headNode.symm.trans hnode)
  exact Option.some_ne_none _ (hname.symm.trans hwalks.headKey)

/-- A key below all others, put in front. -/
theorem Walks.front (hwalks : Walks chain nodes head cells stop)
    (hbelow : ∀ key ∈ chain.keys, name < key) (hcopy : Stored copy) :
    HoldsChain { chain with keys := name :: chain.keys }
      (.dict (spliced nodes 0 head head.next name copy)) := by
  have hhead := hwalks.headNode
  have hlinks : ∀ {cell : ℕ} {key : CString}, HoldsKey nodes cell key →
      links (spliced nodes 0 head head.next name copy) cell = links nodes cell :=
    fun hkey => links_spliced_other (hwalks.ne_zero hkey) hkey.isSome
  refine ⟨_, { head with next := some nodes.length }, nodes.length :: cells, stop, rfl, ?_⟩
  exact {
    headNode := spliced_curr hhead
    headKey := hwalks.headKey
    headVal := hwalks.headVal
    segment := by
      refine .cons links_spliced_new (hwalks.segment.congr fun cell hcell => ?_)
      obtain ⟨key, _, hkey⟩ := exists_right_of_mem hwalks.keys hcell
      exact hlinks hkey
    keys := .cons ⟨copy, ⟨_, spliced_new, rfl, rfl⟩, hcopy⟩
      (hwalks.keys.imp fun _ _ hkey => hkey.spliced hhead)
    ascending := List.pairwise_cons.mpr ⟨hbelow, hwalks.ascending⟩
    region := by
      obtain ⟨region, hfirst, hregion⟩ := hwalks.region
      refine ⟨insert nodes.length region, ?_, ?_⟩
      · intro first hnew
        obtain rfl := Option.some.inj hnew
        exact Set.mem_insert _ _
      · intro cell hcell
        rcases Set.mem_insert_iff.mp hcell with rfl | hcell
        · refine ⟨?_, name, ⟨copy, ⟨_, spliced_new, rfl, rfl⟩, hcopy⟩, name, by simp, le_rfl⟩
          intro next hnext
          rw [links_spliced_new] at hnext
          exact Set.mem_insert_of_mem _ (hfirst next (Option.some.inj hnext))
        · obtain ⟨hclosed, key, hkey, bound, hbound, hle⟩ := hregion cell hcell
          refine ⟨?_, key, hkey.spliced hhead, bound, List.mem_cons_of_mem _ hbound, hle⟩
          intro next hnext
          rw [hlinks hkey] at hnext
          exact Set.mem_insert_of_mem _ (hclosed next hnext)
    ends := hwalks.ends
    loops := by
      intro hlooped
      obtain ⟨hlength, _, _, hdict, hhead', _, hendless⟩ := hwalks.loops hlooped
      obtain rfl := BencodeObj.dict.inj hdict
      obtain rfl := Option.some.inj (hhead.symm.trans hhead')
      exact ⟨by simp; omega, endless_spliced_front hhead hwalks.headKey hendless⟩ }

/-- A key that comes behind the first key above it. -/
theorem Walks.behind {curr : ℕ} {currNode : DictNode BencodeObj} {left : List ℕ}
    {before : List CString} {above : CString} (hwalks : Walks chain nodes head cells stop)
    (hleft : Segment (links nodes) head.next left (some curr))
    (hbefore : List.Forall₂ (HoldsKey nodes) left before)
    (hcurr : nodes[curr]? = some currNode) (habove : HoldsKey nodes curr above)
    (hne : before ≠ []) (hle : ∀ key ∈ before, key ≤ name) (hlt : name < above)
    (hascending : (before ++ [above]).Pairwise (· < ·)) (hcopy : Stored copy) :
    HoldsChain { keys := before ++ [above], looped := true }
      (.dict (spliced nodes curr currNode (some curr) name copy)) := by
  have hzero : 0 ≠ curr := (hwalks.ne_zero habove).symm
  have hother : ∀ cell ∈ left, cell ≠ curr := by
    rintro cell hcell rfl
    obtain ⟨key, hkey, hholds⟩ := exists_right_of_mem hbefore hcell
    exact (hle key hkey).not_gt (hholds.unique habove ▸ hlt)
  have hlinks : ∀ cell ∈ left, links (spliced nodes curr currNode (some curr) name copy) cell =
      links nodes cell :=
    fun cell hcell => links_spliced_other (hother cell hcell) (hleft.link_isSome cell hcell)
  have hsame : Segment (links (spliced nodes curr currNode (some curr) name copy))
      head.next left (some curr) := hleft.congr hlinks
  obtain ⟨_, ⟨node, hnode, hname, _⟩, _⟩ := id habove
  obtain rfl := Option.some.inj (hcurr.symm.trans hnode)
  refine ⟨_, head, left ++ [curr], some nodes.length, rfl, ?_⟩
  exact {
    headNode := spliced_other hzero hwalks.headNode
    headKey := hwalks.headKey
    headVal := hwalks.headVal
    segment := segment_append_iff.mpr ⟨_, hsame, .cons (links_spliced_curr hcurr) .nil⟩
    keys := List.rel_append (hbefore.imp fun _ _ hkey => hkey.spliced hcurr)
      (.cons (habove.spliced hcurr) .nil)
    ascending := hascending
    region := by
      refine ⟨{cell | cell ∈ left ∨ cell = curr ∨ cell = nodes.length}, ?_, ?_⟩
      · intro first hfirst
        cases left with
        | nil => exact Or.inr (Or.inl (Option.some.inj (hfirst.symm.trans
            (segment_nil_iff.mp hleft))))
        | cons cell left =>
            obtain rfl := Option.some.inj (hfirst.symm.trans (segment_cons_iff.mp hleft).1)
            exact Or.inl (by simp)
      · rintro cell (hcell | rfl | rfl)
        · obtain ⟨key, hkey, hholds⟩ := exists_right_of_mem hbefore hcell
          refine ⟨?_, key, hholds.spliced hcurr, key, by simp [hkey], le_rfl⟩
          intro next hnext
          rcases hsame.next_eq cell hcell _ hnext with ⟨other, hmem, heq⟩ | hstop
          · exact Or.inl (Option.some.inj heq ▸ hmem)
          · exact Or.inr (Or.inl (Option.some.inj hstop))
        · refine ⟨?_, above, habove.spliced hcurr, above, by simp, le_rfl⟩
          intro next hnext
          rw [links_spliced_curr hcurr] at hnext
          exact Or.inr (Or.inr (Option.some.inj (Option.some.inj hnext)).symm)
        · refine ⟨?_, name, ⟨copy, ⟨_, spliced_new, rfl, rfl⟩, hcopy⟩, above, by simp, hlt.le⟩
          intro next hnext
          rw [links_spliced_new] at hnext
          exact Or.inr (Or.inl (Option.some.inj (Option.some.inj hnext)).symm)
    ends := by simp
    loops := by
      intro _
      refine ⟨?_, endless_spliced_behind hwalks.headNode hwalks.headKey hleft hcurr hname⟩
      rw [List.length_append, List.length_singleton]
      have := List.length_pos_iff.mpr hne
      omega }

/-- The first node has the first key of the chain. -/
theorem Walks.first_key (hwalks : Walks chain nodes head cells stop) {first : ℕ}
    (hfirst : head.next = some first) : ∃ key ∈ chain.keys.head?, HoldsKey nodes first key := by
  have hsegment := hwalks.segment
  have hkeys := hwalks.keys
  cases cells with
  | nil =>
      -- without a key the chain has ended
      have hempty : chain.keys = [] := List.forall₂_nil_left_iff.mp hkeys
      have hlooped : chain.looped = false := by
        by_contra htrue
        have := (hwalks.loops (by simpa using htrue)).1
        simp [hempty] at this
      rw [hwalks.ends hlooped, segment_nil_iff, hfirst] at hsegment
      cases hsegment
  | cons cell cells =>
      obtain ⟨key, keys, hkey, _, heq⟩ := List.forall₂_cons_left_iff.mp hkeys
      obtain rfl := Option.some.inj (hfirst.symm.trans (segment_cons_iff.mp hsegment).1)
      exact ⟨key, by simp [heq], hkey⟩

/-- The loop stops at the first key above its own. -/
theorem dictSetLoop_found {start : Option ℕ} {left : List ℕ} {curr : ℕ} {before : List CString}
    {above : CString} (hleft : Segment (links nodes) start left (some curr))
    (hbefore : List.Forall₂ (HoldsKey nodes) left before) (habove : HoldsKey nodes curr above)
    (hle : ∀ key ∈ before, key ≤ name) (hlt : name < above) :
    dictSetLoop nodes (some name) (left.length + 1) start start = .ok (some curr, some curr) := by
  induction hbefore generalizing start with
  | nil =>
      rw [segment_nil_iff.mp hleft]
      obtain ⟨_, ⟨node, hnode, hkey, _⟩, _⟩ := habove
      exact dictSetLoop_of_lt hnode hkey hlt
  | @cons cell key left before hkey _ ih =>
      obtain ⟨rfl, next, hlink, hrest⟩ := segment_cons_iff.mp hleft
      obtain ⟨node, hnode, hnext⟩ := links_eq_some_iff.mp hlink
      obtain ⟨_, ⟨node', hnode', hname, _⟩, _⟩ := hkey
      refine dictSetLoop_succ_eq_ok.mpr ⟨node', key, hnode', hname, Or.inr ⟨?_, ?_⟩⟩
      · exact (hle key (by simp)).not_gt
      · refine ⟨cell, node, rfl, hnode, ?_⟩
        rw [hnext]
        exact ih hrest fun other hother => hle other (by simp [hother])

/-- From the head, the first turn makes both cursors the first node. -/
theorem Walks.loop_found {left : List ℕ} {curr fuel : ℕ} {before : List CString} {above : CString}
    (hwalks : Walks chain nodes head cells stop)
    (hleft : Segment (links nodes) head.next left (some curr))
    (hbefore : List.Forall₂ (HoldsKey nodes) left before) (habove : HoldsKey nodes curr above)
    (hne : before ≠ []) (hle : ∀ key ∈ before, key ≤ name) (hlt : name < above)
    (hfuel : left.length + 1 < fuel) :
    dictSetLoop nodes (some name) fuel (some 0) head.next = .ok (some curr, some curr) := by
  have hfound := dictSetLoop_keeps (show left.length + 1 ≤ fuel - 1 by omega) _ _ _
    (dictSetLoop_found hleft hbefore habove hle hlt)
  cases hbefore with
  | nil => exact absurd rfl hne
  | @cons first key left before hkey _ =>
      obtain ⟨hfirst, _⟩ := segment_cons_iff.mp hleft
      obtain ⟨_, ⟨node, hnode, hname, _⟩, _⟩ := hkey
      obtain ⟨fuel, rfl⟩ := Nat.exists_eq_add_of_le' (show 1 ≤ fuel by omega)
      rw [hfirst] at hfound ⊢
      refine dictSetLoop_succ_eq_ok.mpr ⟨node, key, hnode, hname, Or.inr ⟨?_, ?_⟩⟩
      · exact (hle key (by simp)).not_gt
      · exact ⟨0, head, rfl, hwalks.headNode, by rw [hfirst]; exact hfound⟩

end Steps

section Calls

variable {chain chain' : KeyChain} {clone : BencodeObj → Run BencodeObj} {fuel : ℕ}
variable {dict dict' val copy : BencodeObj} {name : CString}

/-- A call that the key chain allows returns, with two turns of fuel more than
the chain has keys. -/
theorem HoldsChain.exists_set (hholds : HoldsChain chain dict)
    (hset : chain.set name = some chain') (hclone : clone val = .ok copy) (hcopy : Stored copy)
    (hfuel : chain.keys.length + 1 < fuel) :
    ∃ dict', dictSetWith clone fuel dict (some name) val = .ok dict' ∧
      HoldsChain chain' dict' := by
  obtain ⟨nodes, head, cells, stop, rfl, hwalks⟩ := hholds
  rcases KeyChain.set_eq_some hset with ⟨hbelow, rfl⟩ |
    ⟨before, above, after, hkeys, hne, hle, hlt, rfl⟩
  · have hall := lt_of_lt_head hwalks.ascending hbelow
    refine ⟨_, ?_, hwalks.front hall hcopy⟩
    obtain ⟨fuel, rfl⟩ := Nat.exists_eq_add_of_le' (show 1 ≤ fuel by omega)
    refine dictSetWith_of_beforeFirst hclone hwalks.headNode ?_
    intro first hfirst
    obtain ⟨key, hkey, _, ⟨node, hnode, hname, _⟩, _⟩ := hwalks.first_key hfirst
    exact ⟨node, key, hnode, hname, hbelow key hkey⟩
  · have hcells := hwalks.keys
    rw [hkeys] at hcells
    obtain ⟨left, rest, rfl, hbefore, hrest⟩ : ∃ left rest, cells = left ++ rest ∧
        List.Forall₂ (HoldsKey nodes) left before ∧
        List.Forall₂ (HoldsKey nodes) rest (above :: after) :=
      ⟨_, _, (List.take_append_drop _ _).symm, List.forall₂_take_append _ _ _ hcells,
        List.forall₂_drop_append _ _ _ hcells⟩
    obtain ⟨curr, right, habove, hafter, rfl⟩ := List.forall₂_cons_right_iff.mp hrest
    obtain ⟨middle, hleft, hright⟩ := segment_append_iff.mp hwalks.segment
    obtain ⟨rfl, next, hlink, _⟩ := segment_cons_iff.mp hright
    obtain ⟨_, ⟨currNode, hcurr, hname, _⟩, _⟩ := id habove
    have hascending : (before ++ [above]).Pairwise (· < ·) := by
      have hpairwise := hwalks.ascending
      rw [hkeys, ← List.singleton_append, ← List.append_assoc] at hpairwise
      exact (List.pairwise_append.mp hpairwise).1
    refine ⟨_, ?_, hwalks.behind hleft hbefore hcurr habove hne hle hlt hascending hcopy⟩
    have hlength := hbefore.length_eq
    rw [hkeys, List.length_append, List.length_cons] at hfuel
    have hloop := hwalks.loop_found hleft hbefore habove hne hle hlt
      (show left.length + 1 < fuel by omega)
    simp [dictSetWith, hclone, dictOf, nodeAt_of_getElem? hwalks.headNode,
      nodeAt_of_getElem? hcurr, hloop, spliced]

/-- A call that finds no key above its own does not return. -/
theorem HoldsChain.set_ne_ok (hholds : HoldsChain chain dict) (hset : chain.set name = none) :
    dictSetWith clone fuel dict (some name) val ≠ .ok dict' := by
  intro hcall
  obtain ⟨hne, hle⟩ := KeyChain.set_eq_none hset
  obtain ⟨nodes, head, cells, stop, rfl, hwalks⟩ := hholds
  obtain ⟨_, head', _, _, hdict, hhead', _, _, houtcome⟩ := dictSetWith_eq_ok hcall
  obtain rfl := BencodeObj.dict.inj hdict
  obtain rfl := Option.some.inj (hwalks.headNode.symm.trans hhead')
  cases houtcome with
  | front hbefore =>
      cases hfirst : head.next with
      | none =>
          have hsegment := hwalks.segment
          rw [hfirst] at hsegment
          cases cells with
          | nil => exact hne (List.forall₂_nil_left_iff.mp hwalks.keys)
          | cons cell cells => cases hsegment
      | some first =>
          obtain ⟨key, hkey, _, ⟨node, hnode, hname, _⟩, _⟩ := hwalks.first_key hfirst
          obtain ⟨node', key', hnode', hname', hlt⟩ := hbefore first hfirst
          obtain rfl := Option.some.inj (hnode.symm.trans hnode')
          obtain rfl := Option.some.inj (hname.symm.trans hname')
          exact (hle _ (List.mem_of_mem_head? hkey)).not_gt hlt
  | behind _ hpath hcurr hkey hlt =>
      obtain ⟨region, hfirst, hregion⟩ := hwalks.region
      have hmem := hpath.stop_mem (fun cell hcell => (hregion cell hcell).1) hfirst _ rfl
      obtain ⟨_, key, ⟨_, ⟨node, hnode, hname, _⟩, _⟩, bound, hbound, hkeyLe⟩ := hregion _ hmem
      obtain rfl := Option.some.inj (hcurr.symm.trans hnode)
      obtain rfl := Option.some.inj (hkey.symm.trans hname)
      exact (hkeyLe.trans (hle bound hbound)).not_gt hlt

/-- A call that returns has done what the key chain says. -/
theorem HoldsChain.set_of_ok (hholds : HoldsChain chain dict)
    (hstored : ∀ copy, clone val = .ok copy → Stored copy)
    (hcall : dictSetWith clone fuel dict (some name) val = .ok dict') :
    ∃ chain', chain.set name = some chain' ∧ HoldsChain chain' dict' := by
  cases hset : chain.set name with
  | none => exact absurd hcall (hholds.set_ne_ok hset)
  | some chain' =>
      obtain ⟨_, _, copy, _, _, _, hclone, _⟩ := dictSetWith_eq_ok hcall
      obtain ⟨dict'', hcall', hholds'⟩ := hholds.exists_set hset hclone (hstored copy hclone)
        (show chain.keys.length + 1 < fuel + (chain.keys.length + 2) by omega)
      have hsame := dictSetWith_keeps (fun obj => .refl _)
        (Nat.le_add_right fuel (chain.keys.length + 2)) _ _ _ _ hcall
      rw [hcall'] at hsame
      rw [← Except.ok.inj hsame]
      exact ⟨chain', rfl, hholds'⟩

end Calls

/-! ## Releasing and copying a dict -/

theorem HoldsChain.frees {chain : KeyChain} {dict : BencodeObj} (hholds : HoldsChain chain dict)
    (hlooped : chain.looped = false) : Frees dict := by
  obtain ⟨nodes, head, cells, stop, rfl, hwalks⟩ := hholds
  obtain rfl := hwalks.ends hlooped
  -- enough for every value on the chain
  have hvalues : ∃ bound, ∀ cell ∈ cells, ∃ entry, HoldsEntry nodes cell entry ∧
      bencodeObjFree bound entry.2 = .ok () := by
    refine exists_commonBound (fun cell bound more hmore hcell => ?_) fun cell hcell => ?_
    · obtain ⟨entry, hentry, hfree⟩ := hcell
      exact ⟨entry, hentry, bencodeObjFree_keeps hmore _ _ hfree⟩
    · obtain ⟨key, _, val, hentry, _, bound, hbound⟩ := exists_right_of_mem hwalks.keys hcell
      exact ⟨bound, _, hentry, hbound⟩
  obtain ⟨bound, hbound⟩ := hvalues
  have hzero : ∀ cell ∈ cells, cell ∉ [0] := by
    intro cell hcell
    obtain ⟨key, _, hkey⟩ := exists_right_of_mem hwalks.keys hcell
    simpa using hwalks.ne_zero hkey
  refine ⟨max bound (cells.length + 1) + 2, ?_⟩
  simp only [bencodeObjFree, freeDictFrom, nodeAt_of_getElem? hwalks.headNode, ok_bind,
    List.not_mem_nil, if_false, hwalks.headVal, freeIfSet]
  refine freeDictFrom_chain hwalks.segment ?_ hzero (by omega)
  intro cell hcell
  obtain ⟨entry, hentry, hfree⟩ := hbound cell hcell
  exact ⟨entry, hentry, bencodeObjFree_keeps (by omega) _ _ hfree⟩

theorem HoldsChain.free_ne_ok {chain : KeyChain} {dict : BencodeObj}
    (hholds : HoldsChain chain dict) (hlooped : chain.looped = true) (fuel : ℕ) :
    bencodeObjFree fuel dict ≠ .ok () := by
  obtain ⟨nodes, head, cells, stop, rfl, hwalks⟩ := hholds
  exact free_endless_ne_ok (hwalks.loops hlooped).2 fuel

theorem HoldsChain.flat {chain : KeyChain} {dict : BencodeObj} (hholds : HoldsChain chain dict)
    (hlength : chain.keys.length ≤ 1) : Flat dict := by
  obtain ⟨nodes, head, cells, stop, rfl, hwalks⟩ := hholds
  have hlooped : chain.looped = false := by
    by_contra htrue
    have := (hwalks.loops (by simpa using htrue)).1
    omega
  obtain rfl := hwalks.ends hlooped
  have hkeys := hwalks.keys
  match hchain : chain.keys, hlength with
  | [], _ =>
      rw [hchain, List.forall₂_nil_right_iff] at hkeys
      have hsegment := hwalks.segment
      rw [hkeys] at hsegment
      exact ⟨_, .empty, denotes_dict_nil.mpr
        ⟨nodes, head, [], rfl, hwalks.headNode, hwalks.headKey, hsegment, .nil⟩⟩
  | [name], _ =>
      rw [hchain] at hkeys
      obtain ⟨cell, _, ⟨val, hentry, ⟨value, hflat, hval⟩, _⟩, hnil, hcells⟩ :=
        List.forall₂_cons_right_iff.mp hkeys
      rw [List.forall₂_nil_right_iff.mp hnil] at hcells
      have hsegment := hwalks.segment
      rw [hcells] at hsegment
      exact ⟨_, .single hflat, denotes_dict_single.mpr ⟨name, val,
        ⟨nodes, head, [cell], rfl, hwalks.headNode, hwalks.headKey, hsegment, .cons hentry .nil⟩,
        rfl, hval⟩⟩

theorem HoldsChain.clone_ne_ok {chain : KeyChain} {dict copy : BencodeObj}
    (hholds : HoldsChain chain dict) (hlength : 2 ≤ chain.keys.length) (fuel : ℕ) :
    bencodeObjClone fuel dict ≠ .ok copy := by
  obtain ⟨nodes, head, cells, stop, rfl, hwalks⟩ := hholds
  have hkeys := hwalks.keys
  have hascending := hwalks.ascending
  match hchain : chain.keys, hlength with
  | left :: right :: others, _ =>
      rw [hchain] at hkeys hascending
      obtain ⟨first, _, ⟨_, hleft, _⟩, hrest, hcells⟩ := List.forall₂_cons_right_iff.mp hkeys
      obtain ⟨second, rest, ⟨_, hright, _⟩, _, rfl⟩ := List.forall₂_cons_right_iff.mp hrest
      have hsegment := hwalks.segment
      rw [hcells] at hsegment
      obtain ⟨hfirst, next, hlink, hnext⟩ := segment_cons_iff.mp hsegment
      obtain rfl := (segment_cons_iff.mp hnext).1
      have hlt : left < right := (List.pairwise_cons.mp hascending).1 right (by simp)
      exact StartsAscending.clone_ne_ok ⟨nodes, head, first, second, _, _, rfl, hwalks.headNode,
        hwalks.headKey, hfirst, hleft, hlink, hright, hlt⟩ fuel

/-- A copy of a flat object can be copied again and released. -/
theorem stored_of_clone {fuel : ℕ} {obj copy : BencodeObj} (hflat : Flat obj)
    (hclone : bencodeObjClone fuel obj = .ok copy) : Stored copy := by
  obtain ⟨value, hvalue, hobj⟩ := hflat
  refine ⟨⟨value, hvalue, hvalue.denotes_clone hobj hclone⟩, ?_⟩
  induction hvalue generalizing fuel obj copy with
  | str data =>
      have hcopy := (FlatValue.str data).denotes_clone hobj hclone
      obtain rfl : copy = .str data := hcopy
      exact frees_str data
  | int value =>
      obtain ⟨stored, rfl, _⟩ := (FlatValue.int value).denotes_clone hobj hclone
      exact frees_integer stored
  | empty =>
      rw [eq_of_clone_empty (denotes_dict_nil.mp hobj) hclone]
      exact holdsChain_empty.frees rfl
  | single hvalue ih =>
      obtain ⟨name, val, hholds, hname, hval⟩ := denotes_dict_single.mp hobj
      obtain ⟨fuel', valClone, hvalClone, hset⟩ := exists_of_clone_single hholds hclone
      have hvalClone' := hvalue.denotes_clone hval hvalClone
      obtain ⟨chain', hchain, hholds'⟩ := holdsChain_empty.set_of_ok
        (fun copy hcopy => ⟨⟨_, hvalue, hvalue.denotes_clone hvalClone' hcopy⟩,
          ih hcopy hvalClone'⟩) hset
      obtain rfl := Option.some.inj hchain
      exact hholds'.frees rfl

end I2pLite.ChainState
