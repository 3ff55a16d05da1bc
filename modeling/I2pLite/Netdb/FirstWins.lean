import I2pLite.Core.ChainedTable
import I2pLite.Netdb.Hashmap

/-!
# The first insert of a hash wins

The chain behind an anchor is made of the nodes whose hash belongs to it, in
the order of their insertion.  So a lookup is a search through all inserted
router infos for the first with the hash.
-/

namespace I2pLite.FirstWins

open I2pLite.CRun
open I2pLite.LinkedChain
open I2pLite.ChainedTable
open I2pLite.Hashmap

section Map

variable {Ri : Type}

/-- The links of the nodes, as a linked chain sees them. -/
def links (nodes : List (NetdbHashNode Ri)) (index : ℕ) : Option (Option ℕ) :=
  (nodes.map NetdbHashNode.next)[index]?

def hashesOf (map : NetdbHashmap Ri) : List IdentHash := map.nodes.map NetdbHashNode.h

/-- No node has been released. -/
def Live (nodes : List (NetdbHashNode Ri)) : Prop := ∀ node ∈ nodes, node.released = false

/-- Every node is in the chain of the bucket of its hash, and in no other; it
stores the hash of its router info; no hash is stored twice; the nodes are
counted, and none has been released. -/
structure Inv (routerInfoHash : Ri → IdentHash) (map : NetdbHashmap Ri) : Prop where
  chain : ∀ slot, Chain (links map.nodes) (map.table slot)
    (bucketOf netdbHashmapHashIdent (hashesOf map) slot)
  stored : ∀ node ∈ map.nodes, node.h = routerInfoHash node.ri
  distinct : (hashesOf map).Nodup
  size : netdbHashmapSize map = map.nodes.length
  live : Live map.nodes

theorem Inv.chained {routerInfoHash : Ri → IdentHash} {map : NetdbHashmap Ri}
    (hinv : Inv routerInfoHash map) :
    Chained netdbHashmapHashIdent map.table (map.nodes.map NetdbHashNode.next) (hashesOf map) :=
  hinv.chain

theorem inv_init (routerInfoHash : Ri → IdentHash) :
    Inv routerInfoHash (netdbHashmapInit : NetdbHashmap Ri) where
  chain := fun _ => .nil
  stored := fun _ hnode => by cases hnode
  distinct := List.nodup_nil
  size := rfl
  live := fun _ hnode => by cases hnode

/-- The node that stores a hash. -/
def nodeOf (map : NetdbHashmap Ri) (key : IdentHash) : Option (NetdbHashNode Ri) :=
  map.nodes.find? fun node => node.h = key

theorem mem_hashesOf_iff_nodeOf {map : NetdbHashmap Ri} {key : IdentHash} :
    key ∈ hashesOf map ↔ (nodeOf map key).isSome := by
  rw [nodeOf, List.find?_isSome, hashesOf, List.mem_map]
  simp

theorem nodeAt_of_getElem? {nodes : List (NetdbHashNode Ri)} {index : ℕ}
    {node : NetdbHashNode Ri} (hlive : Live nodes) (hnode : nodes[index]? = some node) :
    nodeAt nodes index = .ok node := by
  rw [nodeAt, hnode]
  simp [hlive node (List.mem_of_getElem? hnode)]

theorem nodeAt_eq_ok {nodes : List (NetdbHashNode Ri)} {index : ℕ} {node : NetdbHashNode Ri}
    (hnode : nodeAt nodes index = .ok node) : nodes[index]? = some node := by
  rw [nodeAt] at hnode
  cases hindex : nodes[index]? with
  | none => simp [hindex] at hnode
  | some other =>
      rw [hindex] at hnode
      dsimp only at hnode
      split_ifs at hnode
      rw [Except.ok.inj hnode]

theorem exists_node_of_link {nodes : List (NetdbHashNode Ri)} {index : ℕ} {next : Option ℕ}
    (hlink : links nodes index = some next) :
    ∃ node, nodes[index]? = some node ∧ node.next = next := by
  simpa [links] using hlink

/-! ## Lookup -/

section Lookup

variable {nodes : List (NetdbHashNode Ri)} {start : Option ℕ} {cells : List ℕ} {key : IdentHash}

/-- The walk returns the first node of the chain with the hash. -/
theorem getFrom_eq {fuel : ℕ} (hlive : Live nodes) (hchain : Chain (links nodes) start cells)
    (hfuel : cells.length ≤ fuel) :
    getFrom nodes key fuel start =
      .ok (((cells.filterMap (nodes[·]?)).find? (·.h = key)).map NetdbHashNode.ri) := by
  induction cells generalizing start fuel with
  | nil =>
      rw [segment_nil_iff.mp hchain]
      cases fuel <;> rfl
  | cons cell cells ih =>
      obtain ⟨rfl, next, hlink, hcells⟩ := segment_cons_iff.mp hchain
      obtain ⟨node, hnode, rfl⟩ := exists_node_of_link hlink
      obtain ⟨fuel, rfl⟩ := Nat.exists_eq_add_of_le' (show 1 ≤ fuel by simp at hfuel; omega)
      rw [getFrom, nodeAt_of_getElem? hlive hnode, ok_bind, netdbHashmapCmpIdent,
        List.filterMap_cons_some hnode, List.find?_cons]
      by_cases hkey : node.h = key
      · simp [hkey]
      · simpa [hkey] using ih hcells (by simpa using hfuel)

end Lookup

theorem length_chain_le (map : NetdbHashmap Ri) (slot : Fin 128) :
    (bucketOf netdbHashmapHashIdent (hashesOf map) slot).length ≤ map.nodes.length := by
  have hlength := length_bucketOf_le netdbHashmapHashIdent (hashesOf map) slot
  rwa [hashesOf, List.length_map] at hlength

/-- A lookup delivers the router info of the node that stores the hash. -/
theorem netdbHashmapGet_eq {routerInfoHash : Ri → IdentHash} {map : NetdbHashmap Ri}
    (hinv : Inv routerInfoHash map) (key : IdentHash) :
    netdbHashmapGet map key =
      match (nodeOf map key).map NetdbHashNode.ri with
      | some ri => .ok (1, some ri)
      | none => .ok (0, none) := by
  have hlength := length_chain_le map (netdbHashmapHashIdent key)
  rw [netdbHashmapGet, getFrom_eq hinv.live (hinv.chain _) (by omega), hashesOf, find?_bucketOf,
    ← nodeOf]
  cases nodeOf map key with
  | none => rfl
  | some node => rfl

/-! ## Insertion -/

section Insertion

variable {map : NetdbHashmap Ri} {h : IdentHash} {start : Option ℕ} {cells : List ℕ}

/-- Where the cursors stand: at an anchor, or at the link of a node that `prev`
leads to. -/
inductive Cursor (map : NetdbHashmap Ri) : Link → Option Link → Prop
  | anchor (slot : Fin 128) : Cursor map (.slot slot) none
  | behind {prev : Link} {last : ℕ} : loadLink map prev = .ok (some last) →
      Cursor map (.next last) (some prev)

/-- The link that the walk ends at. -/
def linkAfter (node : Link) : List ℕ → Link
  | [] => node
  | cell :: cells => linkAfter (.next cell) cells

theorem loadLink_next {index : ℕ} {node : NetdbHashNode Ri} (hlive : Live map.nodes)
    (hnode : map.nodes[index]? = some node) :
    loadLink map (.next index) = .ok node.next := by
  rw [loadLink, nodeAt_of_getElem? hlive hnode]
  rfl

theorem linkAfter_append (node : Link) (cells : List ℕ) (last : ℕ) :
    linkAfter node (cells ++ [last]) = .next last := by
  induction cells generalizing node with
  | nil => rfl
  | cons cell cells ih => exact ih (.next cell)

/-- The walk stops at a node with the hash, or behind the last node. -/
theorem insertLoop_eq {node : Link} {prev : Option Link} {fuel : ℕ} (hlive : Live map.nodes)
    (hchain : Chain (links map.nodes) start cells) (hload : loadLink map node = .ok start)
    (hcursor : Cursor map node prev) (hfuel : cells.length < fuel) :
    (∃ found, (cells.filterMap (map.nodes[·]?)).find? (·.h = h) = some found ∧
        insertLoop map h fuel node prev = .ok none) ∨
      ((cells.filterMap (map.nodes[·]?)).find? (·.h = h) = none ∧
        ∃ prev', insertLoop map h fuel node prev = .ok (some (linkAfter node cells, prev')) ∧
          Cursor map (linkAfter node cells) prev' ∧
          loadLink map (linkAfter node cells) = .ok none) := by
  induction cells generalizing start node prev fuel with
  | nil =>
      obtain ⟨fuel, rfl⟩ := Nat.exists_eq_add_of_le' (show 1 ≤ fuel by omega)
      rw [segment_nil_iff.mp hchain] at hload
      refine Or.inr ⟨rfl, prev, ?_, hcursor, hload⟩
      rw [insertLoop, hload]
      rfl
  | cons cell cells ih =>
      obtain ⟨rfl, next, hlink, hcells⟩ := segment_cons_iff.mp hchain
      obtain ⟨here, hhere, rfl⟩ := exists_node_of_link hlink
      obtain ⟨fuel, rfl⟩ := Nat.exists_eq_add_of_le' (show 1 ≤ fuel by omega)
      rw [insertLoop, hload, ok_bind, List.filterMap_cons_some hhere, List.find?_cons]
      simp only [linkAfter, nodeAt_of_getElem? hlive hhere, ok_bind, netdbHashmapCmpIdent]
      by_cases hkey : here.h = h
      · exact Or.inl ⟨here, by simp [hkey], by simp [hkey]⟩
      · have hrest := ih hcells (loadLink_next hlive hhere) (.behind hload)
          (by simpa using hfuel)
        simpa [hkey] using hrest

/-! ### The new node -/

variable {fresh : NetdbHashNode Ri}

/-- The map with a new node behind an anchor. -/
def anchored (map : NetdbHashmap Ri) (slot : Fin 128) (fresh : NetdbHashNode Ri) :
    NetdbHashmap Ri where
  table := Function.update map.table slot (some map.nodes.length)
  nodes := map.nodes ++ [fresh]
  sz := map.sz + 1

/-- The map with a new node behind the node `last`. -/
def linkedBehind (map : NetdbHashmap Ri) (last : ℕ) (lastNode fresh : NetdbHashNode Ri) :
    NetdbHashmap Ri where
  table := map.table
  nodes := (map.nodes ++ [fresh]).set last { lastNode with next := some map.nodes.length }
  sz := map.sz + 1

/-- The node that is allocated for a router info. -/
def freshNode (routerInfoHash : Ri → IdentHash) (ri : Ri) : NetdbHashNode Ri where
  h := routerInfoHash ri
  ri := ri
  next := none
  released := false

theorem Live.append (hlive : Live map.nodes) (hfresh : fresh.released = false) :
    Live (map.nodes ++ [fresh]) := by
  intro node hnode
  rcases List.mem_append.mp hnode with hnode | hnode
  · exact hlive node hnode
  · rw [List.mem_singleton.mp hnode, hfresh]

theorem Live.linkedBehind {last : ℕ} {lastNode : NetdbHashNode Ri} (hlive : Live map.nodes)
    (hfresh : fresh.released = false) (hlast : map.nodes[last]? = some lastNode) :
    Live (linkedBehind map last lastNode fresh).nodes := by
  intro node hnode
  rcases List.mem_or_eq_of_mem_set hnode with hnode | rfl
  · exact hlive.append hfresh node hnode
  · exact hlive lastNode (List.mem_of_getElem? hlast)

/-- What `netdb_hashmap_insert` does behind its loop. -/
def insertBehind (map : NetdbHashmap Ri) (fresh : NetdbHashNode Ri) (node : Link)
    (prev : Option Link) : Run (ℤ × NetdbHashmap Ri) := do
  let map' ← storeLink { map with nodes := map.nodes ++ [fresh] } node (some map.nodes.length)
  let map' ← linkBehind map' node prev
  .ok (1, { map' with sz := map'.sz + 1 })

theorem insertBehind_anchor (slot : Fin 128) :
    insertBehind map fresh (.slot slot) none = .ok (1, anchored map slot fresh) := rfl

/-- The store through `prev` changes nothing. -/
theorem insertBehind_next {last : ℕ} {lastNode : NetdbHashNode Ri} {prev : Link}
    (hlive : Live map.nodes) (hfresh : fresh.released = false)
    (hlast : map.nodes[last]? = some lastNode) (hnext : lastNode.next = none)
    (hprev : loadLink map prev = .ok (some last)) :
    insertBehind map fresh (.next last) (some prev) =
      .ok (1, linkedBehind map last lastNode fresh) := by
  have hlt : last < map.nodes.length := (List.getElem?_eq_some_iff.mp hlast).1
  have hlive' := hlive.append hfresh
  have hliveBehind := hlive.linkedBehind hfresh hlast
  have hbefore : (map.nodes ++ [fresh])[last]? = some lastNode := by
    rw [List.getElem?_append_left hlt, hlast]
  have hset : (map.nodes ++ [fresh]).set last { lastNode with next := some map.nodes.length } =
      (linkedBehind map last lastNode fresh).nodes := rfl
  have hafter : (linkedBehind map last lastNode fresh).nodes[last]? =
      some { lastNode with next := some map.nodes.length } := by
    rw [← hset, List.getElem?_set_self (by rw [List.length_append]; omega)]
  have hprev' : loadLink { map with nodes := (linkedBehind map last lastNode fresh).nodes } prev =
      .ok (some last) := by
    cases prev with
    | slot index => exact hprev
    | next index =>
        obtain ⟨node, hnode, hresult⟩ := bind_eq_ok.mp hprev
        have hget := nodeAt_eq_ok hnode
        have hne : last ≠ index := by
          rintro rfl
          obtain rfl := Option.some.inj (hlast.symm.trans hget)
          simp [hnext] at hresult
        have hindex : index < map.nodes.length := (List.getElem?_eq_some_iff.mp hget).1
        have hget' : (linkedBehind map last lastNode fresh).nodes[index]? = some node := by
          rw [← hset, List.getElem?_set_ne hne, List.getElem?_append_left hindex, hget]
        exact (loadLink_next hliveBehind hget').trans hresult
  have hagain : (linkedBehind map last lastNode fresh).nodes.set last
      { lastNode with next := some map.nodes.length } =
        (linkedBehind map last lastNode fresh).nodes := by
    rw [← hset, List.set_set]
  have hlink : loadLink { map with nodes := (linkedBehind map last lastNode fresh).nodes }
      (.next last) = .ok (some map.nodes.length) := loadLink_next hliveBehind hafter
  simp only [insertBehind, storeLink, nodeAt_of_getElem? hlive' hbefore, ok_bind, linkBehind,
    hset]
  rw [hprev']
  simp only [ok_bind, deref_some, hlink, nodeAt_of_getElem? hliveBehind hafter, hagain]
  rfl

/-! ### The invariant behind an insert -/

/-- A new node keeps the invariant once every chain is as long as its bucket. -/
theorem Inv.extend {routerInfoHash : Ri → IdentHash} {map' : NetdbHashmap Ri} {ri : Ri}
    (hinv : Inv routerInfoHash map) (hfresh : routerInfoHash ri ∉ hashesOf map)
    (hcontents : map'.nodes.map (fun node => (node.h, node.ri)) =
      map.nodes.map (fun node => (node.h, node.ri)) ++ [(routerInfoHash ri, ri)])
    (hsize : map'.sz = map.sz + 1) (hlive : Live map'.nodes)
    (hchain : Chained netdbHashmapHashIdent map'.table (map'.nodes.map NetdbHashNode.next)
      (hashesOf map ++ [routerInfoHash ri])) :
    Inv routerInfoHash map' := by
  have hhashes : hashesOf map' = hashesOf map ++ [routerInfoHash ri] := by
    have hfst := congrArg (List.map Prod.fst) hcontents
    simpa [hashesOf, Function.comp_def] using hfst
  have hstored : ∀ node ∈ map'.nodes, node.h = routerInfoHash node.ri := by
    intro node hnode
    have hpair : (node.h, node.ri) ∈ map'.nodes.map (fun node => (node.h, node.ri)) :=
      List.mem_map_of_mem hnode
    rw [hcontents, List.mem_append, List.mem_singleton, List.mem_map] at hpair
    rcases hpair with ⟨old, hold, heq⟩ | heq
    · obtain ⟨hh, hri⟩ := Prod.mk.inj heq
      rw [← hh, ← hri, hinv.stored old hold]
    · obtain ⟨hh, hri⟩ := Prod.mk.inj heq
      rw [hh, hri]
  have hlength := congrArg List.length hcontents
  rw [List.length_append, List.length_map, List.length_map, List.length_singleton] at hlength
  exact {
    chain := fun slot => hhashes ▸ hchain slot
    stored := hstored
    distinct := by
      rw [hhashes, List.nodup_append_comm, List.singleton_append, List.nodup_cons]
      exact ⟨hfresh, hinv.distinct⟩
    size := by
      rw [netdbHashmapSize, hsize, hlength]
      exact congrArg (· + 1) hinv.size
    live := hlive }

theorem Inv.anchored {routerInfoHash : Ri → IdentHash} {ri : Ri}
    (hinv : Inv routerInfoHash map) (hfresh : routerInfoHash ri ∉ hashesOf map)
    (hempty : bucketOf netdbHashmapHashIdent (hashesOf map)
      (netdbHashmapHashIdent (routerInfoHash ri)) = []) :
    Inv routerInfoHash (anchored map (netdbHashmapHashIdent (routerInfoHash ri))
      (freshNode routerInfoHash ri)) := by
  refine hinv.extend hfresh (by simp [FirstWins.anchored, freshNode]) rfl
    (hinv.live.append rfl) ?_
  have hchained := hinv.chained.anchor (by simp [hashesOf]) hempty
  simpa [FirstWins.anchored, freshNode] using hchained

section LinkedBehind

variable {last : ℕ} {lastNode : NetdbHashNode Ri}

theorem contents_linkedBehind (hlast : map.nodes[last]? = some lastNode) :
    (linkedBehind map last lastNode fresh).nodes.map (fun node => (node.h, node.ri)) =
      map.nodes.map (fun node => (node.h, node.ri)) ++ [(fresh.h, fresh.ri)] := by
  obtain ⟨hlt, hget⟩ := List.getElem?_eq_some_iff.mp hlast
  have hsame : (map.nodes.map fun node => (node.h, node.ri)).set last (lastNode.h, lastNode.ri) =
      map.nodes.map fun node => (node.h, node.ri) := by
    have hlength : last < (map.nodes.map fun node => (node.h, node.ri)).length := by
      rw [List.length_map]
      exact hlt
    have hself := List.set_getElem_self hlength
    rwa [List.getElem_map, hget] at hself
  rw [linkedBehind, List.map_set, List.map_append, List.map_singleton,
    List.set_append_left _ _ (by rw [List.length_map]; exact hlt), hsame]

theorem Inv.linkedBehind {routerInfoHash : Ri → IdentHash} {ri : Ri} {before : List ℕ}
    (hinv : Inv routerInfoHash map) (hfresh : routerInfoHash ri ∉ hashesOf map)
    (hbucket : bucketOf netdbHashmapHashIdent (hashesOf map)
      (netdbHashmapHashIdent (routerInfoHash ri)) = before ++ [last])
    (hlast : map.nodes[last]? = some lastNode) :
    Inv routerInfoHash (linkedBehind map last lastNode
      (freshNode routerInfoHash ri)) := by
  refine hinv.extend hfresh (contents_linkedBehind hlast) rfl (hinv.live.linkedBehind rfl hlast) ?_
  have hchained := hinv.chained.behind (by simp [hashesOf]) hbucket
  simpa [FirstWins.linkedBehind, freshNode, List.map_set] using hchained

end LinkedBehind

/-- The stored hashes and router infos, in the order of their insertion. -/
def contentsOf (map : NetdbHashmap Ri) : List (IdentHash × Ri) :=
  map.nodes.map fun node => (node.h, node.ri)

/-- An insert finds the hash and changes nothing, or adds a node. -/
theorem netdbHashmapInsert_cases {routerInfoHash : Ri → IdentHash}
    (hinv : Inv routerInfoHash map) (ri : Ri) :
    (∃ found, nodeOf map (routerInfoHash ri) = some found ∧
        netdbHashmapInsert routerInfoHash map ri = .ok (0, map)) ∨
      nodeOf map (routerInfoHash ri) = none ∧
        ∃ map', netdbHashmapInsert routerInfoHash map ri = .ok (1, map') ∧
          Inv routerInfoHash map' ∧
          contentsOf map' = contentsOf map ++ [(routerInfoHash ri, ri)] := by
  have hlength := length_chain_le map (netdbHashmapHashIdent (routerInfoHash ri))
  have hloop := insertLoop_eq (h := routerInfoHash ri) hinv.live
    (hinv.chain (netdbHashmapHashIdent (routerInfoHash ri))) rfl (.anchor _)
    (Nat.lt_succ_of_le hlength)
  rw [hashesOf, find?_bucketOf, ← hashesOf, ← nodeOf] at hloop
  rcases hloop with ⟨found, hfound, hloop⟩ | ⟨hnone, prev, hloop, hcursor, hload⟩
  · refine Or.inl ⟨found, hfound, ?_⟩
    rw [netdbHashmapInsert, hloop]
    rfl
  · refine Or.inr ⟨hnone, ?_⟩
    have hfresh : routerInfoHash ri ∉ hashesOf map := by
      intro hmem
      obtain ⟨node, hnode, hh⟩ := List.mem_map.mp hmem
      simpa [hh] using List.find?_eq_none.mp hnone node hnode
    have hinsert : netdbHashmapInsert routerInfoHash map ri = insertBehind map
        (freshNode routerInfoHash ri) (linkAfter (.slot (netdbHashmapHashIdent (routerInfoHash ri)))
          (bucketOf netdbHashmapHashIdent (hashesOf map)
            (netdbHashmapHashIdent (routerInfoHash ri)))) prev := by
      rw [netdbHashmapInsert, hloop]
      rfl
    rw [hinsert]
    rcases List.eq_nil_or_concat' (bucketOf netdbHashmapHashIdent (hashesOf map)
      (netdbHashmapHashIdent (routerInfoHash ri))) with hempty | ⟨before, last, hbucket⟩
    · rw [hempty] at hcursor ⊢
      cases hcursor
      exact ⟨_, insertBehind_anchor _, hinv.anchored hfresh hempty,
        by simp [contentsOf, anchored, freshNode]⟩
    · rw [hbucket, linkAfter_append] at hcursor hload ⊢
      obtain ⟨lastNode, hlast, hnext⟩ := bind_eq_ok.mp hload
      have hget := nodeAt_eq_ok hlast
      cases hcursor with
      | behind hprev =>
          exact ⟨_, insertBehind_next hinv.live rfl hget (Except.ok.inj hnext) hprev,
            hinv.linkedBehind hfresh hbucket hget, contents_linkedBehind hget⟩

end Insertion

/-! ## Runs of inserts -/

/-- One call after the other, on a fresh map. -/
def insertCalls (routerInfoHash : Ri → IdentHash) (ris : List Ri) : Run (NetdbHashmap Ri) :=
  ris.foldlM (fun map ri => do
    let (_, map) ← netdbHashmapInsert routerInfoHash map ri
    .ok map) netdbHashmapInit

/-- The router info of the first insert with a hash. -/
def firstWith (routerInfoHash : Ri → IdentHash) (ris : List Ri) (key : IdentHash) : Option Ri :=
  ris.find? fun ri => routerInfoHash ri = key

/-- A map that these inserts have built. -/
structure Built (routerInfoHash : Ri → IdentHash) (ris : List Ri) (map : NetdbHashmap Ri) :
    Prop where
  inv : Inv routerInfoHash map
  lookup : ∀ key, (nodeOf map key).map NetdbHashNode.ri = firstWith routerInfoHash ris key

section Runs

variable {routerInfoHash : Ri → IdentHash} {ris : List Ri} {map : NetdbHashmap Ri}

theorem nodeOf_eq (map : NetdbHashmap Ri) (key : IdentHash) :
    (nodeOf map key).map NetdbHashNode.ri =
      ((contentsOf map).find? (·.1 = key)).map Prod.snd := by
  rw [contentsOf, List.find?_map, Option.map_map]
  rfl

theorem firstWith_eq_none_iff {key : IdentHash} :
    firstWith routerInfoHash ris key = none ↔ ∀ earlier ∈ ris, routerInfoHash earlier ≠ key := by
  rw [firstWith, List.find?_eq_none]
  simp

/-- An insert returns 1 if no earlier one had its hash, else it changes
nothing. -/
theorem Built.insert (hbuilt : Built routerInfoHash ris map) (ri : Ri) :
    ∃ ret map', netdbHashmapInsert routerInfoHash map ri = .ok (ret, map') ∧
      Built routerInfoHash (ris ++ [ri]) map' ∧ (ret = 0 ∨ ret = 1) ∧
      (ret = 1 ↔ ∀ earlier ∈ ris, routerInfoHash earlier ≠ routerInfoHash ri) ∧
      (ret = 0 → map' = map) := by
  have hearlier := hbuilt.lookup (routerInfoHash ri)
  rcases netdbHashmapInsert_cases hbuilt.inv ri with ⟨found, hfound, hinsert⟩ |
    ⟨hnone, map', hinsert, hinv, hcontents⟩
  · rw [hfound, Option.map_some] at hearlier
    refine ⟨0, map, hinsert, ⟨hbuilt.inv, fun key => ?_⟩, Or.inl rfl, ?_, fun _ => rfl⟩
    · rw [hbuilt.lookup, firstWith, firstWith, List.find?_append]
      by_cases hkey : routerInfoHash ri = key
      · subst hkey
        rw [← firstWith, ← hearlier]
        rfl
      · simp [hkey]
    · rw [← firstWith_eq_none_iff, ← hearlier]
      simp
  · rw [hnone, Option.map_none] at hearlier
    refine ⟨1, map', hinsert, ⟨hinv, fun key => ?_⟩, Or.inr rfl, ?_, by simp⟩
    · have hbefore := hbuilt.lookup key
      rw [nodeOf_eq, firstWith] at hbefore
      rw [nodeOf_eq, hcontents, firstWith, List.find?_append, List.find?_append, ← hbefore]
      cases (contentsOf map).find? (·.1 = key) with
      | some pair => rfl
      | none =>
          by_cases hkey : routerInfoHash ri = key
          · simp [hkey]
          · simp [hkey]
    · rw [← firstWith_eq_none_iff, ← hearlier]
      simp

/-- Every sequence of inserts builds a map. -/
theorem exists_built (routerInfoHash : Ri → IdentHash) (ris : List Ri) :
    ∃ map, insertCalls routerInfoHash ris = .ok map ∧ Built routerInfoHash ris map := by
  induction ris using List.reverseRecOn with
  | nil => exact ⟨netdbHashmapInit, rfl, inv_init routerInfoHash, fun _ => rfl⟩
  | append_singleton ris ri ih =>
      obtain ⟨map, hcalls, hbuilt⟩ := ih
      obtain ⟨ret, map', hinsert, hbuilt', _⟩ := hbuilt.insert ri
      refine ⟨map', ?_, hbuilt'⟩
      rw [insertCalls, List.foldlM_append]
      rw [insertCalls] at hcalls
      rw [hcalls, ok_bind, List.foldlM_cons, hinsert]
      rfl

theorem Built.get_eq (hbuilt : Built routerInfoHash ris map) (key : IdentHash) :
    netdbHashmapGet map key =
      match firstWith routerInfoHash ris key with
      | some ri => .ok (1, some ri)
      | none => .ok (0, none) := by
  rw [netdbHashmapGet_eq hbuilt.inv, hbuilt.lookup]

/-- The stored hashes are those of the inserts. -/
theorem Built.mem_hashesOf_iff (hbuilt : Built routerInfoHash ris map) {key : IdentHash} :
    key ∈ hashesOf map ↔ ∃ ri ∈ ris, routerInfoHash ri = key := by
  have hfirst : (firstWith routerInfoHash ris key).isSome ↔
      ∃ ri ∈ ris, routerInfoHash ri = key := by
    rw [firstWith, List.find?_isSome]
    simp
  rw [mem_hashesOf_iff_nodeOf, ← hfirst, ← hbuilt.lookup key, Option.isSome_map]

/-- Where no two router infos share a hash, their order is of no account. -/
theorem firstWith_perm {ris' : List Ri} (hperm : ris'.Perm ris)
    (hdistinct : (ris.map routerInfoHash).Nodup) (key : IdentHash) :
    firstWith routerInfoHash ris' key = firstWith routerInfoHash ris key := by
  cases hfirst : firstWith routerInfoHash ris key with
  | none =>
      rw [firstWith_eq_none_iff] at hfirst ⊢
      exact fun earlier hearlier => hfirst earlier (hperm.mem_iff.mp hearlier)
  | some ri =>
      have hmem : ri ∈ ris := List.mem_of_find?_eq_some hfirst
      have hkey : routerInfoHash ri = key := by simpa using List.find?_some hfirst
      cases hother : firstWith routerInfoHash ris' key with
      | none => exact absurd hkey (firstWith_eq_none_iff.mp hother ri (hperm.mem_iff.mpr hmem))
      | some ri' =>
          have hmem' : ri' ∈ ris := hperm.mem_iff.mp (List.mem_of_find?_eq_some hother)
          have hkey' : routerInfoHash ri' = key := by simpa using List.find?_some hother
          exact congrArg some (List.inj_on_of_nodup_map hdistinct hmem' hmem
            (hkey'.trans hkey.symm))

end Runs

/-- After any inserts into a fresh map every node is in the bucket of its hash,
which is that of its router info and that of no other node, and the nodes are
counted; a further insert returns 1 exactly if no earlier one had its hash, and
else leaves the map unchanged; and a lookup delivers the router info of the
first insert with the hash.  So the order of inserts with distinct hashes does
not matter to a lookup. -/
theorem insertCalls_first_wins (routerInfoHash : Ri → IdentHash) (ris : List Ri) :
    ∃ map, insertCalls routerInfoHash ris = .ok map ∧ Inv routerInfoHash map ∧
      (∀ ri, ∃ ret map', netdbHashmapInsert routerInfoHash map ri = .ok (ret, map') ∧
        (ret = 0 ∨ ret = 1) ∧
        (ret = 1 ↔ ∀ earlier ∈ ris, routerInfoHash earlier ≠ routerInfoHash ri) ∧
        (ret = 0 → map' = map)) ∧
      (∀ key, netdbHashmapGet map key =
        match firstWith routerInfoHash ris key with
        | some ri => .ok (1, some ri)
        | none => .ok (0, none)) ∧
      ∀ ris' map', ris'.Perm ris → (ris.map routerInfoHash).Nodup →
        insertCalls routerInfoHash ris' = .ok map' →
        ∀ key, netdbHashmapGet map' key = netdbHashmapGet map key := by
  obtain ⟨map, hcalls, hbuilt⟩ := exists_built routerInfoHash ris
  refine ⟨map, hcalls, hbuilt.inv, fun ri => ?_, hbuilt.get_eq, ?_⟩
  · obtain ⟨ret, map', hinsert, _, hret, hone, hzero⟩ := hbuilt.insert ri
    exact ⟨ret, map', hinsert, hret, hone, hzero⟩
  · intro ris' map' hperm hdistinct hcalls' key
    obtain ⟨other, hother, hbuilt'⟩ := exists_built routerInfoHash ris'
    obtain rfl := Except.ok.inj (hcalls'.symm.trans hother)
    rw [hbuilt.get_eq, hbuilt'.get_eq, firstWith_perm hperm hdistinct]

end Map

end I2pLite.FirstWins
