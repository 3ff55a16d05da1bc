import I2pLite.Core.Releasing
import I2pLite.Netdb.ForEach

/-!
# Releasing the netdb

`netdb_hashmap_free` walks through all 128 buckets.  After inserts alone it
releases every stored router info once, and no other.
-/

namespace I2pLite.NetdbFree

open I2pLite.CRun
open I2pLite.LinkedChain
open I2pLite.ChainedTable
open I2pLite.Releasing
open I2pLite.Hashmap
open I2pLite.FirstWins
open I2pLite.ForEach

section Map

variable {Ri S : Type}

/-! ## The code -/

/-- What is left behind where `netdb_hashmap_free` returns. -/
def netdbHashmapFree (routerInfoFree : Ri → S → Run S) (map : NetdbHashmap Ri) (user : S) :
    Run (Freeing Ri S) :=
  freeTable (netdbHashNodeFree routerInfoFree) (fun memory slot => memory.map.table slot)
    (map.nodes.length + 1) (List.finRange 128) { map := map, user := user }

/-! ## One node -/

def releaseNode (routerInfoFree : Ri → S → Run S) (index : ℕ) (memory : Freeing Ri S) :
    Run (Freeing Ri S) := do
  let node ← nodeAt memory.map.nodes index
  let user ← routerInfoFree node.ri memory.user
  .ok { map := { memory.map with nodes := memory.map.nodes.set index (released node) }
        user := user }

def LiveNode (memory : Freeing Ri S) (index : ℕ) : Prop :=
  ∃ node, memory.map.nodes[index]? = some node ∧ node.released = false

theorem nodeAt_eq_ok_iff {nodes : List (NetdbHashNode Ri)} {index : ℕ} {node : NetdbHashNode Ri} :
    nodeAt nodes index = .ok node ↔ nodes[index]? = some node ∧ node.released = false := by
  rw [nodeAt]
  cases nodes[index]? with
  | none => simp
  | some other =>
      cases hreleased : other.released with
      | true =>
          refine iff_of_false (by simp [hreleased]) ?_
          rintro ⟨hsome, hnode⟩
          rw [← Option.some.inj hsome, hreleased] at hnode
          cases hnode
      | false =>
          simp only [hreleased, Bool.false_eq_true, if_false, Except.ok.injEq, Option.some.injEq]
          constructor
          · rintro rfl
            exact ⟨rfl, hreleased⟩
          · exact And.left

theorem releaseNode_eq_ok {routerInfoFree : Ri → S → Run S} {index : ℕ}
    {memory memory' : Freeing Ri S}
    (hstep : releaseNode routerInfoFree index memory = .ok memory') :
    ∃ node user, memory.map.nodes[index]? = some node ∧ node.released = false ∧
      routerInfoFree node.ri memory.user = .ok user ∧
      memory' = { map := { memory.map with nodes := memory.map.nodes.set index (released node) }
                  user := user } := by
  obtain ⟨node, hnode, hrest⟩ := bind_eq_ok.mp hstep
  obtain ⟨user, huser, hresult⟩ := bind_eq_ok.mp hrest
  obtain ⟨hget, hlive⟩ := nodeAt_eq_ok_iff.mp hnode
  exact ⟨node, user, hget, hlive, huser, (Except.ok.inj hresult).symm⟩

theorem links_set_released {nodes : List (NetdbHashNode Ri)} {index : ℕ}
    {node : NetdbHashNode Ri} (hnode : nodes[index]? = some node) :
    links (nodes.set index (released node)) = links nodes := by
  funext other
  by_cases hindex : index = other
  · subst hindex
    rw [links, links, List.getElem?_map, List.getElem?_map,
      List.getElem?_set_self (List.getElem?_eq_some_iff.mp hnode).1, hnode]
    rfl
  · rw [links, links, List.getElem?_map, List.getElem?_map, List.getElem?_set_ne hindex]

theorem frees_netdbHashNodeFree (routerInfoFree : Ri → S → Run S) :
    Frees (fun memory : Freeing Ri S => memory.map.table) (fun memory => links memory.map.nodes)
      LiveNode (releaseNode routerInfoFree) (netdbHashNodeFree routerInfoFree) where
  null := fun _ => rfl
  free := by
    intro memory index next hlink hlive
    obtain ⟨node, hnode, rfl⟩ := exists_node_of_link hlink
    rw [netdbHashNodeFree, releaseNode]
    cases hat : nodeAt memory.map.nodes index with
    | error fault => rfl
    | ok other =>
        obtain rfl := Option.some.inj (hnode.symm.trans (nodeAt_eq_ok hat))
        rw [ok_bind, ok_bind]
        cases routerInfoFree node.ri memory.user <;> rfl
  refuses := by
    intro memory index result hreleased hfree
    obtain ⟨node, hnode, _⟩ := bind_eq_ok.mp hfree
    exact hreleased ⟨node, nodeAt_eq_ok_iff.mp hnode⟩
  anchors := by
    intro memory index memory' hstep
    obtain ⟨_, _, _, _, _, rfl⟩ := releaseNode_eq_ok hstep
    rfl
  links := by
    intro memory index memory' hstep
    obtain ⟨node, _, hnode, _, _, rfl⟩ := releaseNode_eq_ok hstep
    exact links_set_released hnode
  lives := by
    intro memory index memory' hstep other
    obtain ⟨node, _, hnode, _, _, rfl⟩ := releaseNode_eq_ok hstep
    by_cases hindex : index = other
    · subst hindex
      refine iff_of_false ?_ fun hother => hother.2 rfl
      rintro ⟨after, hafter, hlive⟩
      dsimp only at hafter
      rw [List.getElem?_set_self (List.getElem?_eq_some_iff.mp hnode).1] at hafter
      rw [← Option.some.inj hafter] at hlive
      cases hlive
    · rw [LiveNode, LiveNode, List.getElem?_set_ne hindex,
        and_iff_left fun heq => hindex heq.symm]
  linked := by
    rintro memory index ⟨node, hnode, _⟩
    simp [links, hnode]

/-! ## All nodes -/

section Steps

variable {routerInfoFree : Ri → S → Run S} {map : NetdbHashmap Ri} {cells : List ℕ}

/-- The router infos of nodes, released one after the other. -/
def freeInfos (routerInfoFree : Ri → S → Run S) (nodes : List (NetdbHashNode Ri)) (user : S) :
    Run S :=
  nodes.foldlM (fun user node => routerInfoFree node.ri user) user

/-- The nodes behind the release of some of them. -/
def releasedAt (cells : List ℕ) (nodes : List (NetdbHashNode Ri)) : List (NetdbHashNode Ri) :=
  nodes.mapIdx fun index node => if index ∈ cells then released node else node

theorem releasedAt_cons {cell : ℕ} {node : NetdbHashNode Ri} {nodes : List (NetdbHashNode Ri)}
    (hnode : nodes[cell]? = some node) (cells : List ℕ) :
    releasedAt cells (nodes.set cell (released node)) = releasedAt (cell :: cells) nodes := by
  apply List.ext_getElem?
  intro index
  rw [releasedAt, releasedAt, List.getElem?_mapIdx, List.getElem?_mapIdx]
  by_cases hindex : cell = index
  · subst hindex
    rw [List.getElem?_set_self (List.getElem?_eq_some_iff.mp hnode).1, hnode]
    simp [released]
  · rw [List.getElem?_set_ne hindex]
    simp [Ne.symm hindex]

/-- The steps release the router infos of their nodes, in the same order. -/
theorem steps_releaseNode (hnodup : cells.Nodup)
    (hlive : ∀ cell ∈ cells, ∃ node, map.nodes[cell]? = some node ∧ node.released = false)
    (user : S) :
    steps (releaseNode routerInfoFree) cells { map := map, user := user } =
      freeInfos routerInfoFree (cells.filterMap (map.nodes[·]?)) user >>= fun user =>
        .ok { map := { map with nodes := releasedAt cells map.nodes }, user := user } := by
  induction cells generalizing map user with
  | nil =>
      have hsame : releasedAt [] map.nodes = map.nodes := by
        apply List.ext_getElem?
        intro index
        simp [releasedAt]
      rw [hsame]
      rfl
  | cons cell cells ih =>
      obtain ⟨node, hnode, hnodeLive⟩ := hlive cell List.mem_cons_self
      rw [List.nodup_cons] at hnodup
      have hother : ∀ other ∈ cells,
          (map.nodes.set cell (released node))[other]? = map.nodes[other]? := by
        intro other hmem
        apply List.getElem?_set_ne
        rintro rfl
        exact hnodup.1 hmem
      rw [steps_cons, releaseNode, nodeAt_eq_ok_iff.mpr ⟨hnode, hnodeLive⟩,
        List.filterMap_cons_some hnode, freeInfos, List.foldlM_cons]
      dsimp only
      rw [ok_bind]
      cases routerInfoFree node.ri user with
      | error fault => rfl
      | ok user' =>
          rw [ok_bind, ok_bind, ok_bind, ih hnodup.2 fun other hmem => ?_]
          · rw [releasedAt_cons hnode, List.filterMap_congr hother]
            rfl
          · obtain ⟨found, hfound, hfoundLive⟩ := hlive other (List.mem_cons_of_mem _ hmem)
            exact ⟨found, (hother other hmem).trans hfound, hfoundLive⟩

/-- Chains that share no node are released as one list of nodes. -/
theorem netdbHashmapFree_of_chains {chains : Fin 128 → List ℕ}
    (hchains : ∀ slot, Chain (links map.nodes) (map.table slot) (chains slot))
    (hlength : ∀ slot, (chains slot).length ≤ map.nodes.length)
    (hnodup : ((List.finRange 128).flatMap chains).Nodup)
    (hlive : ∀ cell ∈ (List.finRange 128).flatMap chains,
      ∃ node, map.nodes[cell]? = some node ∧ node.released = false) (user : S) :
    netdbHashmapFree routerInfoFree map user =
      freeInfos routerInfoFree
        (((List.finRange 128).flatMap chains).filterMap (map.nodes[·]?)) user >>= fun user =>
          .ok { map := { map with
                  nodes := releasedAt ((List.finRange 128).flatMap chains) map.nodes }
                user := user } := by
  have hliveNode : ∀ cell ∈ (List.finRange 128).flatMap chains,
      LiveNode { map := map, user := user } cell := hlive
  have htable := (frees_netdbHashNodeFree routerInfoFree).freeTable_eq
    (fun slot _ => hchains slot) hliveNode hnodup fun slot _ => Nat.lt_succ_of_le (hlength slot)
  calc netdbHashmapFree routerInfoFree map user
      = steps (releaseNode routerInfoFree) ((List.finRange 128).flatMap chains)
          { map := map, user := user } := htable
    _ = _ := steps_releaseNode hnodup hlive user

end Steps

section Inserted

variable {routerInfoHash : Ri → IdentHash} {map : NetdbHashmap Ri} {ris : List Ri}

/-- The nodes in the order of their buckets. -/
def bucketCells (map : NetdbHashmap Ri) : List ℕ :=
  (List.finRange 128).flatMap (bucketOf netdbHashmapHashIdent (hashesOf map))

theorem bucketCells_perm (map : NetdbHashmap Ri) :
    (bucketCells map).Perm (List.range map.nodes.length) := by
  have hperm := flatMap_bucketOf_perm netdbHashmapHashIdent (hashesOf map)
    (List.nodup_finRange 128) List.mem_finRange
  rwa [hashesOf, List.length_map] at hperm

/-- Every node is released once, and with it its router info. -/
theorem netdbHashmapFree_eq (hinv : Inv routerInfoHash map) (routerInfoFree : Ri → S → Run S)
    (user : S) :
    netdbHashmapFree routerInfoFree map user =
      freeInfos routerInfoFree ((bucketCells map).filterMap (map.nodes[·]?)) user >>= fun user =>
        .ok { map := { map with nodes := map.nodes.map released }, user := user } := by
  have hmem : ∀ cell, cell ∈ bucketCells map ↔ cell < map.nodes.length := fun cell => by
    rw [(bucketCells_perm map).mem_iff, List.mem_range]
  have hlive : ∀ cell ∈ bucketCells map,
      ∃ node, map.nodes[cell]? = some node ∧ node.released = false := by
    intro cell hcell
    have hlt := (hmem cell).mp hcell
    exact ⟨map.nodes[cell], List.getElem?_eq_getElem hlt, hinv.live _ (List.getElem_mem hlt)⟩
  have hnodup : (bucketCells map).Nodup :=
    nodup_flatMap_bucketOf netdbHashmapHashIdent (hashesOf map) (List.nodup_finRange 128)
  have hall : releasedAt (bucketCells map) map.nodes = map.nodes.map released := by
    apply List.ext_getElem?
    intro index
    rw [releasedAt, List.getElem?_mapIdx, List.getElem?_map]
    cases hindex : map.nodes[index]? with
    | none => rfl
    | some node =>
        rw [Option.map_some, Option.map_some,
          if_pos ((hmem index).mpr (List.getElem?_eq_some_iff.mp hindex).1)]
  have hfree := @netdbHashmapFree_of_chains _ _ routerInfoFree map _ hinv.chain
    (length_chain_le map) hnodup hlive user
  rw [← bucketCells, hall] at hfree
  exact hfree

theorem filterMap_bucketCells_perm (map : NetdbHashmap Ri) :
    ((bucketCells map).filterMap (map.nodes[·]?)).Perm map.nodes := by
  have hrange := (bucketCells_perm map).filterMap (map.nodes[·]?)
  rwa [filterMap_range] at hrange

end Inserted

end Map

/-- A map that inserts have built is released without a fault of its own: what
is called are the releases of the router infos that were the first with their
hash, each once, and no node keeps its storage. -/
theorem netdbHashmapFree_inserts {Ri : Type} (routerInfoHash : Ri → IdentHash) (ris : List Ri) :
    ∃ map, ∃ order : List Ri, insertCalls routerInfoHash ris = .ok map ∧
      (order.map routerInfoHash).Nodup ∧
      (∀ ri, ri ∈ order ↔ firstWith routerInfoHash ris (routerInfoHash ri) = some ri) ∧
      ∀ (S : Type) (routerInfoFree : Ri → S → Run S) (user : S),
        netdbHashmapFree routerInfoFree map user =
          order.foldlM (fun user ri => routerInfoFree ri user) user >>= fun user =>
            .ok { map := { map with nodes := map.nodes.map released }, user := user } := by
  obtain ⟨map, hcalls, hbuilt⟩ := exists_built routerInfoHash ris
  have hperm := filterMap_bucketCells_perm map
  refine ⟨map, ((bucketCells map).filterMap (map.nodes[·]?)).map NetdbHashNode.ri, hcalls, ?_, ?_,
    fun S routerInfoFree user => ?_⟩
  · have hhashes : map.nodes.map (fun node => routerInfoHash node.ri) = hashesOf map :=
      List.map_congr_left fun node hnode => (hbuilt.inv.stored node hnode).symm
    rw [List.map_map]
    refine (hperm.map _).nodup_iff.mpr ?_
    exact hhashes ▸ hbuilt.inv.distinct
  · intro ri
    rw [(hperm.map NetdbHashNode.ri).mem_iff, mem_stored_iff hbuilt]
  · rw [netdbHashmapFree_eq hbuilt.inv, freeInfos, List.foldlM_map]

end I2pLite.NetdbFree
