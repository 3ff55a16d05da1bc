import I2pLite.Core.Releasing
import I2pLite.Tunnels.FiniteMap

/-!
# Releasing the tunnels of a context

Every put leaves the nodes in chains, also one that puts an id twice.  So a
release walks through all nodes once; but a tunnel that has been put twice is
released twice.
-/

namespace I2pLite.TunnelFree

open I2pLite.CRun
open I2pLite.LinkedChain
open I2pLite.ChainedTable
open I2pLite.Releasing
open I2pLite.TunnelContext
open I2pLite.TunnelFiniteMap

/-! ## The code -/

abbrev TunnelPointer := ℕ

/-- The map, and the nodes and the tunnels whose storage is gone. -/
structure Freeing where
  map : TcHashmap TunnelPointer
  nodes : List ℕ
  tunnels : List TunnelPointer

def mnetGarlicTunnelFree (tunnel : TunnelPointer) (memory : Freeing) : Run Freeing :=
  if tunnel ∈ memory.tunnels then .error .useAfterFree
  else .ok { memory with tunnels := tunnel :: memory.tunnels }

/-- `if(n->tunnel) mnet_garlic_tunnel_free(&n->tunnel)`. -/
def freeTunnel (tunnel : Option TunnelPointer) (memory : Freeing) : Run Freeing :=
  match tunnel with
  | none => .ok memory
  | some tunnel => mnetGarlicTunnelFree tunnel memory

def tcHashnodeFree (n : Option ℕ) (memory : Freeing) : Run (Freeing × Option ℕ) :=
  match n with
  | none => .ok (memory, none)
  | some index =>
      if index ∈ memory.nodes then .error .useAfterFree
      else do
        let node ← nodeAt memory.map.allocated index
        let memory ← freeTunnel node.tunnel memory
        .ok ({ memory with nodes := index :: memory.nodes }, node.next)

/-- What is left behind where `mnet_garlic_tc_hashmap_free` returns. -/
def tcHashmapFree (map : TcHashmap TunnelPointer) : Run Freeing :=
  freeTable tcHashnodeFree (fun memory slot => (memory.map.nodes slot).next)
    (map.allocated.length + 1) (List.finRange 256) { map := map, nodes := [], tunnels := [] }

/-! ## One node -/

def releaseNode (index : ℕ) (memory : Freeing) : Run Freeing := do
  let node ← nodeAt memory.map.allocated index
  let memory ← freeTunnel node.tunnel memory
  .ok { memory with nodes := index :: memory.nodes }

def LiveNode (memory : Freeing) (index : ℕ) : Prop :=
  (∃ node, memory.map.allocated[index]? = some node) ∧ index ∉ memory.nodes

section Node

variable {memory memory' : Freeing} {index : ℕ}

theorem freeTunnel_eq_ok_iff {tunnel : Option TunnelPointer} :
    freeTunnel tunnel memory = .ok memory' ↔
      (∀ pointer ∈ tunnel, pointer ∉ memory.tunnels) ∧
        memory' = { memory with tunnels := tunnel.toList ++ memory.tunnels } := by
  cases tunnel with
  | none => simpa [freeTunnel] using (eq_comm : memory = memory' ↔ memory' = memory)
  | some pointer =>
      rw [freeTunnel, mnetGarlicTunnelFree]
      split_ifs with hmem
      · simp [hmem]
      · simp [hmem, eq_comm]

theorem getElem?_of_nodeAt {nodes : List (TcHashnode TunnelPointer)}
    {node : TcHashnode TunnelPointer} (hnode : nodeAt nodes index = .ok node) :
    nodes[index]? = some node := by
  rw [nodeAt] at hnode
  cases hget : nodes[index]? with
  | none => simp [hget] at hnode
  | some other =>
      rw [hget] at hnode
      exact congrArg some (Except.ok.inj hnode)

theorem releaseNode_eq_ok_iff {node : TcHashnode TunnelPointer}
    (hnode : memory.map.allocated[index]? = some node) :
    releaseNode index memory = .ok memory' ↔
      (∀ pointer ∈ node.tunnel, pointer ∉ memory.tunnels) ∧
        memory' = { map := memory.map, nodes := index :: memory.nodes
                    tunnels := node.tunnel.toList ++ memory.tunnels } := by
  rw [releaseNode, nodeAt_of_getElem? hnode, ok_bind, bind_eq_ok]
  constructor
  · rintro ⟨after, hfree, hresult⟩
    obtain ⟨hfresh, rfl⟩ := freeTunnel_eq_ok_iff.mp hfree
    exact ⟨hfresh, (Except.ok.inj hresult).symm⟩
  · rintro ⟨hfresh, rfl⟩
    exact ⟨_, freeTunnel_eq_ok_iff.mpr ⟨hfresh, rfl⟩, rfl⟩

theorem releaseNode_eq_ok (hstep : releaseNode index memory = .ok memory') :
    ∃ node, memory.map.allocated[index]? = some node ∧
      (∀ pointer ∈ node.tunnel, pointer ∉ memory.tunnels) ∧
      memory' = { map := memory.map, nodes := index :: memory.nodes
                  tunnels := node.tunnel.toList ++ memory.tunnels } := by
  obtain ⟨node, hnode, _⟩ := bind_eq_ok.mp hstep
  have hget := getElem?_of_nodeAt hnode
  exact ⟨node, hget, (releaseNode_eq_ok_iff hget).mp hstep⟩

theorem frees_tcHashnodeFree :
    Frees (fun (memory : Freeing) slot => (memory.map.nodes slot).next)
      (fun memory index => (nextsOf memory.map)[index]?) LiveNode releaseNode tcHashnodeFree where
  null := fun _ => rfl
  free := by
    intro memory index next hlink hlive
    obtain ⟨node, hnode, rfl⟩ := exists_node_of_next hlink
    rw [tcHashnodeFree, if_neg hlive.2, releaseNode, nodeAt_of_getElem? hnode, ok_bind, ok_bind]
    cases freeTunnel node.tunnel memory <;> rfl
  refuses := by
    intro memory index result hnot hfree
    rw [tcHashnodeFree] at hfree
    split_ifs at hfree with hmem
    obtain ⟨node, hnode, _⟩ := bind_eq_ok.mp hfree
    exact hnot ⟨⟨node, getElem?_of_nodeAt hnode⟩, hmem⟩
  anchors := by
    intro memory index memory' hstep
    obtain ⟨_, _, _, rfl⟩ := releaseNode_eq_ok hstep
    rfl
  links := by
    intro memory index memory' hstep
    obtain ⟨_, _, _, rfl⟩ := releaseNode_eq_ok hstep
    rfl
  lives := by
    intro memory index memory' hstep other
    obtain ⟨_, _, _, rfl⟩ := releaseNode_eq_ok hstep
    rw [LiveNode, LiveNode, List.mem_cons, not_or, and_comm (a := other ≠ index), and_assoc]
  linked := by
    rintro memory index ⟨⟨node, hnode⟩, _⟩
    simp [nextsOf, hnode]

end Node

/-! ## All nodes -/

section Steps

variable {memory memory' : Freeing} {cells : List ℕ}

/-- The tunnels of nodes; a node may have none. -/
def tunnelsAt (map : TcHashmap TunnelPointer) (cells : List ℕ) : List TunnelPointer :=
  cells.filterMap fun cell => map.allocated[cell]?.bind TcHashnode.tunnel

theorem tunnelsAt_cons {map : TcHashmap TunnelPointer} {cell : ℕ}
    {node : TcHashnode TunnelPointer} (hnode : map.allocated[cell]? = some node)
    (cells : List ℕ) :
    tunnelsAt map (cell :: cells) = node.tunnel.toList ++ tunnelsAt map cells := by
  rw [tunnelsAt, List.filterMap_cons, hnode, Option.bind_some]
  cases node.tunnel <;> rfl

/-- What is left behind where every release has been the first. -/
def freed (cells : List ℕ) (memory : Freeing) : Freeing where
  map := memory.map
  nodes := cells.reverse ++ memory.nodes
  tunnels := (tunnelsAt memory.map cells).reverse ++ memory.tunnels

/-- What is fresh one after the other is so as a whole. -/
theorem fresh_append_iff {first rest taken : List TunnelPointer} (hfirst : first.Nodup) :
    (first ++ rest).Nodup ∧ (∀ tunnel ∈ first ++ rest, tunnel ∉ taken) ↔
      (∀ tunnel ∈ first, tunnel ∉ taken) ∧ rest.Nodup ∧
        ∀ tunnel ∈ rest, tunnel ∉ first ++ taken := by
  simp only [List.nodup_append, List.mem_append, not_or]
  constructor
  · rintro ⟨⟨_, hrest, hapart⟩, hfresh⟩
    exact ⟨fun tunnel hmem => hfresh tunnel (Or.inl hmem), hrest, fun tunnel hmem =>
      ⟨fun hother => hapart tunnel hother tunnel hmem rfl, hfresh tunnel (Or.inr hmem)⟩⟩
  · rintro ⟨hfresh, hrest, hothers⟩
    refine ⟨⟨hfirst, hrest, fun tunnel hmem other hother heq => ?_⟩, fun tunnel hmem =>
      hmem.elim (hfresh tunnel) fun hother => (hothers tunnel hother).2⟩
    exact (hothers other hother).1 (heq ▸ hmem)

/-- A run of steps comes to its end exactly where no tunnel is released again. -/
theorem steps_releaseNode_iff
    (hnodes : ∀ cell ∈ cells, ∃ node, memory.map.allocated[cell]? = some node) :
    steps releaseNode cells memory = .ok memory' ↔
      (tunnelsAt memory.map cells).Nodup ∧
        (∀ tunnel ∈ tunnelsAt memory.map cells, tunnel ∉ memory.tunnels) ∧
        memory' = freed cells memory := by
  induction cells generalizing memory with
  | nil =>
      constructor
      · intro hsteps
        exact ⟨List.nodup_nil, by simp [tunnelsAt], (Except.ok.inj hsteps).symm⟩
      · rintro ⟨_, _, rfl⟩
        rfl
  | cons cell cells ih =>
      obtain ⟨node, hnode⟩ := hnodes cell List.mem_cons_self
      have hrest : ∀ other ∈ cells, ∃ node, memory.map.allocated[other]? = some node :=
        fun other hother => hnodes other (List.mem_cons_of_mem _ hother)
      have hih := @ih (Freeing.mk memory.map (cell :: memory.nodes)
        (node.tunnel.toList ++ memory.tunnels)) hrest
      have hfreed : freed (cell :: cells) memory = freed cells
          { map := memory.map, nodes := cell :: memory.nodes
            tunnels := node.tunnel.toList ++ memory.tunnels } := by
        rw [freed, freed, tunnelsAt_cons hnode]
        cases node.tunnel <;> simp
      have hfirst : node.tunnel.toList.Nodup := by
        cases node.tunnel <;> simp
      rw [steps_cons, bind_eq_ok, hfreed, tunnelsAt_cons hnode, ← and_assoc,
        fresh_append_iff hfirst]
      simp only [releaseNode_eq_ok_iff hnode, Option.mem_toList]
      constructor
      · rintro ⟨middle, ⟨hfresh, rfl⟩, hsteps⟩
        obtain ⟨hnodup, hothers, hmemory⟩ := hih.mp hsteps
        exact ⟨⟨hfresh, hnodup, hothers⟩, hmemory⟩
      · rintro ⟨⟨hfresh, hnodup, hothers⟩, hmemory⟩
        exact ⟨_, ⟨hfresh, rfl⟩, hih.mpr ⟨hnodup, hothers, hmemory⟩⟩

end Steps

/-! ## Runs -/

section Runs

variable {map : TcHashmap TunnelPointer}

theorem linked_init : Linked (tcHashmapInit : TcHashmap TunnelPointer) := inv_init.linked

/-- A put leaves the map alone, or it adds a node behind all others. -/
theorem linked_put (hlinked : Linked map) (tid : TunnelId)
    (tunnel : Option TunnelPointer) :
    ∃ ret map', tcHashmapPut map tid tunnel = .ok (ret, map') ∧ Linked map' ∧
      (ret = 0 ∧ map' = map ∨ ret = 1 ∧ contentsOf map' = contentsOf map ++ [(tid, tunnel)]) := by
  rcases putLoop_head hlinked tid with ⟨_, _, hloop⟩ | ⟨_, hend⟩
  · refine ⟨0, map, ?_, hlinked, Or.inl ⟨rfl, rfl⟩⟩
    rw [tcHashmapPut, hloop]
    rfl
  · obtain ⟨node, hloop, hnode⟩ : ∃ node, putLoop map tid (map.allocated.length + 1)
          (.head (tcHashnodeHash tid)) = .ok (some node) ∧
        (bucketOf tcHashnodeHash (tidsOf map) (tcHashnodeHash tid) = [] ∧
            node = .head (tcHashnodeHash tid) ∨
          ∃ before last, bucketOf tcHashnodeHash (tidsOf map) (tcHashnodeHash tid) =
            before ++ [last] ∧ node = .node last) := by
      rcases hend with ⟨hempty, hloop⟩ | ⟨before, last, hbucket, hloop⟩
      · exact ⟨_, hloop, Or.inl ⟨hempty, rfl⟩⟩
      · exact ⟨_, hloop, Or.inr ⟨before, last, hbucket, rfl⟩⟩
    obtain ⟨map', hstore, hcontents, hheads, hchained⟩ :=
      exists_storeNext hlinked tid tunnel hnode
    have htids : tidsOf map' = tidsOf map ++ [tid] := by
      rw [tidsOf_eq, hcontents, List.map_append, ← tidsOf_eq]
      rfl
    refine ⟨1, map', ?_, ⟨hheads, htids ▸ hchained⟩, Or.inr ⟨rfl, hcontents⟩⟩
    rw [freshNode] at hstore
    rw [tcHashmapPut, hloop, ok_bind]
    dsimp only
    rw [hstore]
    rfl

/-- What a call puts into the map, if it puts anything. -/
def Puts (call : Operation TunnelPointer) (added : List (TunnelId × Option TunnelPointer)) : Prop :=
  added = [] ∨ ∃ tid tunnel, call = .put tid tunnel ∧ added = [(tid, tunnel)]

theorem linked_operate (hlinked : Linked map) (call : Operation TunnelPointer) :
    ∃ result map' added, operate map call = .ok (result, map') ∧ Linked map' ∧
      Puts call added ∧ contentsOf map' = contentsOf map ++ added := by
  cases call with
  | put tid tunnel =>
      obtain ⟨ret, map', hput, hlinked', hcases⟩ := linked_put hlinked tid tunnel
      obtain ⟨added, hputs, hcontents⟩ : ∃ added, Puts (.put tid tunnel) added ∧
          contentsOf map' = contentsOf map ++ added := by
        rcases hcases with ⟨_, rfl⟩ | ⟨_, hcontents⟩
        · exact ⟨[], Or.inl rfl, (List.append_nil _).symm⟩
        · exact ⟨_, Or.inr ⟨tid, tunnel, rfl, rfl⟩, hcontents⟩
      exact ⟨(ret, none), map', added, by rw [operate, hput]; rfl, hlinked', hputs, hcontents⟩
  | get tid =>
      obtain ⟨result, hget⟩ : ∃ result, tcHashmapGet map tid = .ok result := by
        rw [tcHashmapGet, getFrom_eq (hlinked.chained _) (length_chain_le map _), ok_bind]
        split <;> exact ⟨_, rfl⟩
      exact ⟨result, map, [], by rw [operate, hget]; rfl, hlinked, Or.inl rfl,
        (List.append_nil _).symm⟩
  | remove tid =>
      have hremove : tcHashmapRemove map tid = .ok (0, map) := by
        rw [tcHashmapRemove, removeFrom_eq (hlinked.chained _) (length_chain_le map _), ok_bind]
      exact ⟨(0, none), map, [], by rw [operate, hremove]; rfl, hlinked, Or.inl rfl,
        (List.append_nil _).symm⟩

/-- One call after the other, on a fresh map. -/
def operations (calls : List (Operation TunnelPointer)) : Run (TcHashmap TunnelPointer) :=
  calls.foldlM (fun map call => do
    let (_, map) ← operate map call
    .ok map) tcHashmapInit

/-- The tunnels that a run hands to its puts. -/
def putTunnels (calls : List (Operation TunnelPointer)) : List TunnelPointer :=
  calls.filterMap fun
    | .put _ tunnel => tunnel
    | .get _ => none
    | .remove _ => none

/-- The tunnels of all nodes. -/
def storedTunnels (map : TcHashmap TunnelPointer) : List TunnelPointer :=
  map.allocated.filterMap TcHashnode.tunnel

theorem storedTunnels_eq (map : TcHashmap TunnelPointer) :
    storedTunnels map = (contentsOf map).filterMap Prod.snd := by
  rw [storedTunnels, contentsOf, List.filterMap_map]
  rfl

/-- Every run comes to its end, with chains of what some of its puts have put. -/
theorem exists_operations (calls : List (Operation TunnelPointer)) :
    ∃ map, operations calls = .ok map ∧ Linked map ∧
      (storedTunnels map).Sublist (putTunnels calls) := by
  induction calls using List.reverseRecOn with
  | nil => exact ⟨tcHashmapInit, rfl, linked_init, List.Sublist.refl _⟩
  | append_singleton calls call ih =>
      obtain ⟨map, hrun, hlinked, hsublist⟩ := ih
      obtain ⟨result, map', added, hcall, hlinked', hputs, hcontents⟩ := linked_operate hlinked call
      refine ⟨map', ?_, hlinked', ?_⟩
      · rw [operations, List.foldlM_append, ← operations, hrun, ok_bind, List.foldlM_cons, hcall]
        rfl
      · rw [storedTunnels_eq, hcontents, List.filterMap_append, ← storedTunnels_eq, putTunnels,
          List.filterMap_append]
        refine hsublist.append ?_
        rcases hputs with rfl | ⟨tid, tunnel, rfl, rfl⟩
        · exact List.nil_sublist _
        · cases tunnel <;> exact List.Sublist.refl _

/-- The nodes in the order of their chains. -/
def chainCells (map : TcHashmap TunnelPointer) : List ℕ :=
  (List.finRange 256).flatMap (bucketOf tcHashnodeHash (tidsOf map))

theorem chainCells_perm (map : TcHashmap TunnelPointer) :
    (chainCells map).Perm (List.range map.allocated.length) := by
  have hperm := flatMap_bucketOf_perm tcHashnodeHash (tidsOf map) (List.nodup_finRange 256)
    List.mem_finRange
  rwa [tidsOf, List.length_map] at hperm

theorem tunnelsAt_perm (map : TcHashmap TunnelPointer) :
    (tunnelsAt map (chainCells map)).Perm (storedTunnels map) := by
  have hcompose : ∀ cells : List ℕ, tunnelsAt map cells =
      (cells.filterMap (map.allocated[·]?)).filterMap TcHashnode.tunnel := by
    intro cells
    rw [List.filterMap_filterMap]
    rfl
  have hperm := ((chainCells_perm map).filterMap (map.allocated[·]?)).filterMap TcHashnode.tunnel
  rwa [filterMap_range, ← hcompose] at hperm

theorem tcHashmapFree_eq (hlinked : Linked map) :
    tcHashmapFree map =
      steps releaseNode (chainCells map) { map := map, nodes := [], tunnels := [] } := by
  have hlive : ∀ cell ∈ chainCells map,
      LiveNode { map := map, nodes := [], tunnels := [] } cell := by
    intro cell hcell
    rw [(chainCells_perm map).mem_iff, List.mem_range] at hcell
    exact ⟨⟨_, List.getElem?_eq_getElem hcell⟩, by simp⟩
  exact frees_tcHashnodeFree.freeTable_eq (fun slot _ => hlinked.chained slot) hlive
    (nodup_flatMap_bucketOf _ _ (List.nodup_finRange 256))
    fun slot _ => Nat.lt_succ_of_le (length_chain_le map slot)

/-- After any run of calls the map can be released exactly where no two of its
nodes share a tunnel.  Then every node and every stored tunnel is released once,
and so it is where no two puts were given the same tunnel. -/
theorem tcHashmapFree_iff (calls : List (Operation TunnelPointer)) :
    ∃ map, operations calls = .ok map ∧
      ((∃ memory, tcHashmapFree map = .ok memory) ↔ (storedTunnels map).Nodup) ∧
      (∀ memory, tcHashmapFree map = .ok memory →
        memory.nodes.Perm (List.range map.allocated.length) ∧
          memory.tunnels.Perm (storedTunnels map)) ∧
      ((putTunnels calls).Nodup → (storedTunnels map).Nodup) := by
  obtain ⟨map, hrun, hlinked, hsublist⟩ := exists_operations calls
  have hnodes : ∀ cell ∈ chainCells map, ∃ node, map.allocated[cell]? = some node := by
    intro cell hcell
    rw [(chainCells_perm map).mem_iff, List.mem_range] at hcell
    exact ⟨_, List.getElem?_eq_getElem hcell⟩
  have hsteps : ∀ memory, tcHashmapFree map = .ok memory ↔
      (storedTunnels map).Nodup ∧
        memory = freed (chainCells map) { map := map, nodes := [], tunnels := [] } := by
    intro memory
    rw [tcHashmapFree_eq hlinked, steps_releaseNode_iff hnodes,
      (tunnelsAt_perm map).nodup_iff]
    simp
  refine ⟨map, hrun, ?_, fun memory hmemory => ?_, fun hnodup => hsublist.nodup hnodup⟩
  · exact ⟨fun ⟨memory, hmemory⟩ => ((hsteps memory).mp hmemory).1,
      fun hnodup => ⟨_, (hsteps _).mpr ⟨hnodup, rfl⟩⟩⟩
  · obtain ⟨_, rfl⟩ := (hsteps memory).mp hmemory
    rw [freed, List.append_nil, List.append_nil]
    exact ⟨(List.reverse_perm _).trans (chainCells_perm map),
      (List.reverse_perm _).trans (tunnelsAt_perm map)⟩

end Runs

end I2pLite.TunnelFree
