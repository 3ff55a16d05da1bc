import I2pLite.Core.ChainedTable
import I2pLite.Tunnels.TunnelContext

/-!
# When the hashmap of a tunnel context is a finite map

The loop of a put compares the id with the unused node of the table and with
all nodes of the chain but the last, and a removal does nothing.
-/

namespace I2pLite.TunnelFiniteMap

open I2pLite.CRun
open I2pLite.LinkedChain
open I2pLite.ChainedTable
open I2pLite.TunnelContext

section Map

variable {Tunnel : Type} {map : TcHashmap Tunnel} {tid : TunnelId}

/-! ## Chains of nodes -/

def tidsOf (map : TcHashmap Tunnel) : List TunnelId := map.allocated.map TcHashnode.tid

def nextsOf (map : TcHashmap Tunnel) : List (Option ℕ) := map.allocated.map TcHashnode.next

/-- The nodes of the table are unused, every allocated node is in the chain of
its id, and no id has two nodes. -/
structure Inv (map : TcHashmap Tunnel) : Prop where
  heads : ∀ slot, (map.nodes slot).tid = 0
  chained : Chained tcHashnodeHash (fun slot => (map.nodes slot).next) (nextsOf map) (tidsOf map)
  distinct : (tidsOf map).Nodup

/-- What every put keeps, of whatever id. -/
structure Linked (map : TcHashmap Tunnel) : Prop where
  heads : ∀ slot, (map.nodes slot).tid = 0
  chained : Chained tcHashnodeHash (fun slot => (map.nodes slot).next) (nextsOf map) (tidsOf map)

theorem Inv.linked (hinv : Inv map) : Linked map := ⟨hinv.heads, hinv.chained⟩

theorem inv_init : Inv (tcHashmapInit : TcHashmap Tunnel) where
  heads := fun _ => rfl
  chained := fun _ => .nil
  distinct := List.nodup_nil

theorem exists_node_of_next {index : ℕ} {next : Option ℕ}
    (hnext : (nextsOf map)[index]? = some next) :
    ∃ node, map.allocated[index]? = some node ∧ node.next = next := by
  simpa [nextsOf] using hnext

theorem nodeAt_of_getElem? {index : ℕ} {node : TcHashnode Tunnel}
    (hnode : map.allocated[index]? = some node) : nodeAt map.allocated index = .ok node := by
  rw [nodeAt, hnode]

theorem length_chain_le (map : TcHashmap Tunnel) (slot : Fin 256) :
    (bucketOf tcHashnodeHash (tidsOf map) slot).length ≤ map.allocated.length := by
  have hlength := length_bucketOf_le tcHashnodeHash (tidsOf map) slot
  rwa [tidsOf, List.length_map] at hlength

/-! ## Lookups and removals -/

section Walks

variable {start : Option ℕ} {cells : List ℕ} {fuel : ℕ}

theorem getFrom_eq (hchain : Chain ((nextsOf map)[·]?) start cells) (hfuel : cells.length ≤ fuel) :
    getFrom map.allocated tid fuel start =
      .ok ((cells.filterMap (map.allocated[·]?)).find? (·.tid = tid)) := by
  induction cells generalizing start fuel with
  | nil =>
      rw [segment_nil_iff.mp hchain]
      cases fuel <;> rfl
  | cons cell cells ih =>
      obtain ⟨rfl, next, hlink, hcells⟩ := segment_cons_iff.mp hchain
      obtain ⟨node, hnode, rfl⟩ := exists_node_of_next hlink
      obtain ⟨fuel, rfl⟩ := Nat.exists_eq_add_of_le' (show 1 ≤ fuel by simp at hfuel; omega)
      rw [getFrom, nodeAt_of_getElem? hnode, ok_bind, List.filterMap_cons_some hnode,
        List.find?_cons]
      by_cases htid : node.tid = tid
      · simp [htid]
      · simpa [htid] using ih hcells (by simpa using hfuel)

theorem removeFrom_eq (hchain : Chain ((nextsOf map)[·]?) start cells)
    (hfuel : cells.length ≤ fuel) : removeFrom map.allocated tid fuel start = .ok () := by
  induction cells generalizing start fuel with
  | nil =>
      rw [segment_nil_iff.mp hchain]
      cases fuel <;> rfl
  | cons cell cells ih =>
      obtain ⟨rfl, next, hlink, hcells⟩ := segment_cons_iff.mp hchain
      obtain ⟨node, hnode, rfl⟩ := exists_node_of_next hlink
      obtain ⟨fuel, rfl⟩ := Nat.exists_eq_add_of_le' (show 1 ≤ fuel by simp at hfuel; omega)
      rw [removeFrom, nodeAt_of_getElem? hnode, ok_bind]
      exact ih hcells (by simpa using hfuel)

end Walks

/-- What an id is bound to. -/
def boundTo (map : TcHashmap Tunnel) (tid : TunnelId) : Option (Option Tunnel) :=
  (map.allocated.find? fun node => node.tid = tid).map TcHashnode.tunnel

theorem tcHashmapGet_eq (hinv : Inv map) (tid : TunnelId) :
    tcHashmapGet map tid =
      match boundTo map tid with
      | some tunnel => .ok (1, tunnel)
      | none => .ok (0, none) := by
  rw [tcHashmapGet, getFrom_eq (hinv.chained _) (length_chain_le map _), tidsOf, find?_bucketOf,
    ok_bind, boundTo]
  cases map.allocated.find? fun node => node.tid = tid with
  | none => rfl
  | some node => rfl

theorem tcHashmapRemove_eq (hinv : Inv map) (tid : TunnelId) :
    tcHashmapRemove map tid = .ok (0, map) := by
  rw [tcHashmapRemove, removeFrom_eq (hinv.chained _) (length_chain_le map _), ok_bind]

/-! ## Puts -/

/-- From a node of the chain on, all ids but the last are compared. -/
theorem putLoop_node {first last : ℕ} {before : List ℕ} {fuel : ℕ}
    (hchain : Chain ((nextsOf map)[·]?) (some first) (before ++ [last]))
    (hfuel : before.length < fuel) :
    putLoop map tid fuel (.node first) =
      if tid ∈ (before.filterMap (map.allocated[·]?)).map TcHashnode.tid then .ok none
      else .ok (some (.node last)) := by
  obtain ⟨fuel, rfl⟩ := Nat.exists_eq_add_of_le' (show 1 ≤ fuel by omega)
  induction before generalizing first fuel with
  | nil =>
      obtain ⟨hfirst, next, hlink, hend⟩ := segment_cons_iff.mp hchain
      obtain rfl := Option.some.inj hfirst
      obtain ⟨node, hnode, rfl⟩ := exists_node_of_next hlink
      rw [putLoop, loadNode, nodeAt_of_getElem? hnode, ok_bind, segment_nil_iff.mp hend]
      rfl
  | cons cell before ih =>
      obtain ⟨hfirst, next, hlink, hrest⟩ := segment_cons_iff.mp hchain
      obtain rfl := Option.some.inj hfirst
      obtain ⟨node, hnode, rfl⟩ := exists_node_of_next hlink
      obtain ⟨second, hsecond⟩ : ∃ second, node.next = some second := by
        cases before with
        | nil => exact ⟨last, (segment_cons_iff.mp hrest).1⟩
        | cons other before => exact ⟨other, (segment_cons_iff.mp hrest).1⟩
      rw [hsecond] at hrest
      rw [List.length_cons] at hfuel
      obtain ⟨fuel, rfl⟩ := Nat.exists_eq_add_of_le' (show 1 ≤ fuel by omega)
      rw [putLoop, loadNode, nodeAt_of_getElem? hnode, ok_bind, hsecond,
        List.filterMap_cons_some hnode, List.map_cons]
      dsimp only
      rw [ih hrest fuel (by omega)]
      by_cases htid : node.tid = tid
      · simp [htid]
      · have hne : tid ≠ node.tid := fun heq => htid heq.symm
        rw [if_neg htid]
        simp only [List.mem_cons, hne, false_or]

/-- The ids that share the chain of an id, in the order of their nodes. -/
def sharing (tids : List TunnelId) (tid : TunnelId) : List TunnelId :=
  tids.filter fun other => tcHashnodeHash other = tcHashnodeHash tid

def contentsOf (map : TcHashmap Tunnel) : List (TunnelId × Option Tunnel) :=
  map.allocated.map fun node => (node.tid, node.tunnel)

theorem map_tid_bucketOf (map : TcHashmap Tunnel) (tid : TunnelId) :
    ((bucketOf tcHashnodeHash (tidsOf map) (tcHashnodeHash tid)).filterMap
      (map.allocated[·]?)).map TcHashnode.tid = sharing (tidsOf map) tid := by
  rw [tidsOf, filterMap_bucketOf, sharing, List.filter_map]
  rfl

/-- Nothing is put where the id is met: that is, behind a node for the id 0, and
for other ids in front of the last node of the chain. -/
theorem putLoop_head (hlinked : Linked map) (tid : TunnelId) :
    (sharing (tidsOf map) tid ≠ [] ∧ (tid = 0 ∨ tid ∈ (sharing (tidsOf map) tid).dropLast) ∧
        putLoop map tid (map.allocated.length + 1) (.head (tcHashnodeHash tid)) = .ok none) ∨
      ¬ (sharing (tidsOf map) tid ≠ [] ∧
          (tid = 0 ∨ tid ∈ (sharing (tidsOf map) tid).dropLast)) ∧
        (bucketOf tcHashnodeHash (tidsOf map) (tcHashnodeHash tid) = [] ∧
            putLoop map tid (map.allocated.length + 1) (.head (tcHashnodeHash tid)) =
              .ok (some (.head (tcHashnodeHash tid))) ∨
          ∃ before last, bucketOf tcHashnodeHash (tidsOf map) (tcHashnodeHash tid) =
              before ++ [last] ∧
            putLoop map tid (map.allocated.length + 1) (.head (tcHashnodeHash tid)) =
              .ok (some (.node last))) := by
  have htids := map_tid_bucketOf map tid
  have hchain : Chain ((nextsOf map)[·]?) (map.nodes (tcHashnodeHash tid)).next
      (bucketOf tcHashnodeHash (tidsOf map) (tcHashnodeHash tid)) := hlinked.chained _
  have hlength := length_chain_le map (tcHashnodeHash tid)
  rcases List.eq_nil_or_concat' (bucketOf tcHashnodeHash (tidsOf map) (tcHashnodeHash tid)) with
    hempty | ⟨before, last, hbucket⟩
  · rw [hempty] at hchain htids
    refine Or.inr ⟨fun hmet => hmet.1 htids.symm, Or.inl ⟨hempty, ?_⟩⟩
    rw [putLoop, loadNode, ok_bind, segment_nil_iff.mp hchain]
  · obtain ⟨lastNode, hlast⟩ : ∃ node, map.allocated[last]? = some node := by
      obtain ⟨next, hnext⟩ := Option.isSome_iff_exists.mp
        (hchain.link_isSome last (by rw [hbucket]; simp))
      obtain ⟨node, hnode, _⟩ := exists_node_of_next hnext
      exact ⟨node, hnode⟩
    rw [hbucket] at hchain htids hlength
    rw [List.filterMap_append, List.filterMap_cons_some hlast, List.filterMap_nil,
      List.map_append, List.map_singleton] at htids
    obtain ⟨first, hfirst⟩ : ∃ first, (map.nodes (tcHashnodeHash tid)).next = some first := by
      cases before with
      | nil => exact ⟨last, (segment_cons_iff.mp hchain).1⟩
      | cons cell before => exact ⟨cell, (segment_cons_iff.mp hchain).1⟩
    rw [List.length_append, List.length_singleton] at hlength
    rw [hfirst] at hchain
    have hloop : putLoop map tid (map.allocated.length + 1) (.head (tcHashnodeHash tid)) =
        if tid = 0 ∨ tid ∈ (sharing (tidsOf map) tid).dropLast then .ok none
        else .ok (some (.node last)) := by
      rw [putLoop, loadNode, ok_bind, hfirst]
      dsimp only
      rw [hlinked.heads, putLoop_node hchain (by omega), ← htids, List.dropLast_concat]
      by_cases hzero : tid = 0
      · simp [hzero]
      · rw [if_neg (Ne.symm hzero)]
        simp only [hzero, false_or]
    rw [hloop]
    by_cases hmet : tid = 0 ∨ tid ∈ (sharing (tidsOf map) tid).dropLast
    · exact Or.inl ⟨by rw [← htids]; simp, hmet, if_pos hmet⟩
    · exact Or.inr ⟨fun hboth => hmet hboth.2, Or.inr ⟨before, last, hbucket, if_neg hmet⟩⟩

theorem tidsOf_eq (map : TcHashmap Tunnel) : tidsOf map = (contentsOf map).map Prod.fst := by
  rw [tidsOf, contentsOf, List.map_map]
  rfl

theorem boundTo_eq (map : TcHashmap Tunnel) (tid : TunnelId) :
    boundTo map tid = ((contentsOf map).find? (·.1 = tid)).map Prod.snd := by
  rw [boundTo, contentsOf, List.find?_map, Option.map_map]
  rfl

theorem boundTo_eq_none_iff : boundTo map tid = none ↔ tid ∉ tidsOf map := by
  rw [boundTo, Option.map_eq_none_iff, List.find?_eq_none, tidsOf, List.mem_map]
  simp

def freshNode (tid : TunnelId) (tunnel : Option Tunnel) : TcHashnode Tunnel where
  tid := tid
  tunnel := tunnel
  next := none

/-- A fresh node is linked behind the last one of its chain. -/
theorem exists_storeNext (hlinked : Linked map) (tid : TunnelId) (tunnel : Option Tunnel)
    {node : NodePointer}
    (hnode : bucketOf tcHashnodeHash (tidsOf map) (tcHashnodeHash tid) = [] ∧
        node = .head (tcHashnodeHash tid) ∨
      ∃ before last, bucketOf tcHashnodeHash (tidsOf map) (tcHashnodeHash tid) =
        before ++ [last] ∧ node = .node last) :
    ∃ map', storeNext { map with allocated := map.allocated ++ [freshNode tid tunnel] } node
          (some map.allocated.length) = .ok map' ∧
      contentsOf map' = contentsOf map ++ [(tid, tunnel)] ∧ (∀ slot, (map'.nodes slot).tid = 0) ∧
      Chained tcHashnodeHash (fun slot => (map'.nodes slot).next) (nextsOf map')
        (tidsOf map ++ [tid]) := by
  have hsizes : (nextsOf map).length = (tidsOf map).length := by simp [nextsOf, tidsOf]
  have hnumber : (nextsOf map).length = map.allocated.length := List.length_map _
  rcases hnode with ⟨hempty, rfl⟩ | ⟨before, last, hbucket, rfl⟩
  · refine ⟨_, rfl, by simp [contentsOf, freshNode], fun slot => ?_, ?_⟩
    · by_cases hslot : slot = tcHashnodeHash tid
      · subst hslot
        simpa using hlinked.heads (tcHashnodeHash tid)
      · simpa [hslot] using hlinked.heads slot
    · have hchained := hlinked.chained.anchor hsizes hempty
      have htable : (fun slot => (Function.update map.nodes (tcHashnodeHash tid)
          { map.nodes (tcHashnodeHash tid) with next := some map.allocated.length } slot).next) =
          Function.update (fun slot => (map.nodes slot).next) (tcHashnodeHash tid)
            (some map.allocated.length) := by
        funext slot
        by_cases hslot : slot = tcHashnodeHash tid
        · subst hslot
          simp
        · simp [hslot]
      rw [hnumber] at hchained
      simpa [nextsOf, htable, freshNode] using hchained
  · have hlt : last < map.allocated.length := by
      rw [← hnumber]
      exact hlinked.chained.lt_length (by rw [hbucket]; simp)
    obtain ⟨lastNode, hlast⟩ : ∃ node, map.allocated[last]? = some node :=
      ⟨_, List.getElem?_eq_getElem hlt⟩
    have hload : nodeAt (map.allocated ++ [freshNode tid tunnel]) last = .ok lastNode := by
      rw [nodeAt, List.getElem?_append_left hlt, hlast]
    have hlength : last < (contentsOf map).length := by
      rw [contentsOf, List.length_map]
      exact hlt
    have hsame : (contentsOf map).set last (lastNode.tid, lastNode.tunnel) = contentsOf map := by
      have hself := List.set_getElem_self hlength
      have hget := (List.getElem?_eq_some_iff.mp hlast).2
      simpa only [contentsOf, List.getElem_map, hget] using hself
    have hstore : storeNext { map with allocated := map.allocated ++ [freshNode tid tunnel] }
          (.node last) (some map.allocated.length) =
        .ok { map with
          allocated := (map.allocated ++ [freshNode tid tunnel]).set last
            { lastNode with next := some map.allocated.length } } := by
      simp only [storeNext, hload, ok_bind]
    refine ⟨_, hstore, ?_, hlinked.heads, ?_⟩
    · rw [contentsOf, List.map_set, List.map_append, List.map_singleton, ← contentsOf,
        List.set_append_left _ _ hlength, hsame]
      rfl
    · have hchained := hlinked.chained.behind hsizes hbucket
      rw [hnumber] at hchained
      simpa [nextsOf, List.map_set, freshNode] using hchained

/-- A put leaves the map alone where it meets the id, else it adds a node. -/
theorem tcHashmapPut_cases (hinv : Inv map) (tid : TunnelId) (tunnel : Option Tunnel) :
    (sharing (tidsOf map) tid ≠ [] ∧ (tid = 0 ∨ tid ∈ (sharing (tidsOf map) tid).dropLast) ∧
        tcHashmapPut map tid tunnel = .ok (0, map)) ∨
      ¬ (sharing (tidsOf map) tid ≠ [] ∧
          (tid = 0 ∨ tid ∈ (sharing (tidsOf map) tid).dropLast)) ∧
        ∃ map', tcHashmapPut map tid tunnel = .ok (1, map') ∧
          (tid ∉ tidsOf map → Inv map' ∧ contentsOf map' = contentsOf map ++ [(tid, tunnel)]) := by
  rcases putLoop_head hinv.linked tid with ⟨hne, hmet, hloop⟩ | ⟨hnot, hend⟩
  · refine Or.inl ⟨hne, hmet, ?_⟩
    rw [tcHashmapPut, hloop]
    rfl
  · obtain ⟨node, hloop, hnode⟩ : ∃ node, putLoop map tid (map.allocated.length + 1)
          (.head (tcHashnodeHash tid)) = .ok (some node) ∧
        (bucketOf tcHashnodeHash (tidsOf map) (tcHashnodeHash tid) = [] ∧
            node = .head (tcHashnodeHash tid) ∨
          ∃ before last, bucketOf tcHashnodeHash (tidsOf map) (tcHashnodeHash tid) =
            before ++ [last] ∧ node = .node last) := by
      rcases hend with ⟨hempty, hloop⟩ | ⟨before, last, hbucket, hloop⟩
      · exact ⟨_, hloop, Or.inl ⟨hempty, rfl⟩⟩
      · exact ⟨_, hloop, Or.inr ⟨before, last, hbucket, rfl⟩⟩
    obtain ⟨map', hstore, hcontents, hheads, hchained⟩ :=
      exists_storeNext hinv.linked tid tunnel hnode
    have htids : tidsOf map' = tidsOf map ++ [tid] := by
      rw [tidsOf_eq, hcontents, List.map_append, ← tidsOf_eq]
      rfl
    refine Or.inr ⟨hnot, map', ?_, fun hfresh => ⟨⟨hheads, htids ▸ hchained, ?_⟩, hcontents⟩⟩
    · rw [freshNode] at hstore
      rw [tcHashmapPut, hloop, ok_bind]
      dsimp only
      rw [hstore]
      rfl
    · rw [htids, List.nodup_append_comm, List.singleton_append, List.nodup_cons]
      exact ⟨hfresh, hinv.distinct⟩

end Map

/-! ## Runs -/

inductive Operation (Tunnel : Type)
  | put (tid : TunnelId) (tunnel : Option Tunnel)
  | get (tid : TunnelId)
  | remove (tid : TunnelId)

section Runs

variable {Tunnel : Type}

/-- What a call returns and stores, and the map behind it. -/
def operate (map : TcHashmap Tunnel) :
    Operation Tunnel → Run ((ℤ × Option Tunnel) × TcHashmap Tunnel)
  | .put tid tunnel => do
      let (ret, map) ← tcHashmapPut map tid tunnel
      .ok ((ret, none), map)
  | .get tid => do
      let result ← tcHashmapGet map tid
      .ok (result, map)
  | .remove tid => do
      let (ret, map) ← tcHashmapRemove map tid
      .ok ((ret, none), map)

/-- The call on a finite map. -/
def operateFinite (bound : TunnelId → Option (Option Tunnel)) :
    Operation Tunnel → (ℤ × Option Tunnel) × (TunnelId → Option (Option Tunnel))
  | .put tid tunnel =>
      match bound tid with
      | some _ => ((0, none), bound)
      | none => ((1, none), Function.update bound tid (some tunnel))
  | .get tid =>
      match bound tid with
      | some tunnel => ((1, tunnel), bound)
      | none => ((0, none), bound)
  | .remove tid =>
      match bound tid with
      | some _ => ((1, none), Function.update bound tid none)
      | none => ((0, none), bound)

/-- All lookups are those of the finite map, and no id has two nodes. -/
structure Represents (map : TcHashmap Tunnel) (bound : TunnelId → Option (Option Tunnel)) :
    Prop where
  lookup : ∀ tid, tcHashmapGet map tid =
    match bound tid with
    | some tunnel => .ok (1, tunnel)
    | none => .ok (0, none)
  distinct : (tidsOf map).Nodup

/-- Through the whole run the map represents the finite map, every call returns
what it returns there, and one that returns 0 changes nothing. -/
def Follows (map : TcHashmap Tunnel) (bound : TunnelId → Option (Option Tunnel)) :
    List (Operation Tunnel) → Prop
  | [] => Represents map bound
  | call :: calls =>
      Represents map bound ∧
        ∃ map', operate map call = .ok ((operateFinite bound call).1, map') ∧
          ((operateFinite bound call).1.1 = 0 → map' = map) ∧
          Follows map' (operateFinite bound call).2 calls

/-- A put does no harm: for the id 0, it has been put or no id of its chain has;
any other id is not the last one put of those that share its chain. -/
def PutHarmless (tids : List TunnelId) (tid : TunnelId) : Prop :=
  if tid = 0 then tid ∈ tids ∨ sharing tids tid = []
  else (sharing tids tid).getLast? ≠ some tid

/-- All puts of a run are harmless, and no id is removed that has been put
before.  The ids are those that have been put. -/
def Harmless (tids : List TunnelId) : List (Operation Tunnel) → Prop
  | [] => True
  | .put tid _ :: calls =>
      PutHarmless tids tid ∧ Harmless (if tid ∈ tids then tids else tids ++ [tid]) calls
  | .get _ :: calls => Harmless tids calls
  | .remove tid :: calls => tid ∉ tids ∧ Harmless tids calls

theorem mem_sharing_self {tids : List TunnelId} {tid : TunnelId} :
    tid ∈ sharing tids tid ↔ tid ∈ tids := by
  simp [sharing]

theorem mem_dropLast_iff {α : Type} {items : List α} {item : α} (hnodup : items.Nodup) :
    item ∈ items.dropLast ↔ item ∈ items ∧ items.getLast? ≠ some item := by
  rcases List.eq_nil_or_concat' items with rfl | ⟨before, last, rfl⟩
  · simp
  · rw [List.nodup_append_comm, List.singleton_append, List.nodup_cons] at hnodup
    rw [List.dropLast_concat, List.getLast?_concat, List.mem_append, List.mem_singleton]
    constructor
    · intro hitem
      refine ⟨Or.inl hitem, fun heq => ?_⟩
      rw [Option.some.inj heq] at hnodup
      exact hnodup.1 hitem
    · rintro ⟨hitem | rfl, hne⟩
      · exact hitem
      · exact absurd rfl hne

/-- The harmless puts are those that meet the id exactly where it is there. -/
theorem putHarmless_iff {tids : List TunnelId} (hnodup : tids.Nodup) (tid : TunnelId) :
    PutHarmless tids tid ↔
      ((sharing tids tid ≠ [] ∧ (tid = 0 ∨ tid ∈ (sharing tids tid).dropLast)) ↔ tid ∈ tids) := by
  have hdrop : tid ∈ (sharing tids tid).dropLast ↔ _ := mem_dropLast_iff (hnodup.filter _)
  rw [mem_sharing_self] at hdrop
  have hne : tid ∈ tids → sharing tids tid ≠ [] := fun hmem =>
    List.ne_nil_of_mem (mem_sharing_self.mpr hmem)
  have hlast : (sharing tids tid).getLast? = some tid → tid ∈ tids := fun heq =>
    mem_sharing_self.mp (List.mem_of_getLast? heq)
  rw [PutHarmless, hdrop]
  by_cases hzero : tid = 0
  · rw [if_pos hzero]
    grind
  · rw [if_neg hzero]
    grind

theorem represents_boundTo {map : TcHashmap Tunnel} (hinv : Inv map) :
    Represents map (boundTo map) where
  lookup := tcHashmapGet_eq hinv
  distinct := hinv.distinct

theorem boundTo_append {map map' : TcHashmap Tunnel} {tid : TunnelId} {tunnel : Option Tunnel}
    (hfresh : tid ∉ tidsOf map) (hcontents : contentsOf map' = contentsOf map ++ [(tid, tunnel)]) :
    boundTo map' = Function.update (boundTo map) tid (some tunnel) := by
  have hnone := boundTo_eq_none_iff.mpr hfresh
  funext other
  rw [boundTo_eq map', hcontents, List.find?_append, Option.map_or, ← boundTo_eq]
  by_cases hother : other = tid
  · subst hother
    simp [hnone]
  · have hne : tid ≠ other := fun heq => hother heq.symm
    simp [hother, hne]

section Steps

variable {map : TcHashmap Tunnel} {tid : TunnelId} {tunnel : Option Tunnel}
  {calls : List (Operation Tunnel)}

theorem operate_put {ret : ℤ} {map' : TcHashmap Tunnel}
    (hput : tcHashmapPut map tid tunnel = .ok (ret, map')) :
    operate map (.put tid tunnel) = .ok ((ret, none), map') := by
  rw [operate, hput]
  rfl

/-- A put of an id that is there. -/
theorem follows_put_of_mem (hinv : Inv map) (hmem : tid ∈ tidsOf map) :
    Follows map (boundTo map) (.put tid tunnel :: calls) ↔
      PutHarmless (tidsOf map) tid ∧ Follows map (boundTo map) calls := by
  obtain ⟨old, hbound⟩ := Option.ne_none_iff_exists'.mp
    fun hnone => boundTo_eq_none_iff.mp hnone hmem
  have hfinite : operateFinite (boundTo map) (.put tid tunnel) = ((0, none), boundTo map) := by
    simp only [operateFinite, hbound]
  have hharmless := putHarmless_iff hinv.distinct tid
  rw [iff_true_right hmem] at hharmless
  rw [hharmless, Follows, hfinite]
  rcases tcHashmapPut_cases hinv tid tunnel with ⟨hne, hmet, hput⟩ | ⟨hnot, map', hput, _⟩
  · rw [operate_put hput]
    constructor
    · rintro ⟨_, map', hstep, hsame, hcalls⟩
      rw [hsame rfl] at hcalls
      exact ⟨⟨hne, hmet⟩, hcalls⟩
    · intro hboth
      exact ⟨represents_boundTo hinv, map, rfl, fun _ => rfl, hboth.2⟩
  · rw [operate_put hput]
    constructor
    · rintro ⟨_, map'', hstep, _⟩
      simp at hstep
    · intro hboth
      exact absurd hboth.1 hnot

/-- A put of an id that is not. -/
theorem follows_put_of_not_mem (hinv : Inv map) (hfresh : tid ∉ tidsOf map)
    (hcalls : ∀ map' : TcHashmap Tunnel, Inv map' →
      (Follows map' (boundTo map') calls ↔ Harmless (tidsOf map') calls)) :
    Follows map (boundTo map) (.put tid tunnel :: calls) ↔
      PutHarmless (tidsOf map) tid ∧ Harmless (tidsOf map ++ [tid]) calls := by
  have hfinite : operateFinite (boundTo map) (.put tid tunnel) =
      ((1, none), Function.update (boundTo map) tid (some tunnel)) := by
    simp only [operateFinite, boundTo_eq_none_iff.mpr hfresh]
  have hharmless := putHarmless_iff hinv.distinct tid
  rw [iff_false_right hfresh] at hharmless
  rw [hharmless, Follows, hfinite]
  rcases tcHashmapPut_cases hinv tid tunnel with ⟨hne, hmet, hput⟩ | ⟨hnot, map', hput, hadded⟩
  · rw [operate_put hput]
    constructor
    · rintro ⟨_, map'', hstep, _⟩
      simp at hstep
    · intro hboth
      exact absurd ⟨hne, hmet⟩ hboth.1
  · obtain ⟨hinv', hcontents⟩ := hadded hfresh
    have htids : tidsOf map' = tidsOf map ++ [tid] := by
      rw [tidsOf_eq, hcontents, List.map_append, ← tidsOf_eq]
      rfl
    rw [operate_put hput, ← htids, ← hcalls map' hinv', boundTo_append hfresh hcontents]
    constructor
    · rintro ⟨_, map'', hstep, _, hrest⟩
      obtain rfl := (ok_pair_inj hstep).2
      exact ⟨hnot, hrest⟩
    · intro hboth
      exact ⟨represents_boundTo hinv, map', rfl, fun hret => absurd hret one_ne_zero, hboth.2⟩

/-- Lookups are always right. -/
theorem follows_get (hinv : Inv map) :
    Follows map (boundTo map) (.get tid :: calls) ↔ Follows map (boundTo map) calls := by
  have hget : operate map (.get tid) = .ok ((operateFinite (boundTo map) (.get tid)).1, map) ∧
      (operateFinite (boundTo map) (.get tid)).2 = boundTo map := by
    rw [operate, tcHashmapGet_eq hinv, operateFinite]
    cases boundTo map tid with
    | none => exact ⟨rfl, rfl⟩
    | some tunnel => exact ⟨rfl, rfl⟩
  rw [Follows, hget.1, hget.2]
  constructor
  · rintro ⟨_, map', hstep, _, hcalls⟩
    obtain rfl := (ok_pair_inj hstep).2
    exact hcalls
  · intro hcalls
    exact ⟨represents_boundTo hinv, map, rfl, fun _ => rfl, hcalls⟩

/-- Removals are right where there is nothing to remove. -/
theorem follows_remove (hinv : Inv map) :
    Follows map (boundTo map) (.remove tid :: calls) ↔
      tid ∉ tidsOf map ∧ Follows map (boundTo map) calls := by
  have hremove : operate map (.remove tid) = .ok ((0, none), map) := by
    rw [operate, tcHashmapRemove_eq hinv]
    rfl
  rw [Follows, hremove, ← boundTo_eq_none_iff, operateFinite]
  cases boundTo map tid with
  | none =>
      constructor
      · rintro ⟨_, map', hstep, _, hcalls⟩
        obtain rfl := (ok_pair_inj hstep).2
        exact ⟨rfl, hcalls⟩
      · intro hboth
        exact ⟨represents_boundTo hinv, map, rfl, fun _ => rfl, hboth.2⟩
  | some tunnel =>
      constructor
      · rintro ⟨_, map', hstep, _⟩
        simp at hstep
      · intro hboth
        exact absurd hboth.1 (Option.some_ne_none _)

theorem follows_iff_harmless (hinv : Inv map) (calls : List (Operation Tunnel)) :
    Follows map (boundTo map) calls ↔ Harmless (tidsOf map) calls := by
  induction calls generalizing map with
  | nil => exact iff_of_true (represents_boundTo hinv) trivial
  | cons call calls ih =>
      cases call with
      | put tid tunnel =>
          rw [Harmless]
          by_cases hmem : tid ∈ tidsOf map
          · rw [follows_put_of_mem hinv hmem, if_pos hmem, ih hinv]
          · rw [follows_put_of_not_mem hinv hmem fun map' hinv' => ih hinv', if_neg hmem]
      | get tid => rw [follows_get hinv, Harmless, ih hinv]
      | remove tid => rw [follows_remove hinv, Harmless, ih hinv]

end Steps

/-- From the empty hashmap on, a run is that of a finite map exactly if all its
puts are harmless and it removes nothing that has been put. -/
theorem follows_iff (calls : List (Operation Tunnel)) :
    Follows tcHashmapInit (fun _ => none) calls ↔ Harmless [] calls :=
  follows_iff_harmless inv_init calls

/-- A second put of an id adds a second node. -/
theorem not_follows_put_put :
    ¬ Follows tcHashmapInit (fun _ => none) [.put 1 (some ()), .put 1 (some ())] := by
  rintro ⟨_, map, hfirst, _, _, map', hsecond, _⟩
  obtain rfl := (ok_pair_inj hfirst).2
  have hret : (1 : ℤ) = 0 := congrArg (·.1.1) (Except.ok.inj hsecond)
  exact one_ne_zero hret

end Runs

end I2pLite.TunnelFiniteMap
