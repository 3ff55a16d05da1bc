import Mathlib.Data.List.Perm.Lattice
import I2pLite.Netdb.FirstWins

/-!
# What an iteration visits

The outer loop of `netdb_hashmap_for_each` counts down from 127 and ends before
the bucket 0.  So what it visits are the nodes of all other buckets.
-/

namespace I2pLite.ForEach

open I2pLite.CRun
open I2pLite.LinkedChain
open I2pLite.ChainedTable
open I2pLite.Hashmap
open I2pLite.FirstWins

section Map

variable {Ri S : Type} {nodes : List (NetdbHashNode Ri)} {map : NetdbHashmap Ri}
variable {routerInfoHash : Ri → IdentHash}

/-! ## The two loops -/

/-- One call of the visitor. -/
def visitNode (visit : IdentHash → Ri → S → Run S) (user : S) (node : NetdbHashNode Ri) : Run S :=
  visit node.h node.ri user

theorem forEachNode_eq {visit : IdentHash → Ri → S → Run S} {start : Option ℕ} {cells : List ℕ}
    {fuel : ℕ} (hlive : Live nodes) (hchain : Chain (links nodes) start cells)
    (hfuel : cells.length ≤ fuel) (user : S) :
    forEachNode nodes visit fuel start user =
      (cells.filterMap (nodes[·]?)).foldlM (visitNode visit) user := by
  induction cells generalizing start fuel user with
  | nil =>
      rw [segment_nil_iff.mp hchain]
      cases fuel <;> rfl
  | cons cell cells ih =>
      obtain ⟨rfl, next, hlink, hcells⟩ := segment_cons_iff.mp hchain
      obtain ⟨node, hnode, rfl⟩ := exists_node_of_link hlink
      obtain ⟨fuel, rfl⟩ := Nat.exists_eq_add_of_le' (show 1 ≤ fuel by simp at hfuel; omega)
      rw [forEachNode, nodeAt_of_getElem? hlive hnode, ok_bind, List.filterMap_cons_some hnode,
        List.foldlM_cons]
      exact congrArg (visit node.h node.ri user >>= ·)
        (funext (ih hcells (by simpa using hfuel)))

/-- The nodes of the buckets from this one down to the bucket 1, as they are
visited. -/
def visitedFrom (nodes : List (NetdbHashNode Ri)) : ℕ → List (NetdbHashNode Ri)
  | 0 => []
  | idx + 1 =>
      nodes.filter (fun node => netdbHashmapHashIdent node.h = Fin.ofNat 128 (idx + 1)) ++
        visitedFrom nodes idx

theorem forEachBucket_eq (hinv : Inv routerInfoHash map) (visit : IdentHash → Ri → S → Run S)
    (idx : ℕ) (user : S) :
    forEachBucket map visit idx user =
      (visitedFrom map.nodes idx).foldlM (visitNode visit) user := by
  induction idx generalizing user with
  | zero => rfl
  | succ idx ih =>
      have hlength := length_chain_le map (Fin.ofNat 128 (idx + 1))
      rw [forEachBucket, forEachNode_eq hinv.live (hinv.chain _) (by omega), hashesOf,
        filterMap_bucketOf, visitedFrom, List.foldlM_append]
      exact congrArg (_ >>= ·) (funext ih)

/-- What is visited. -/
def visitedNodes (map : NetdbHashmap Ri) : List (NetdbHashNode Ri) := visitedFrom map.nodes 127

theorem netdbHashmapForEach_eq (hinv : Inv routerInfoHash map)
    (visit : IdentHash → Ri → S → Run S) (user : S) :
    netdbHashmapForEach map visit user = (visitedNodes map).foldlM (visitNode visit) user :=
  forEachBucket_eq hinv visit 127 user

/-! ## What is visited -/

theorem visitedFrom_perm (nodes : List (NetdbHashNode Ri)) {idx : ℕ} (hidx : idx < 128) :
    (visitedFrom nodes idx).Perm (nodes.filter fun node =>
      0 < (netdbHashmapHashIdent node.h).val ∧ (netdbHashmapHashIdent node.h).val ≤ idx) := by
  induction idx with
  | zero =>
      have hnone : (nodes.filter fun node => 0 < (netdbHashmapHashIdent node.h).val ∧
          (netdbHashmapHashIdent node.h).val ≤ 0) = [] :=
        List.filter_eq_nil_iff.mpr fun node _ => by simp; omega
      rw [hnone]
      rfl
  | succ idx ih =>
      have hslot : ∀ slot : Fin 128, slot = Fin.ofNat 128 (idx + 1) ↔ slot.val = idx + 1 := by
        intro slot
        rw [Fin.ext_iff, Fin.val_ofNat, Nat.mod_eq_of_lt hidx]
      have hsplit := List.filter_append_perm
        (fun node : NetdbHashNode Ri => netdbHashmapHashIdent node.h = Fin.ofNat 128 (idx + 1))
        (nodes.filter fun node => 0 < (netdbHashmapHashIdent node.h).val ∧
          (netdbHashmapHashIdent node.h).val ≤ idx + 1)
      rw [List.filter_filter, List.filter_filter] at hsplit
      refine List.Perm.trans ?_ hsplit
      rw [visitedFrom]
      refine List.Perm.append (.of_eq (List.filter_congr fun node _ => ?_))
        ((ih (by omega)).trans (.of_eq (List.filter_congr fun node _ => ?_)))
      · rw [Bool.eq_iff_iff]
        simp only [hslot, Bool.and_eq_true, decide_eq_true_eq]
        omega
      · rw [Bool.eq_iff_iff]
        simp only [hslot, Bool.and_eq_true, Bool.not_eq_true', decide_eq_true_eq,
          decide_eq_false_iff_not]
        omega

/-- All nodes but those of the bucket 0 are visited, each once. -/
theorem visitedNodes_perm (map : NetdbHashmap Ri) :
    (visitedNodes map).Perm
      (map.nodes.filter fun node => netdbHashmapHashIdent node.h ≠ 0) := by
  refine (visitedFrom_perm map.nodes (by omega)).trans (.of_eq (List.filter_congr fun node _ => ?_))
  have hlt := (netdbHashmapHashIdent node.h).isLt
  rw [Bool.eq_iff_iff]
  simp only [ne_eq, Fin.ext_iff, decide_eq_true_eq]
  change _ ↔ (netdbHashmapHashIdent node.h).val ≠ 0
  omega

theorem mem_visitedNodes {node : NetdbHashNode Ri} :
    node ∈ visitedNodes map ↔ node ∈ map.nodes ∧ netdbHashmapHashIdent node.h ≠ 0 := by
  rw [(visitedNodes_perm map).mem_iff, List.mem_filter, decide_eq_true_iff]

/-! ## Iterations over a whole map -/

/-- The visitor is called once for every stored router info with its hash, for
as many as the size says, and each of them is what a lookup of the hash
delivers. -/
def VisitsAll (map : NetdbHashmap Ri) : Prop :=
  ∃ trace : List (IdentHash × Ri),
    (∀ (S : Type) (visit : IdentHash → Ri → S → Run S) (user : S),
      netdbHashmapForEach map visit user =
        trace.foldlM (fun user entry => visit entry.1 entry.2 user) user) ∧
    trace.Perm (contentsOf map) ∧ trace.length = netdbHashmapSize map ∧
    ∀ entry ∈ trace, netdbHashmapGet map entry.1 = .ok (1, some entry.2)

/-- The calls of the visitor, one after the other. -/
def traceOf (map : NetdbHashmap Ri) : List (IdentHash × Ri) :=
  (visitedNodes map).map fun node => (node.h, node.ri)

theorem netdbHashmapForEach_eq_trace (hinv : Inv routerInfoHash map)
    (visit : IdentHash → Ri → S → Run S) (user : S) :
    netdbHashmapForEach map visit user =
      (traceOf map).foldlM (fun user entry => visit entry.1 entry.2 user) user := by
  rw [netdbHashmapForEach_eq hinv, traceOf, List.foldlM_map]
  rfl

/-- A visitor that writes down its calls. -/
theorem foldlM_record (trace before : List (IdentHash × Ri)) :
    trace.foldlM (fun user entry => (.ok (user ++ [(entry.1, entry.2)]) : Run _)) before =
      .ok (before ++ trace) := by
  induction trace generalizing before with
  | nil => simp
  | cons entry trace ih =>
      rw [List.foldlM_cons, ok_bind, ih, List.append_assoc]
      rfl

theorem nodeOf_of_mem (hinv : Inv routerInfoHash map) {node : NetdbHashNode Ri}
    (hnode : node ∈ map.nodes) : nodeOf map node.h = some node := by
  rw [nodeOf]
  cases hfind : map.nodes.find? fun other => other.h = node.h with
  | none => simpa using List.find?_eq_none.mp hfind node hnode
  | some other =>
      have hsame : other.h = node.h := by simpa using List.find?_some hfind
      exact congrArg some (List.inj_on_of_nodup_map hinv.distinct (List.mem_of_find?_eq_some hfind)
        hnode hsame)

/-- What is stored was the first with its hash. -/
theorem mem_stored_iff {ris : List Ri} (hbuilt : Built routerInfoHash ris map) (ri : Ri) :
    ri ∈ map.nodes.map NetdbHashNode.ri ↔
      firstWith routerInfoHash ris (routerInfoHash ri) = some ri := by
  rw [List.mem_map, ← hbuilt.lookup, Option.map_eq_some_iff]
  constructor
  · rintro ⟨node, hnode, rfl⟩
    rw [← hbuilt.inv.stored node hnode]
    exact ⟨node, nodeOf_of_mem hbuilt.inv hnode, rfl⟩
  · rintro ⟨node, hnode, rfl⟩
    exact ⟨node, List.mem_of_find?_eq_some hnode, rfl⟩

/-- All nodes are visited exactly where none is in the bucket 0. -/
theorem visitsAll_iff (hinv : Inv routerInfoHash map) :
    VisitsAll map ↔ ∀ node ∈ map.nodes, netdbHashmapHashIdent node.h ≠ 0 := by
  constructor
  · rintro ⟨trace, hvisits, hperm, _⟩
    have hrecorded := hvisits _ (fun h ri user => .ok (user ++ [(h, ri)])) []
    rw [netdbHashmapForEach_eq_trace hinv, foldlM_record, foldlM_record] at hrecorded
    obtain rfl : traceOf map = trace := by simpa using hrecorded
    intro node hnode
    have hlength := hperm.length_eq
    rw [traceOf, List.length_map, contentsOf, List.length_map,
      (visitedNodes_perm map).length_eq] at hlength
    simpa using List.length_filter_eq_length_iff.mp hlength node hnode
  · intro hbuckets
    have hall : (visitedNodes map).Perm map.nodes := by
      have hperm := visitedNodes_perm map
      rwa [List.filter_eq_self.mpr fun node hnode => by simpa using hbuckets node hnode] at hperm
    refine ⟨traceOf map, fun S visit user => netdbHashmapForEach_eq_trace hinv visit user,
      hall.map _, ?_, ?_⟩
    · rw [traceOf, List.length_map, hall.length_eq, hinv.size]
    · intro entry hentry
      obtain ⟨node, hnode, rfl⟩ := List.mem_map.mp hentry
      rw [netdbHashmapGet_eq hinv, nodeOf_of_mem hinv (mem_visitedNodes.mp hnode).1]
      rfl

/-- After any inserts into a fresh map an iteration visits all that is stored
exactly where no hash of an insert belongs to the bucket 0. -/
theorem insertCalls_visitsAll_iff (routerInfoHash : Ri → IdentHash) (ris : List Ri) :
    ∃ map, insertCalls routerInfoHash ris = .ok map ∧
      (VisitsAll map ↔ ∀ ri ∈ ris, netdbHashmapHashIdent (routerInfoHash ri) ≠ 0) := by
  obtain ⟨map, hcalls, hbuilt⟩ := exists_built routerInfoHash ris
  refine ⟨map, hcalls, ?_⟩
  rw [visitsAll_iff hbuilt.inv]
  constructor
  · intro hnodes ri hri
    obtain ⟨node, hnode, hh⟩ := List.mem_map.mp (hbuilt.mem_hashesOf_iff.mpr ⟨ri, hri, rfl⟩)
    rw [← hh]
    exact hnodes node hnode
  · intro hris node hnode
    obtain ⟨ri, hri, hh⟩ := hbuilt.mem_hashesOf_iff.mp (List.mem_map_of_mem hnode)
    rw [← hh]
    exact hris ri hri

end Map

/-- A map that holds the hash of zeros alone: nothing is visited. -/
theorem not_visitsAll_zeros :
    ∃ map, insertCalls id [List.Vector.replicate 32 0] = .ok map ∧ ¬ VisitsAll map := by
  obtain ⟨map, hcalls, hbuilt⟩ := exists_built id [List.Vector.replicate 32 (0 : UInt8)]
  refine ⟨map, hcalls, fun hvisits => ?_⟩
  obtain ⟨node, hnode, hh⟩ := List.mem_map.mp
    (hbuilt.mem_hashesOf_iff.mpr ⟨_, List.mem_singleton_self _, rfl⟩)
  refine (visitsAll_iff hbuilt.inv).mp hvisits node hnode ?_
  rw [hh]
  decide

end I2pLite.ForEach
