import Mathlib.Data.List.Range
import Mathlib.Data.List.Nodup
import Mathlib.Logic.Function.Basic
import I2pLite.Core.LinkedChain

/-!
# Hash tables with chains

Nodes are numbered in the order of their allocation, and the key of a node
decides which of the slots it belongs to.  Behind the anchor of a slot hangs
the chain of its nodes, in the order of their numbers.  New nodes are appended.
-/

namespace I2pLite.ChainedTable

open I2pLite.LinkedChain

variable {K Slot Node : Type*} [DecidableEq Slot] {hash : K → Slot} {keys : List K} {slot : Slot}

/-! ## Buckets -/

/-- The numbers of the nodes of a slot, from the keys of all nodes. -/
def bucketOf (hash : K → Slot) (keys : List K) (slot : Slot) : List ℕ :=
  (List.range keys.length).filter fun index => keys[index]?.any fun key => hash key = slot

theorem mem_bucketOf {index : ℕ} :
    index ∈ bucketOf hash keys slot ↔ ∃ key, keys[index]? = some key ∧ hash key = slot := by
  rw [bucketOf, List.mem_filter, List.mem_range]
  constructor
  · rintro ⟨hlt, hslot⟩
    rw [List.getElem?_eq_getElem hlt] at hslot ⊢
    exact ⟨_, rfl, by simpa using hslot⟩
  · rintro ⟨key, hget, hslot⟩
    exact ⟨(List.getElem?_eq_some_iff.mp hget).1, by simp [hget, hslot]⟩

theorem bucketOf_append (keys : List K) (key : K) (slot : Slot) :
    bucketOf hash (keys ++ [key]) slot =
      bucketOf hash keys slot ++ if hash key = slot then [keys.length] else [] := by
  have hbefore : (List.range keys.length).filter (fun index =>
      (keys ++ [key])[index]?.any fun key => hash key = slot) = bucketOf hash keys slot := by
    apply List.filter_congr
    intro index hindex
    rw [List.getElem?_append_left (List.mem_range.mp hindex)]
  have hlast : (keys ++ [key])[keys.length]? = some key := by simp
  rw [bucketOf, List.length_append, List.length_singleton, List.range_succ, List.filter_append,
    hbefore]
  by_cases hslot : hash key = slot
  · simp [hslot]
  · simp [hslot]

theorem length_bucketOf_le (hash : K → Slot) (keys : List K) (slot : Slot) :
    (bucketOf hash keys slot).length ≤ keys.length := by
  calc (bucketOf hash keys slot).length
      ≤ (List.range keys.length).length := List.length_filter_le _ _
    _ = keys.length := List.length_range

section Nodes

variable (keyOf : Node → K) (nodes : List Node)

theorem filterMap_bucketOf (slot : Slot) :
    (bucketOf hash (nodes.map keyOf) slot).filterMap (nodes[·]?) =
      nodes.filter fun node => hash (keyOf node) = slot := by
  induction nodes using List.reverseRecOn with
  | nil => rfl
  | append_singleton nodes node ih =>
      have hbefore : (bucketOf hash (nodes.map keyOf) slot).filterMap ((nodes ++ [node])[·]?) =
          (bucketOf hash (nodes.map keyOf) slot).filterMap (nodes[·]?) := by
        apply List.filterMap_congr
        intro index hindex
        obtain ⟨key, hget, _⟩ := mem_bucketOf.mp hindex
        have hlt := (List.getElem?_eq_some_iff.mp hget).1
        rw [List.length_map] at hlt
        exact List.getElem?_append_left hlt
      rw [List.map_append, List.map_singleton, bucketOf_append, List.filterMap_append, hbefore, ih,
        List.filter_append]
      by_cases hslot : hash (keyOf node) = slot
      · simp [hslot]
      · simp [hslot]

/-- A node with a key is found in the bucket of the key. -/
theorem find?_bucketOf [DecidableEq K] (key : K) :
    ((bucketOf hash (nodes.map keyOf) (hash key)).filterMap (nodes[·]?)).find? (keyOf · = key) =
      nodes.find? (keyOf · = key) := by
  have hsame : (fun node : Node => decide (decide (hash (keyOf node) = hash key) = true ∧
      decide (keyOf node = key) = true)) = fun node => decide (keyOf node = key) := by
    funext node
    by_cases hkey : keyOf node = key
    · simp [hkey]
    · simp [hkey]
  rw [filterMap_bucketOf, List.find?_filter, hsame]

end Nodes

/-! ## Chains -/

/-- Every anchor leads to the chain of its bucket. -/
def Chained (hash : K → Slot) (table : Slot → Option ℕ) (nexts : List (Option ℕ))
    (keys : List K) : Prop :=
  ∀ slot, Chain (nexts[·]?) (table slot) (bucketOf hash keys slot)

variable {table : Slot → Option ℕ} {nexts : List (Option ℕ)} {key : K}

theorem Chained.lt_length (hchained : Chained hash table nexts keys) {index : ℕ}
    (hindex : index ∈ bucketOf hash keys slot) : index < nexts.length := by
  obtain ⟨next, hnext⟩ := Option.isSome_iff_exists.mp
    ((hchained slot).link_isSome index hindex)
  exact (List.getElem?_eq_some_iff.mp hnext).1

/-- A node is the first of its slot: the anchor leads to it. -/
theorem Chained.anchor (hchained : Chained hash table nexts keys)
    (hlength : nexts.length = keys.length) (hempty : bucketOf hash keys (hash key) = []) :
    Chained hash (Function.update table (hash key) (some nexts.length)) (nexts ++ [none])
      (keys ++ [key]) := by
  intro slot
  rw [bucketOf_append]
  by_cases hslot : hash key = slot
  · subst hslot
    rw [hempty, if_pos rfl, Function.update_self, List.nil_append, ← hlength]
    exact .cons (by simp) .nil
  · rw [if_neg hslot, List.append_nil, Function.update_of_ne (Ne.symm hslot)]
    exact (hchained slot).congr fun index hindex =>
      List.getElem?_append_left (hchained.lt_length hindex)

/-- Otherwise the last node of the slot leads to it. -/
theorem Chained.behind (hchained : Chained hash table nexts keys)
    (hlength : nexts.length = keys.length) {before : List ℕ} {last : ℕ}
    (hbucket : bucketOf hash keys (hash key) = before ++ [last]) :
    Chained hash table ((nexts ++ [none]).set last (some nexts.length)) (keys ++ [key]) := by
  have hlast : last ∈ bucketOf hash keys (hash key) := by
    rw [hbucket]
    simp
  have hlt := hchained.lt_length hlast
  have hother : ∀ index, index ≠ last → index < nexts.length →
      ((nexts ++ [none]).set last (some nexts.length))[index]? = nexts[index]? := by
    intro index hne hindex
    rw [List.getElem?_set_ne (Ne.symm hne), List.getElem?_append_left hindex]
  intro slot
  rw [bucketOf_append]
  by_cases hslot : hash key = slot
  · subst hslot
    have hchain := hchained (hash key)
    have hinside : ∀ cell ∈ before ++ [last], cell < nexts.length := by
      rw [← hbucket]
      exact fun cell hcell => hchained.lt_length hcell
    rw [hbucket] at hchain
    rw [if_pos rfl, hbucket]
    refine segment_append_iff.mpr ⟨some nexts.length, hchain.relink (fun cell hcell => ?_) ?_, ?_⟩
    · refine hother cell ?_ (hinside cell (by simp [hcell]))
      rintro rfl
      have hnodup := hchain.chain_nodup
      rw [List.nodup_append_comm, List.singleton_append, List.nodup_cons] at hnodup
      exact hnodup.1 hcell
    · exact List.getElem?_set_self (by rw [List.length_append]; omega)
    · rw [← hlength]
      refine .cons ?_ .nil
      rw [List.getElem?_set_ne (by omega)]
      simp
  · rw [if_neg hslot, List.append_nil]
    refine (hchained slot).congr fun index hindex => hother index ?_ (hchained.lt_length hindex)
    rintro rfl
    obtain ⟨key', hget, hh⟩ := mem_bucketOf.mp hindex
    obtain ⟨key'', hget', hh'⟩ := mem_bucketOf.mp hlast
    obtain rfl := Option.some.inj (hget.symm.trans hget')
    exact hslot (hh'.symm.trans hh)

end I2pLite.ChainedTable
