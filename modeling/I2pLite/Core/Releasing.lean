import I2pLite.Core.CRun
import I2pLite.Core.ChainedTable

/-!
# Releasing a table of chains

One slot after the other, the chain behind its anchor is released node by node;
the link of a node is read before its storage is gone.  Where no node has been
released before, each of them is released once.  A node that has been released
and is still linked ends the run.
-/

namespace I2pLite.Releasing

open I2pLite.CRun
open I2pLite.LinkedChain
open I2pLite.ChainedTable

variable {Memory Slot : Type}

/-- `while((node = free(node))) continue`. -/
def freeChain (nodeFree : Option ℕ → Memory → Run (Memory × Option ℕ)) :
    ℕ → Option ℕ → Memory → Run Memory
  | 0, _, _ => .error .outOfFuel
  | fuel + 1, node, memory => do
      let (memory, next) ← nodeFree node memory
      match next with
      | none => .ok memory
      | some next => freeChain nodeFree fuel (some next) memory

/-- The chains of all slots. -/
def freeTable (nodeFree : Option ℕ → Memory → Run (Memory × Option ℕ))
    (anchor : Memory → Slot → Option ℕ) (fuel : ℕ) (slots : List Slot) (memory : Memory) :
    Run Memory :=
  slots.foldlM (fun memory slot => freeChain nodeFree fuel (anchor memory slot) memory) memory

/-- A live node is released by a step that moves no anchor and no link, and
afterwards all others are as they were. -/
structure Frees (anchor : Memory → Slot → Option ℕ) (link : Memory → ℕ → Option (Option ℕ))
    (live : Memory → ℕ → Prop) (step : ℕ → Memory → Run Memory)
    (nodeFree : Option ℕ → Memory → Run (Memory × Option ℕ)) : Prop where
  null : ∀ memory, nodeFree none memory = .ok (memory, none)
  free : ∀ memory index next, link memory index = some next → live memory index →
    nodeFree (some index) memory = step index memory >>= fun memory => .ok (memory, next)
  refuses : ∀ memory index result, ¬live memory index → nodeFree (some index) memory ≠ .ok result
  anchors : ∀ memory index memory', step index memory = .ok memory' →
    anchor memory' = anchor memory
  links : ∀ memory index memory', step index memory = .ok memory' → link memory' = link memory
  lives : ∀ memory index memory', step index memory = .ok memory' → ∀ other,
    live memory' other ↔ live memory other ∧ other ≠ index
  linked : ∀ memory index, live memory index → (link memory index).isSome

section Frees

variable {anchor : Memory → Slot → Option ℕ} {link : Memory → ℕ → Option (Option ℕ)}
variable {live : Memory → ℕ → Prop} {step : ℕ → Memory → Run Memory}
variable {nodeFree : Option ℕ → Memory → Run (Memory × Option ℕ)}
variable {memory memory' : Memory} {fuel : ℕ} {cells : List ℕ} {start stop : Option ℕ}

/-- One step for every cell. -/
def steps (step : ℕ → Memory → Run Memory) (cells : List ℕ) (memory : Memory) : Run Memory :=
  cells.foldlM (fun memory cell => step cell memory) memory

theorem steps_cons (cell : ℕ) (cells : List ℕ) (memory : Memory) :
    steps step (cell :: cells) memory = step cell memory >>= steps step cells :=
  List.foldlM_cons

theorem steps_append (left right : List ℕ) (memory : Memory) :
    steps step (left ++ right) memory = steps step left memory >>= steps step right :=
  List.foldlM_append

/-- What a run of steps leaves alone. -/
theorem Frees.steps_keep (hfrees : Frees anchor link live step nodeFree)
    (hsteps : steps step cells memory = .ok memory') :
    anchor memory' = anchor memory ∧ link memory' = link memory ∧
      ∀ other, live memory' other ↔ live memory other ∧ other ∉ cells := by
  induction cells generalizing memory with
  | nil =>
      obtain rfl := Except.ok.inj hsteps
      simp
  | cons cell cells ih =>
      rw [steps_cons] at hsteps
      obtain ⟨middle, hstep, hrest⟩ := bind_eq_ok.mp hsteps
      obtain ⟨hanchor, hlink, hlive⟩ := ih hrest
      refine ⟨hanchor.trans (hfrees.anchors _ _ _ hstep), hlink.trans (hfrees.links _ _ _ hstep),
        fun other => ?_⟩
      rw [hlive, hfrees.lives _ _ _ hstep, List.mem_cons, not_or, and_assoc]

/-- A chain of live nodes is released node by node. -/
theorem Frees.freeChain_eq (hfrees : Frees anchor link live step nodeFree)
    (hchain : Chain (link memory) start cells) (hlive : ∀ cell ∈ cells, live memory cell)
    (hfuel : cells.length < fuel) :
    freeChain nodeFree fuel start memory = steps step cells memory := by
  induction cells generalizing start memory fuel with
  | nil =>
      obtain ⟨fuel, rfl⟩ := Nat.exists_eq_add_of_le' (show 1 ≤ fuel by omega)
      rw [segment_nil_iff.mp hchain, freeChain, hfrees.null]
      rfl
  | cons cell cells ih =>
      obtain ⟨fuel, rfl⟩ := Nat.exists_eq_add_of_le' (show 1 ≤ fuel by omega)
      obtain ⟨rfl, next, hlink, hcells⟩ := segment_cons_iff.mp hchain
      rw [freeChain, hfrees.free _ _ _ hlink (hlive cell List.mem_cons_self), steps_cons]
      cases hstep : step cell memory with
      | error error => rfl
      | ok memory' =>
          rw [ok_bind, ok_bind, ok_bind]
          dsimp only
          have hnodup := List.nodup_cons.mp hchain.chain_nodup
          have hrest : ∀ other ∈ cells, live memory' other := by
            intro other hother
            rw [hfrees.lives _ _ _ hstep]
            refine ⟨hlive other (List.mem_cons_of_mem _ hother), ?_⟩
            rintro rfl
            exact hnodup.1 hother
          have hsame : Chain (link memory') next cells := by
            rw [hfrees.links _ _ _ hstep]
            exact hcells
          cases next with
          | none =>
              obtain rfl : cells = [] := hcells.chain_unique .nil
              rfl
          | some next => exact ih hsame hrest (by simpa using hfuel)

/-- The chains of the slots are released one after the other. -/
theorem Frees.freeTable_eq (hfrees : Frees anchor link live step nodeFree)
    {chains : Slot → List ℕ} {slots : List Slot}
    (hchains : ∀ slot ∈ slots, Chain (link memory) (anchor memory slot) (chains slot))
    (hlive : ∀ cell ∈ slots.flatMap chains, live memory cell)
    (hnodup : (slots.flatMap chains).Nodup)
    (hfuel : ∀ slot ∈ slots, (chains slot).length < fuel) :
    freeTable nodeFree anchor fuel slots memory = steps step (slots.flatMap chains) memory := by
  induction slots generalizing memory with
  | nil => rfl
  | cons slot slots ih =>
      rw [List.flatMap_cons, List.nodup_append] at hnodup
      rw [List.flatMap_cons] at hlive
      have hfirst := hfrees.freeChain_eq (hchains slot List.mem_cons_self)
        (fun cell hcell => hlive cell (List.mem_append_left _ hcell))
        (hfuel slot List.mem_cons_self)
      rw [freeTable, List.foldlM_cons, hfirst, List.flatMap_cons, steps_append]
      cases hsteps : steps step (chains slot) memory with
      | error error => rfl
      | ok memory' =>
          rw [ok_bind, ok_bind]
          obtain ⟨hanchor, hlink, hlives⟩ := hfrees.steps_keep hsteps
          refine ih (fun other hother => ?_) (fun cell hcell => ?_) hnodup.2.1
            (fun other hother => hfuel other (List.mem_cons_of_mem _ hother))
          · rw [hanchor, hlink]
            exact hchains other (List.mem_cons_of_mem _ hother)
          · rw [hlives]
            refine ⟨hlive cell (List.mem_append_right _ hcell), fun hmem => ?_⟩
            exact hnodup.2.2 cell hmem cell hcell rfl

/-! ## Nodes that have been released -/

/-- What has been released is a chain, and all of its nodes were live. -/
theorem Frees.exists_chain (hfrees : Frees anchor link live step nodeFree)
    (hfree : freeChain nodeFree fuel start memory = .ok memory') :
    ∃ cells, Chain (link memory) start cells ∧ (∀ cell ∈ cells, live memory cell) ∧
      steps step cells memory = .ok memory' := by
  induction fuel generalizing start memory with
  | zero => cases hfree
  | succ fuel ih =>
      obtain ⟨⟨middle, next⟩, hnode, hrest⟩ := bind_eq_ok.mp hfree
      cases start with
      | none =>
          rw [hfrees.null] at hnode
          obtain ⟨rfl, rfl⟩ := ok_pair_inj hnode
          exact ⟨[], .nil, by simp, hrest⟩
      | some index =>
          have hlive : live memory index := by
            by_contra hreleased
            exact hfrees.refuses _ _ _ hreleased hnode
          obtain ⟨next', hlink⟩ := Option.isSome_iff_exists.mp (hfrees.linked _ _ hlive)
          rw [hfrees.free _ _ _ hlink hlive] at hnode
          obtain ⟨after, hstep, hresult⟩ := bind_eq_ok.mp hnode
          obtain ⟨rfl, rfl⟩ := ok_pair_inj hresult
          obtain ⟨cells, hcells, hlives, hsteps⟩ : ∃ cells, Chain (link after) next' cells ∧
              (∀ cell ∈ cells, live after cell) ∧ steps step cells after = .ok memory' := by
            cases next' with
            | none => exact ⟨[], .nil, by simp, hrest⟩
            | some next' => exact ih hrest
          rw [hfrees.links _ _ _ hstep] at hcells
          refine ⟨index :: cells, .cons hlink hcells, fun cell hcell => ?_, ?_⟩
          · rcases List.mem_cons.mp hcell with rfl | hcell
            · exact hlive
            · exact ((hfrees.lives _ _ _ hstep cell).mp (hlives cell hcell)).1
          · rw [steps_cons, hstep, ok_bind, hsteps]

/-- A segment from the start of a chain is a part of it. -/
theorem subset_of_segment {cells chain : List ℕ}
    (hsegment : Segment (link memory) start cells stop)
    (hchain : Chain (link memory) start chain) : cells ⊆ chain := by
  induction cells generalizing start chain with
  | nil => simp
  | cons cell cells ih =>
      obtain ⟨rfl, next, hlink, hcells⟩ := segment_cons_iff.mp hsegment
      cases chain with
      | nil => cases segment_nil_iff.mp hchain
      | cons first chain =>
          obtain ⟨hfirst, next', hlink', hrest⟩ := segment_cons_iff.mp hchain
          obtain rfl := Option.some.inj hfirst
          obtain rfl := Option.some.inj (hlink.symm.trans hlink')
          exact List.cons_subset_cons cell (ih hcells hrest)

/-- Where a table can be released, no node that is still linked has been. -/
theorem Frees.live_of_freeTable (hfrees : Frees anchor link live step nodeFree)
    {slots : List Slot} {slot : Slot}
    (hfree : freeTable nodeFree anchor fuel slots memory = .ok memory') (hslot : slot ∈ slots)
    (hsegment : Segment (link memory) (anchor memory slot) cells stop) :
    ∀ cell ∈ cells, live memory cell := by
  induction slots generalizing memory with
  | nil => cases hslot
  | cons first slots ih =>
      rw [freeTable, List.foldlM_cons] at hfree
      obtain ⟨middle, hfirst, hrest⟩ := bind_eq_ok.mp hfree
      obtain ⟨chain, hchain, hlive, hsteps⟩ := hfrees.exists_chain hfirst
      obtain ⟨hanchor, hlink, hlives⟩ := hfrees.steps_keep hsteps
      intro cell hcell
      rcases List.mem_cons.mp hslot with rfl | hslot
      · exact hlive cell (subset_of_segment hsegment hchain hcell)
      · rw [← hanchor, ← hlink] at hsegment
        exact ((hlives cell).mp (ih hrest hslot hsegment cell hcell)).1

end Frees

/-! ## Buckets -/

section Buckets

variable {K : Type} [DecidableEq Slot] {hash : K → Slot} {keys : List K} {slots : List Slot}

theorem nodup_bucketOf (hash : K → Slot) (keys : List K) (slot : Slot) :
    (bucketOf hash keys slot).Nodup := List.nodup_range.filter _

theorem nodup_flatMap_bucketOf (hash : K → Slot) (keys : List K) (hslots : slots.Nodup) :
    (slots.flatMap (bucketOf hash keys)).Nodup := by
  rw [List.nodup_flatMap]
  refine ⟨fun slot _ => nodup_bucketOf hash keys slot, hslots.imp fun hne => ?_⟩
  intro index hleft hright
  obtain ⟨key, hkey, hslot⟩ := mem_bucketOf.mp hleft
  obtain ⟨key', hkey', hslot'⟩ := mem_bucketOf.mp hright
  obtain rfl := Option.some.inj (hkey.symm.trans hkey')
  exact hne (hslot.symm.trans hslot')

/-- Every node is in one bucket. -/
theorem flatMap_bucketOf_perm (hash : K → Slot) (keys : List K) (hslots : slots.Nodup)
    (hall : ∀ slot, slot ∈ slots) :
    (slots.flatMap (bucketOf hash keys)).Perm (List.range keys.length) := by
  rw [List.perm_ext_iff_of_nodup (nodup_flatMap_bucketOf hash keys hslots) List.nodup_range]
  intro index
  rw [List.mem_flatMap, List.mem_range]
  constructor
  · rintro ⟨slot, _, hindex⟩
    obtain ⟨key, hkey, _⟩ := mem_bucketOf.mp hindex
    exact (List.getElem?_eq_some_iff.mp hkey).1
  · intro hlt
    exact ⟨hash keys[index], hall _,
      mem_bucketOf.mpr ⟨keys[index], List.getElem?_eq_getElem hlt, rfl⟩⟩

theorem filterMap_range {Node : Type} (nodes : List Node) :
    (List.range nodes.length).filterMap (nodes[·]?) = nodes := by
  induction nodes using List.reverseRecOn with
  | nil => rfl
  | append_singleton nodes node ih =>
      have hbefore : (List.range nodes.length).filterMap ((nodes ++ [node])[·]?) =
          (List.range nodes.length).filterMap (nodes[·]?) := by
        apply List.filterMap_congr
        intro index hindex
        exact List.getElem?_append_left (List.mem_range.mp hindex)
      rw [List.length_append, List.length_singleton, List.range_succ, List.filterMap_append,
        hbefore, ih]
      simp

end Buckets

end I2pLite.Releasing
