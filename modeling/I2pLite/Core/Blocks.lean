import Mathlib.Data.Finset.Basic
import I2pLite.Core.CRun

/-!
# Blocks of allocated storage

Every allocation gives a block that no one has had before, and a block is freed
once.  What a piece of code has allocated and not freed are the blocks that the
heap has besides those from before.
-/

namespace I2pLite.Blocks

open I2pLite.CRun

/-- The allocated blocks; the next one is fresh. -/
structure Heap where
  fresh : ℕ
  live : Finset ℕ
  bounded : ∀ block ∈ live, block < fresh

def alloc (heap : Heap) : ℕ × Heap :=
  (heap.fresh,
    { fresh := heap.fresh + 1
      live := insert heap.fresh heap.live
      bounded := fun _ hblock => (Finset.mem_insert.mp hblock).elim
        (fun heq => heq ▸ Nat.lt_succ_self _)
        (fun hlive => Nat.lt_succ_of_lt (heap.bounded _ hlive)) })

def free (block : ℕ) (heap : Heap) : Run Heap :=
  if block ∈ heap.live then
    .ok {
      fresh := heap.fresh
      live := heap.live.erase block
      bounded := fun _ hother => heap.bounded _ (Finset.mem_of_mem_erase hother) }
  else .error .useAfterFree

/-- One block after the other. -/
def freeAll (blocks : List ℕ) (heap : Heap) : Run Heap :=
  blocks.foldlM (fun heap block => free block heap) heap

/-- The heap has these blocks besides those that were there before. -/
structure Adds (before : Heap) (blocks : List ℕ) (heap : Heap) : Prop where
  nodup : blocks.Nodup
  apart : ∀ block ∈ blocks, block ∉ before.live
  live : ∀ block, block ∈ heap.live ↔ block ∈ before.live ∨ block ∈ blocks

section Adds

variable {before heap : Heap} {block : ℕ} {blocks rest : List ℕ}

theorem freeAll_cons (block : ℕ) (blocks : List ℕ) (heap : Heap) :
    freeAll (block :: blocks) heap = free block heap >>= freeAll blocks :=
  List.foldlM_cons

theorem freeAll_singleton (block : ℕ) : freeAll [block] = free block := by
  funext heap
  rw [freeAll_cons]
  cases free block heap <;> rfl

theorem freeAll_append (blocks rest : List ℕ) (heap : Heap) :
    freeAll (blocks ++ rest) heap = freeAll blocks heap >>= freeAll rest :=
  List.foldlM_append

theorem Adds.refl (before : Heap) : Adds before [] before where
  nodup := List.nodup_nil
  apart := by simp
  live := by simp

theorem Adds.perm (hadds : Adds before blocks heap) (hperm : blocks.Perm rest) :
    Adds before rest heap where
  nodup := hperm.nodup_iff.mp hadds.nodup
  apart := fun block hblock => hadds.apart block (hperm.mem_iff.mpr hblock)
  live := fun block => by rw [hadds.live, hperm.mem_iff]

theorem Adds.alloc (hadds : Adds before blocks heap) :
    Adds before ((alloc heap).1 :: blocks) (alloc heap).2 where
  nodup := List.nodup_cons.mpr ⟨fun hmem =>
    absurd (heap.bounded _ ((hadds.live _).mpr (Or.inr hmem))) (lt_irrefl _), hadds.nodup⟩
  apart := List.forall_mem_cons.mpr ⟨fun hmem =>
    absurd (heap.bounded _ ((hadds.live _).mpr (Or.inl hmem))) (lt_irrefl _), hadds.apart⟩
  live := fun block => by
    change block ∈ insert heap.fresh heap.live ↔ _ ∨ block ∈ heap.fresh :: blocks
    rw [Finset.mem_insert, hadds.live, List.mem_cons, or_left_comm]

/-- A block that has been added can be freed. -/
theorem Adds.free (hadds : Adds before (block :: blocks) heap) :
    ∃ heap', free block heap = .ok heap' ∧ Adds before blocks heap' := by
  have hlive : block ∈ heap.live := (hadds.live block).mpr (Or.inr List.mem_cons_self)
  obtain ⟨hnot, hnodup⟩ := List.nodup_cons.mp hadds.nodup
  obtain ⟨hapart, haparts⟩ := List.forall_mem_cons.mp hadds.apart
  refine ⟨_, if_pos hlive, hnodup, haparts, fun other => ?_⟩
  change other ∈ heap.live.erase block ↔ _
  rw [Finset.mem_erase, hadds.live, List.mem_cons]
  constructor
  · rintro ⟨hne, hbefore | heq | hblocks⟩
    · exact Or.inl hbefore
    · exact absurd heq hne
    · exact Or.inr hblocks
  · rintro (hbefore | hblocks)
    · exact ⟨fun heq => hapart (heq ▸ hbefore), Or.inl hbefore⟩
    · exact ⟨fun heq => hnot (heq ▸ hblocks), Or.inr (Or.inr hblocks)⟩

theorem Adds.freeAll (hadds : Adds before (blocks ++ rest) heap) :
    ∃ heap', freeAll blocks heap = .ok heap' ∧ Adds before rest heap' := by
  induction blocks generalizing heap with
  | nil => exact ⟨heap, rfl, hadds⟩
  | cons block blocks ih =>
      obtain ⟨next, hfree, hnext⟩ := hadds.free
      obtain ⟨heap', hrest, hadds'⟩ := ih hnext
      refine ⟨heap', ?_, hadds'⟩
      rw [freeAll_cons, hfree, ok_bind, hrest]

end Adds

end I2pLite.Blocks
