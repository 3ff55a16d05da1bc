import Mathlib.Data.List.Nodup
import Mathlib.Logic.Function.Basic

/-!
# Tables of slots

A slot is free or holds one key.  The table is scanned from the front: for the
first free slot, or for the first slot of a key.  With distinct keys it denotes
a finite map, and replacing one slot updates the map at one key.
-/

namespace I2pLite.SlotTable

variable {Slot K : Type*} {keyOf : Slot → Option K} {slots before after : List Slot}
variable {slot new : Slot} {key : K}

/-- The keys of the slots that are not free. -/
def keysOf (keyOf : Slot → Option K) (slots : List Slot) : List K := slots.filterMap keyOf

theorem mem_keysOf : key ∈ keysOf keyOf slots ↔ ∃ slot ∈ slots, keyOf slot = some key :=
  List.mem_filterMap

/-- A scan ends at the first slot that it looks for. -/
theorem exists_first {wanted : Slot → Prop} [DecidablePred wanted]
    (hwanted : ∃ slot ∈ slots, wanted slot) :
    ∃ before slot after, slots = before ++ slot :: after ∧ wanted slot ∧
      ∀ other ∈ before, ¬wanted other := by
  have hfound : (slots.find? fun slot => wanted slot).isSome := by
    simpa using hwanted
  obtain ⟨slot, hslot⟩ := Option.isSome_iff_exists.mp hfound
  obtain ⟨hholds, before, after, hsplit, hbefore⟩ := List.find?_eq_some_iff_append.mp hslot
  exact ⟨before, slot, after, hsplit, by simpa using hholds, by simpa using hbefore⟩

theorem keysOf_split (before after : List Slot) (slot : Slot) :
    keysOf keyOf (before ++ slot :: after) =
      keysOf keyOf before ++ ((keyOf slot).toList ++ keysOf keyOf after) := by
  cases hkey : keyOf slot with
  | none => simp [keysOf, hkey]
  | some key => simp [keysOf, hkey]

/-- A new key may take the place of a free slot. -/
theorem nodup_fill (hfree : keyOf slot = none) (hnew : keyOf new = some key)
    (hkey : key ∉ keysOf keyOf (before ++ slot :: after))
    (hnodup : (keysOf keyOf (before ++ slot :: after)).Nodup) :
    (keysOf keyOf (before ++ new :: after)).Nodup := by
  rw [keysOf_split, hfree, Option.toList_none, List.nil_append] at hkey hnodup
  rw [keysOf_split, hnew, Option.toList_some, List.singleton_append, List.nodup_middle]
  exact List.nodup_cons.mpr ⟨hkey, hnodup⟩

section Clear

variable (hslot : keyOf slot = some key) (hnew : keyOf new = none)
  (hnodup : (keysOf keyOf (before ++ slot :: after)).Nodup)
include hslot hnew hnodup

theorem nodup_clear : (keysOf keyOf (before ++ new :: after)).Nodup := by
  rw [keysOf_split, hslot, Option.toList_some, List.singleton_append, List.nodup_middle] at hnodup
  rw [keysOf_split, hnew]
  exact hnodup.of_cons

/-- The key of a slot is gone with the slot, for no other slot has it. -/
theorem notMem_clear : key ∉ keysOf keyOf (before ++ new :: after) := by
  rw [keysOf_split, hslot, Option.toList_some, List.singleton_append, List.nodup_middle] at hnodup
  rw [keysOf_split, hnew]
  exact (List.nodup_cons.mp hnodup).1

end Clear

/-! ## The finite map of a table -/

section Lookup

variable [DecidableEq K]

/-- What the table holds under a key. -/
def lookup (keyOf : Slot → Option K) (slots : List Slot) (key : K) : Option Slot :=
  slots.find? fun slot => keyOf slot = some key

theorem lookup_split (before after : List Slot) (slot : Slot) (key : K) :
    lookup keyOf (before ++ slot :: after) key =
      (lookup keyOf before key).or
        (if keyOf slot = some key then some slot else lookup keyOf after key) := by
  rw [lookup, List.find?_append, List.find?_cons]
  by_cases hkey : keyOf slot = some key
  · simp [lookup, hkey]
  · simp [lookup, hkey]

theorem lookup_eq_none_iff : lookup keyOf slots key = none ↔ key ∉ keysOf keyOf slots := by
  simp [lookup, mem_keysOf]

theorem lookup_fill (hfree : keyOf slot = none) (hnew : keyOf new = some key)
    (hkey : key ∉ keysOf keyOf (before ++ slot :: after)) :
    lookup keyOf (before ++ new :: after) =
      Function.update (lookup keyOf (before ++ slot :: after)) key (some new) := by
  rw [keysOf_split] at hkey
  have hbefore : lookup keyOf before key = none :=
    lookup_eq_none_iff.mpr fun hmem => hkey (by simp [hmem])
  funext other
  rw [lookup_split, hnew]
  by_cases hother : other = key
  · subst hother
    rw [Function.update_self, hbefore, if_pos rfl, Option.none_or]
  · have hne : some key ≠ some other := fun heq => hother (Option.some.inj heq).symm
    rw [Function.update_of_ne hother, lookup_split, hfree, if_neg hne, if_neg (by simp)]

theorem lookup_clear (hslot : keyOf slot = some key) (hnew : keyOf new = none)
    (hnodup : (keysOf keyOf (before ++ slot :: after)).Nodup) :
    lookup keyOf (before ++ new :: after) =
      Function.update (lookup keyOf (before ++ slot :: after)) key none := by
  funext other
  by_cases hother : other = key
  · subst hother
    rw [Function.update_self, lookup_eq_none_iff]
    exact notMem_clear hslot hnew hnodup
  · have hne : some key ≠ some other := fun heq => hother (Option.some.inj heq).symm
    rw [Function.update_of_ne hother, lookup_split, lookup_split, hslot, hnew, if_neg hne,
      if_neg (by simp)]

end Lookup

end I2pLite.SlotTable
