import I2pLite.Bencode.CloneEqual
import I2pLite.Bencode.Read

/-!
# The items of a list

An appended item is not copied: the node gets the pointer of the caller, and a
zeroed node behind it.  The iterator meets this last node as well, and what the
caller has released.
-/

namespace I2pLite.ListItems

open I2pLite.CRun
open I2pLite.BencodeObject
open I2pLite.CloneEqual
open I2pLite.Read

/-! ## A list and the caller that fills it -/

/-- The objects that a caller has made, and the list it appends them to.  The
nodes of the list have their pointers, which are the numbers of the objects. -/
structure ListCaller where
  objs : List (ObjPtr BencodeObj)
  nodes : List (Option ℕ)

/-- The list is new, and there is no object yet. -/
def listCallerNew : ListCaller := { objs := [], nodes := [none] }

inductive CallerStep
  | append (val : BencodeObj)
  | free (number : ℕ)

/-- What a value pointer leads to. -/
def pointee (objs : List (ObjPtr BencodeObj)) : Option ℕ → ObjPtr BencodeObj
  | none => .null
  | some number => objs.getD number .null

/-- The list, as everyone else meets it. -/
def ListCaller.list (caller : ListCaller) : BencodeObj :=
  .list (caller.nodes.map (pointee caller.objs))

/-- The caller makes an object and appends it, or releases one of its objects.
A pointer that has been released is null, and releasing null does nothing. -/
def callerStep (fuel : ℕ) (caller : ListCaller) : CallerStep → Run ListCaller
  | .append val => .ok {
      objs := caller.objs ++ [.live val]
      nodes := caller.nodes.dropLast ++ [some caller.objs.length, none] }
  | .free number =>
      match caller.objs[number]? with
      | some (.live obj) => do
          bencodeObjFree fuel obj
          .ok { caller with objs := caller.objs.set number .freed }
      | _ => .ok caller

def callerRun (fuel : ℕ) (steps : List CallerStep) (caller : ListCaller) : Run ListCaller :=
  steps.foldlM (callerStep fuel) caller

/-- The value that a step appends. -/
def CallerStep.appended : CallerStep → List BencodeObj
  | .append val => [val]
  | .free _ => []

/-- The arguments of all calls of the callback. -/
def iterCalls (list : BencodeObj) : Run (List (ObjPtr BencodeObj)) :=
  bencodeObjIterList list (fun val calls => .ok (calls ++ [val])) []

/-- There is one call for each value, with an object that is equal to it. -/
def IteratesOver (list : BencodeObj) (vals : List BencodeObj) : Prop :=
  ∃ calls, iterCalls list = .ok calls ∧
    List.Forall₂ (fun call val => ∃ obj, call = .live obj ∧ EqualObj val obj) calls vals

/-! ## What the list holds -/

/-- An object is as it was appended, or it has been released. -/
def Holds (ptr : ObjPtr BencodeObj) (val : BencodeObj) : Prop := ptr = .live val ∨ ptr = .freed

/-- The list has a node for each object, and one more. -/
structure HoldsItems (caller : ListCaller) (vals : List BencodeObj) : Prop where
  nodes : caller.nodes = (List.range caller.objs.length).map some ++ [none]
  objs : List.Forall₂ Holds caller.objs vals

theorem holdsItems_new : HoldsItems listCallerNew [] where
  nodes := rfl
  objs := .nil

section Steps

variable {caller caller' : ListCaller} {vals : List BencodeObj} {val : BencodeObj} {fuel : ℕ}

theorem HoldsItems.list_eq (hholds : HoldsItems caller vals) :
    caller.list = .list (caller.objs ++ [.null]) := by
  have hobjs : (List.range caller.objs.length).map (pointee caller.objs ∘ some) = caller.objs := by
    apply List.ext_getElem
    · simp
    · intro number hleft hright
      simp [pointee, hright]
  rw [ListCaller.list, hholds.nodes, List.map_append, List.map_map, hobjs]
  rfl

theorem HoldsItems.append (hholds : HoldsItems caller vals)
    (hstep : callerStep fuel caller (.append val) = .ok caller') :
    HoldsItems caller' (vals ++ [val]) := by
  obtain rfl := Except.ok.inj hstep
  refine ⟨?_, ?_⟩
  · simp only
    rw [hholds.nodes, List.dropLast_concat, List.length_append, List.length_singleton,
      List.range_succ, List.map_append, List.append_assoc]
    rfl
  · exact List.rel_append hholds.objs (.cons (Or.inl rfl) .nil)

theorem forall₂_set {ptrs : List (ObjPtr BencodeObj)} (hptrs : List.Forall₂ Holds ptrs vals)
    (number : ℕ) : List.Forall₂ Holds (ptrs.set number .freed) vals := by
  induction hptrs generalizing number with
  | nil => exact .nil
  | cons hptr hrest ih =>
      cases number with
      | zero => exact .cons (Or.inr rfl) hrest
      | succ number => exact .cons hptr (ih number)

/-- A release leaves everything else as it is. -/
theorem free_cases {number : ℕ} (hstep : callerStep fuel caller (.free number) = .ok caller') :
    caller' = { caller with objs := caller.objs.set number .freed } ∨
      caller' = caller ∧ ∀ obj, caller.objs[number]? ≠ some (.live obj) := by
  rw [callerStep] at hstep
  split at hstep
  · obtain ⟨_, _, hend⟩ := bind_eq_ok.mp hstep
    exact Or.inl (Except.ok.inj hend).symm
  · rename_i hnone
    exact Or.inr ⟨(Except.ok.inj hstep).symm, hnone⟩

theorem HoldsItems.free (hholds : HoldsItems caller vals) {number : ℕ}
    (hstep : callerStep fuel caller (.free number) = .ok caller') : HoldsItems caller' vals := by
  rcases free_cases hstep with rfl | ⟨rfl, _⟩
  · refine ⟨?_, forall₂_set hholds.objs number⟩
    simp only
    rw [List.length_set, hholds.nodes]
  · exact hholds

theorem HoldsItems.step (hholds : HoldsItems caller vals) {step : CallerStep}
    (hstep : callerStep fuel caller step = .ok caller') :
    HoldsItems caller' (vals ++ step.appended) := by
  cases step with
  | append val => exact hholds.append hstep
  | free number =>
      rw [CallerStep.appended, List.append_nil]
      exact hholds.free hstep

theorem HoldsItems.run {steps : List CallerStep} (hholds : HoldsItems caller vals)
    (hrun : callerRun fuel steps caller = .ok caller') :
    HoldsItems caller' (vals ++ steps.flatMap CallerStep.appended) := by
  induction steps generalizing caller vals with
  | nil =>
      obtain rfl := Except.ok.inj hrun
      simpa using hholds
  | cons step steps ih =>
      rw [callerRun, List.foldlM_cons] at hrun
      obtain ⟨middle, hstep, hrest⟩ := bind_eq_ok.mp hrun
      have hall := ih (hholds.step hstep) hrest
      rwa [List.append_assoc, ← List.flatMap_cons] at hall

/-! ## The list as an object -/

/-- An object is appended as it is. -/
theorem HoldsItems.bencodeObjListAppend (hholds : HoldsItems caller vals)
    (hstep : callerStep fuel caller (.append val) = .ok caller') :
    BencodeObject.bencodeObjListAppend caller.list (.live val) = .ok caller'.list := by
  rw [hholds.list_eq, (hholds.append hstep).list_eq]
  obtain rfl := Except.ok.inj hstep
  rw [BencodeObject.bencodeObjListAppend, List.dropLast_concat]
  simp

/-- What the parser does with an item leaves a node that points at nothing. -/
theorem HoldsItems.append_free (hholds : HoldsItems caller vals)
    (hrun : callerRun fuel [.append val, .free caller.objs.length] caller = .ok caller') :
    BencodeObject.bencodeObjListAppend caller.list (appendedItem (some val)) =
      .ok caller'.list := by
  rw [(hholds.run hrun).list_eq, hholds.list_eq]
  rw [callerRun, List.foldlM_cons, callerStep, ok_bind, List.foldlM_cons] at hrun
  obtain ⟨after, hfree, hend⟩ := bind_eq_ok.mp hrun
  obtain rfl := Except.ok.inj hend
  have hlast : (caller.objs ++ [.live val])[caller.objs.length]? = some (.live val) :=
    List.getElem?_concat_length
  rw [callerStep] at hfree
  dsimp only at hfree
  rw [hlast] at hfree
  obtain ⟨_, _, hafter⟩ := bind_eq_ok.mp hfree
  obtain rfl := Except.ok.inj hafter
  rw [BencodeObject.bencodeObjListAppend, List.dropLast_concat]
  simp [appendedItem]

theorem foldlM_collect (vals calls : List (ObjPtr BencodeObj)) :
    vals.foldlM (fun calls val => (.ok (calls ++ [val]) : Run _)) calls = .ok (calls ++ vals) := by
  induction vals generalizing calls with
  | nil => rw [List.append_nil]; rfl
  | cons val vals ih =>
      rw [List.foldlM_cons, ok_bind, ih, List.append_assoc]
      rfl

/-- There is one call more than there are items, and it is with null. -/
theorem HoldsItems.iterCalls_eq (hholds : HoldsItems caller vals) :
    iterCalls caller.list = .ok (caller.objs ++ [.null]) := by
  rw [iterCalls, hholds.list_eq, bencodeObjIterList, foldlM_collect]
  rfl

/-- Whatever has been appended and released, the list is not iterated over as it
should be. -/
theorem HoldsItems.not_iteratesOver (hholds : HoldsItems caller vals) :
    ¬ IteratesOver caller.list vals := by
  rintro ⟨calls, hcalls, hequal⟩
  obtain rfl := Except.ok.inj (hholds.iterCalls_eq.symm.trans hcalls)
  have hlength := hequal.length_eq
  rw [List.length_append, hholds.objs.length_eq, List.length_singleton] at hlength
  omega

end Steps

/-- Whatever has been appended and released, the callback is not called as it
should be: there is one call more than there are items. -/
theorem not_iteratesOver_callerRun {fuel : ℕ} {steps : List CallerStep} {caller : ListCaller}
    (hrun : callerRun fuel steps listCallerNew = .ok caller) :
    ¬ IteratesOver caller.list (steps.flatMap CallerStep.appended) := by
  have hholds : HoldsItems caller (steps.flatMap CallerStep.appended) := holdsItems_new.run hrun
  exact hholds.not_iteratesOver

/-- With one integer that has been appended and released. -/
theorem not_iteratesOver_callerRun_int :
    ∃ caller, callerRun 1 [.append (bencodeObjInt 1), .free 0] listCallerNew = .ok caller ∧
      ¬ IteratesOver caller.list [bencodeObjInt 1] := by
  refine ⟨{ objs := [.freed], nodes := [some 0, none] }, rfl, ?_⟩
  exact @not_iteratesOver_callerRun 1 [.append (bencodeObjInt 1), .free 0] _ rfl

/-- The callback of an empty list is called with null, and that of a list of one
released integer with a pointer to nothing. -/
theorem not_iteratesOver_new :
    iterCalls listCallerNew.list = .ok [.null] ∧ ¬ IteratesOver listCallerNew.list [] ∧
      ∃ caller, callerRun 1 [.append (bencodeObjInt 1), .free 0] listCallerNew = .ok caller ∧
        iterCalls caller.list = .ok [.freed, .null] ∧
        ¬ IteratesOver caller.list [bencodeObjInt 1] := by
  refine ⟨rfl, ?_, ⟨{ objs := [.freed], nodes := [some 0, none] }, rfl, rfl, ?_⟩⟩
  · rintro ⟨calls, hcalls, hequal⟩
    obtain rfl := Except.ok.inj hcalls
    cases hequal
  · rintro ⟨calls, hcalls, hequal⟩
    obtain rfl := Except.ok.inj hcalls
    cases hequal with
    | cons _ hrest => cases hrest

end I2pLite.ListItems
