import I2pLite.Bencode.Read

/-!
# More fuel keeps a result

A run of `bencode.c` that delivers a value delivers the same value with more
fuel, so runs with different fuel can be put together.
-/

namespace I2pLite.MoreFuel

open I2pLite.CRun
open I2pLite.CBytes
open I2pLite.Stdio
open I2pLite.BencodeObject
open I2pLite.Read

variable {fuel fuel' : ℕ}

theorem iterDictFrom_keeps {S : Type} {nodes : DictStore}
    {visit visit' : CString → BencodeObj → S → Run S}
    (hvisit : ∀ key val user, Keeps (visit key val user) (visit' key val user))
    (hle : fuel ≤ fuel') (start : Option ℕ) (user : S) :
    Keeps (iterDictFrom nodes visit fuel start user)
      (iterDictFrom nodes visit' fuel' start user) := by
  induction fuel generalizing fuel' start user with
  | zero =>
      cases start with
      | none => cases fuel' <;> exact .refl _
      | some index => exact .of_error _ _
  | succ fuel ih =>
      obtain ⟨fuel', rfl⟩ := Nat.exists_eq_add_of_le' (show 1 ≤ fuel' by omega)
      cases start with
      | none => exact .refl _
      | some index =>
          refine .bind (.refl _) fun node => ?_
          dsimp only
          split
          · exact .bind (hvisit _ _ _) fun user => ih (by omega) _ _
          · exact ih (by omega) _ _

theorem bencodeObjIterDict_keeps {S : Type} {visit visit' : CString → BencodeObj → S → Run S}
    (hvisit : ∀ key val user, Keeps (visit key val user) (visit' key val user))
    (hle : fuel ≤ fuel') (obj : BencodeObj) (user : S) :
    Keeps (bencodeObjIterDict fuel obj visit user) (bencodeObjIterDict fuel' obj visit' user) := by
  cases obj with
  | dict nodes => exact iterDictFrom_keeps hvisit hle _ _
  | _ => exact .refl _

theorem bencodeObjIterList_keeps {S : Type} {visit visit' : ObjPtr BencodeObj → S → Run S}
    (hvisit : ∀ val user, Keeps (visit val user) (visit' val user)) (obj : BencodeObj) (user : S) :
    Keeps (bencodeObjIterList obj visit user) (bencodeObjIterList obj visit' user) := by
  cases obj with
  | list vals => exact .foldlM (fun user val => hvisit val user) user
  | _ => exact .refl _

theorem dictSetLoop_keeps {nodes : DictStore} {key : Option CString} (hle : fuel ≤ fuel')
    (curr next : Option ℕ) :
    Keeps (dictSetLoop nodes key fuel curr next) (dictSetLoop nodes key fuel' curr next) := by
  induction fuel generalizing fuel' curr next with
  | zero =>
      cases next with
      | none => cases fuel' <;> exact .refl _
      | some next => exact .of_error _ _
  | succ fuel ih =>
      obtain ⟨fuel', rfl⟩ := Nat.exists_eq_add_of_le' (show 1 ≤ fuel' by omega)
      cases next with
      | none => exact .refl _
      | some next =>
          refine .bind (.refl _) fun node => .bind (.refl _) fun nextKey => ?_
          refine .bind (.refl _) fun name => .ite (.refl _) ?_
          exact .bind (.refl _) fun cell => .bind (.refl _) fun currNode => ih (by omega) _ _

theorem dictSetWith_keeps {clone clone' : BencodeObj → Run BencodeObj}
    (hclone : ∀ obj, Keeps (clone obj) (clone' obj)) (hle : fuel ≤ fuel') (dict : BencodeObj)
    (key : Option CString) (val : BencodeObj) :
    Keeps (dictSetWith clone fuel dict key val) (dictSetWith clone' fuel' dict key val) := by
  refine .bind (hclone val) fun copy => .bind (.refl _) fun nodes => ?_
  refine .bind (.refl _) fun head => .bind (dictSetLoop_keeps hle _ _) fun cursors => ?_
  exact .refl _

theorem bencodeObjClone_keeps (hle : fuel ≤ fuel') (obj : BencodeObj) :
    Keeps (bencodeObjClone fuel obj) (bencodeObjClone fuel' obj) := by
  induction fuel generalizing fuel' obj with
  | zero => exact .of_error _ _
  | succ fuel ih =>
      obtain ⟨fuel', rfl⟩ := Nat.exists_eq_add_of_le' (show 1 ≤ fuel' by omega)
      cases obj with
      | list vals =>
          refine bencodeObjIterList_keeps (fun val copy => ?_) _ _
          exact .bind (.refl _) fun obj => .bind (ih (by omega) obj) fun _ => .refl _
      | dict nodes =>
          refine bencodeObjIterDict_keeps (fun key val copy => ?_) (by omega) _ _
          refine .bind (ih (by omega) val) fun valClone => ?_
          exact dictSetWith_keeps (ih (by omega)) (by omega) _ _ _
      | str data => exact .refl _
      | integer value => exact .refl _

theorem bencodeObjDictSet_keeps (hle : fuel ≤ fuel') (dict : BencodeObj) (key : Option CString)
    (val : BencodeObj) :
    Keeps (bencodeObjDictSet fuel dict key val) (bencodeObjDictSet fuel' dict key val) :=
  dictSetWith_keeps (bencodeObjClone_keeps hle) hle dict key val

theorem freeIfSet_keeps {free free' : BencodeObj → Run Unit}
    (hfree : ∀ obj, Keeps (free obj) (free' obj)) (obj : Option BencodeObj) :
    Keeps (freeIfSet free obj) (freeIfSet free' obj) := by
  cases obj with
  | none => exact .refl _
  | some obj => exact hfree obj

theorem freeDictFrom_keeps {free free' : BencodeObj → Run Unit} {nodes : DictStore}
    (hfree : ∀ obj, Keeps (free obj) (free' obj)) (hle : fuel ≤ fuel') (released : List ℕ)
    (start : Option ℕ) :
    Keeps (freeDictFrom free nodes fuel released start)
      (freeDictFrom free' nodes fuel' released start) := by
  induction fuel generalizing fuel' released start with
  | zero =>
      cases start with
      | none => cases fuel' <;> exact .refl _
      | some index => exact .of_error _ _
  | succ fuel ih =>
      obtain ⟨fuel', rfl⟩ := Nat.exists_eq_add_of_le' (show 1 ≤ fuel' by omega)
      cases start with
      | none => exact .refl _
      | some index =>
          refine .bind (.refl _) fun node => .ite (.refl _) ?_
          exact .bind (freeIfSet_keeps hfree _) fun _ => ih (by omega) _ _

theorem bencodeObjFree_keeps (hle : fuel ≤ fuel') (obj : BencodeObj) :
    Keeps (bencodeObjFree fuel obj) (bencodeObjFree fuel' obj) := by
  induction fuel generalizing fuel' obj with
  | zero => exact .of_error _ _
  | succ fuel ih =>
      obtain ⟨fuel', rfl⟩ := Nat.exists_eq_add_of_le' (show 1 ≤ fuel' by omega)
      cases obj with
      | list vals =>
          rw [bencodeObjFree, bencodeObjFree, List.forM_eq_forM]
          induction vals with
          | nil => exact .refl _
          | cons val vals ihVals =>
              rw [List.forM_cons, List.forM_cons]
              refine .bind ?_ fun _ => ihVals
              cases val with
              | null => exact .refl _
              | freed => exact .of_error _ _
              | live obj => exact ih (by omega) obj
      | dict nodes => exact freeDictFrom_keeps (ih (by omega)) (by omega) _ _
      | str data => exact .refl _
      | integer value => exact .refl _

section Readers

variable {read read' : Reader} {release release' : ℕ}

theorem setIfRead_keeps (hle : fuel ≤ fuel') (dict : BencodeObj) (k v : Option BencodeObj)
    (ctx : ReadCtx) : Keeps (setIfRead fuel dict k v ctx) (setIfRead fuel' dict k v ctx) := by
  refine .ite ?_ (.refl _)
  refine .bind (.refl _) fun key => .bind (.refl _) fun data => ?_
  exact .bind (.refl _) fun val => bencodeObjDictSet_keeps hle _ _ _

theorem bencodeReadDictItem_keeps (hread : ∀ c ctx, Keeps (read c ctx) (read' c ctx))
    (hle : fuel ≤ fuel') (dict : BencodeObj) (prefixByte : Byte) (ctx : ReadCtx) :
    Keeps (bencodeReadDictItem read fuel dict prefixByte ctx)
      (bencodeReadDictItem read' fuel' dict prefixByte ctx) := by
  refine .bind (.refl _) fun key => .ite (.refl _) ?_
  refine .bind (hread _ _) fun value => .bind (setIfRead_keeps hle _ _ _ _) fun dict => ?_
  refine .bind (freeIfSet_keeps (bencodeObjFree_keeps hle) _) fun _ => ?_
  exact .bind (freeIfSet_keeps (bencodeObjFree_keeps hle) _) fun _ => .refl _

theorem readListLoop_keeps (hread : ∀ c ctx, Keeps (read c ctx) (read' c ctx))
    (hrelease : release ≤ release') (hle : fuel ≤ fuel') (list : BencodeObj) (ctx : ReadCtx) :
    Keeps (readListLoop read release fuel list ctx)
      (readListLoop read' release' fuel' list ctx) := by
  induction fuel generalizing fuel' list ctx with
  | zero => exact .of_error _ _
  | succ fuel ih =>
      obtain ⟨fuel', rfl⟩ := Nat.exists_eq_add_of_le' (show 1 ≤ fuel' by omega)
      rw [readListLoop, readListLoop]
      split
      · exact .refl _
      · refine .ite (.refl _) (.bind (hread _ _) fun item => .bind (.refl _) fun list => ?_)
        exact .bind (freeIfSet_keeps (bencodeObjFree_keeps hrelease) _) fun _ => ih (by omega) _ _

theorem readDictLoop_keeps (hread : ∀ c ctx, Keeps (read c ctx) (read' c ctx))
    (hrelease : release ≤ release') (hle : fuel ≤ fuel') (dict : BencodeObj) (ctx : ReadCtx) :
    Keeps (readDictLoop read release fuel dict ctx)
      (readDictLoop read' release' fuel' dict ctx) := by
  induction fuel generalizing fuel' dict ctx with
  | zero => exact .of_error _ _
  | succ fuel ih =>
      obtain ⟨fuel', rfl⟩ := Nat.exists_eq_add_of_le' (show 1 ≤ fuel' by omega)
      rw [readDictLoop, readDictLoop]
      split
      · exact .refl _
      · refine .ite (.refl _) (.bind ?_ fun item => ih (by omega) _ _)
        exact bencodeReadDictItem_keeps hread hrelease _ _ _

theorem dispatch_keeps (hread : ∀ c ctx, Keeps (read c ctx) (read' c ctx)) (hle : fuel ≤ fuel')
    (c : Option Byte) (ctx : ReadCtx) :
    Keeps (dispatch read fuel c ctx) (dispatch read' fuel' c ctx) := by
  cases c with
  | none => exact .refl _
  | some byte =>
      refine .ite (.bind (readListLoop_keeps hread hle hle _ _) fun _ => .refl _) ?_
      exact .ite (.bind (readDictLoop_keeps hread hle hle _ _) fun _ => .refl _) (.refl _)

end Readers

theorem bencodeRead_keeps (hle : fuel ≤ fuel') (c : Byte) (ctx : ReadCtx) :
    Keeps (bencodeRead fuel c ctx) (bencodeRead fuel' c ctx) := by
  induction fuel generalizing fuel' c ctx with
  | zero => exact .of_error _ _
  | succ fuel ih =>
      obtain ⟨fuel', rfl⟩ := Nat.exists_eq_add_of_le' (show 1 ≤ fuel' by omega)
      have hread : ∀ c ctx, Keeps (bencodeRead fuel c ctx) (bencodeRead fuel' c ctx) :=
        fun c ctx => ih (by omega) c ctx
      exact .ite (dispatch_keeps hread (by omega) _ _) (dispatch_keeps hread (by omega) _ _)

end I2pLite.MoreFuel
