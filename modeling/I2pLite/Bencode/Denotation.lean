import Mathlib.Data.List.Forall2
import I2pLite.Core.Bencoding
import I2pLite.Core.LinkedChain
import I2pLite.Bencode.Object

/-!
# What a bencode object means

An object denotes the value of a bencoding when its lists and dict chains are
finite, every dict node after the head has a key and a value, and the parts
denote the parts.
-/

namespace I2pLite.Denotation

open I2pLite.CRun
open I2pLite.CBytes
open I2pLite.LinkedChain
open I2pLite.Bencoding
open I2pLite.BencodeObject

/-- The node at `cell` carries the entry. -/
def HoldsEntry (nodes : DictStore) (cell : ℕ) (entry : CString × BencodeObj) : Prop :=
  ∃ node, nodes[cell]? = some node ∧ node.key = some entry.1 ∧ node.val = some entry.2

/-- The chain after the head of `dict` ends, and it carries `entries` in
order. -/
def DictHolds (dict : BencodeObj) (entries : List (CString × BencodeObj)) : Prop :=
  ∃ nodes head cells, dict = .dict nodes ∧ nodes[0]? = some head ∧ head.key = none ∧
    Chain (links nodes) head.next cells ∧ List.Forall₂ (HoldsEntry nodes) cells entries

mutual

def Denotes : BencodeValue → BencodeObj → Prop
  | .str data, obj => obj = .str data
  | .int value, obj => ∃ stored : Int64, obj = .integer stored ∧ stored.toInt = value
  | .list items, obj => ∃ vals, obj = .list (vals ++ [.null]) ∧ DenotesItems items vals
  | .dict entries, obj => ∃ held, DictHolds obj held ∧ DenotesEntries entries held

def DenotesItems : List BencodeValue → List (ObjPtr BencodeObj) → Prop
  | [], vals => vals = []
  | item :: items, vals => ∃ obj rest, vals = .live obj :: rest ∧ Denotes item obj ∧
      DenotesItems items rest

def DenotesEntries : List (List Byte × BencodeValue) → List (CString × BencodeObj) → Prop
  | [], held => held = []
  | (key, value) :: entries, held => ∃ name obj rest, held = (name, obj) :: rest ∧
      name.bytes = key ∧ Denotes value obj ∧ DenotesEntries entries rest

end

theorem DenotesEntries.length_eq {entries : List (List Byte × BencodeValue)}
    {held : List (CString × BencodeObj)} (hheld : DenotesEntries entries held) :
    held.length = entries.length := by
  induction entries generalizing held with
  | nil => simp [show held = [] from hheld]
  | cons entry entries ih =>
      obtain ⟨_, _, rest, rfl, _, _, hrest⟩ := hheld
      simp [ih hrest]

/-- Two objects are structurally equal when they denote the same value. -/
def SameObj (left right : BencodeObj) : Prop :=
  ∃ value, Denotes value left ∧ Denotes value right

section Related

variable {A B : Type} {related : A → B → Prop} {left : List A} {right : List B}

/-- Related lists have related members. -/
theorem exists_left_of_mem (hrelated : List.Forall₂ related left right) {value : B}
    (hvalue : value ∈ right) : ∃ other ∈ left, related other value := by
  induction hrelated with
  | nil => simp at hvalue
  | cons hhead _ ih =>
      rcases List.mem_cons.mp hvalue with rfl | hvalue
      · exact ⟨_, by simp, hhead⟩
      · obtain ⟨other, hother, hsame⟩ := ih hvalue
        exact ⟨other, List.mem_cons_of_mem _ hother, hsame⟩

theorem exists_right_of_mem (hrelated : List.Forall₂ related left right) {value : A}
    (hvalue : value ∈ left) : ∃ other ∈ right, related value other :=
  exists_left_of_mem hrelated.flip hvalue

end Related

/-! ## Walking a dict -/

section Walk

variable {S : Type} {nodes : DictStore} {visit : CString → BencodeObj → S → Run S}
variable {user user' : S} {fuel : ℕ}

@[simp]
theorem iterDictFrom_none : iterDictFrom nodes visit fuel none user = .ok user := by
  cases fuel <;> rfl

/-- The head carries no entry, so the callback does not meet it. -/
theorem iterDictFrom_head {head : DictNode BencodeObj} (hhead : nodes[0]? = some head)
    (hkey : head.key = none) :
    iterDictFrom nodes visit (fuel + 1) (some 0) user =
      iterDictFrom nodes visit fuel head.next user := by
  simp [iterDictFrom, nodeAt, hhead, hkey]

theorem iterDictFrom_entry {cell : ℕ} {next : Option ℕ} {entry : CString × BencodeObj}
    (hentry : HoldsEntry nodes cell entry) (hlink : links nodes cell = some next) :
    iterDictFrom nodes visit (fuel + 1) (some cell) user =
      visit entry.1 entry.2 user >>= iterDictFrom nodes visit fuel next := by
  obtain ⟨node, hnode, hkey, hval⟩ := hentry
  simp only [links, hnode, Option.map_some, Option.some.injEq] at hlink
  simp [iterDictFrom, nodeAt, hnode, hkey, hval, hlink]

/-- With a turn for every cell, the walk visits the entries in order. -/
theorem iterDictFrom_chain {start : Option ℕ} {cells : List ℕ}
    {entries : List (CString × BencodeObj)} (hchain : Chain (links nodes) start cells)
    (hentries : List.Forall₂ (HoldsEntry nodes) cells entries) (hfuel : cells.length ≤ fuel) :
    iterDictFrom nodes visit fuel start user =
      entries.foldlM (fun user entry => visit entry.1 entry.2 user) user := by
  induction hentries generalizing start fuel user with
  | nil =>
      simp [segment_nil_iff.mp hchain]
  | @cons cell entry cells entries hentry _ ih =>
      obtain ⟨hstart, next, hlink, hcells⟩ := segment_cons_iff.mp hchain
      cases fuel with
      | zero => simp at hfuel
      | succ fuel =>
          rw [hstart, iterDictFrom_entry hentry hlink, List.foldlM_cons]
          congr 1
          funext user
          exact ih hcells (by simpa using hfuel)

/-- A walk that returns has visited the entries in order, whatever its fuel. -/
theorem foldlM_of_iterDictFrom {start : Option ℕ} {cells : List ℕ}
    {entries : List (CString × BencodeObj)} (hchain : Chain (links nodes) start cells)
    (hentries : List.Forall₂ (HoldsEntry nodes) cells entries)
    (hwalk : iterDictFrom nodes visit fuel start user = .ok user') :
    entries.foldlM (fun user entry => visit entry.1 entry.2 user) user = .ok user' := by
  induction hentries generalizing start fuel user with
  | nil =>
      simpa [segment_nil_iff.mp hchain] using hwalk
  | @cons cell entry cells entries hentry _ ih =>
      obtain ⟨hstart, next, hlink, hcells⟩ := segment_cons_iff.mp hchain
      cases fuel with
      | zero => simp [hstart, iterDictFrom] at hwalk
      | succ fuel =>
          rw [hstart, iterDictFrom_entry hentry hlink, bind_eq_ok] at hwalk
          obtain ⟨middle, hvisit, hrest⟩ := hwalk
          rw [List.foldlM_cons, bind_eq_ok]
          exact ⟨middle, hvisit, ih hcells hrest⟩

theorem bencodeObjIterDict_holds {dict : BencodeObj} {entries : List (CString × BencodeObj)}
    (hholds : DictHolds dict entries) (hfuel : entries.length < fuel) :
    bencodeObjIterDict fuel dict visit user =
      entries.foldlM (fun user entry => visit entry.1 entry.2 user) user := by
  obtain ⟨nodes, head, cells, rfl, hhead, hkey, hchain, hentries⟩ := hholds
  have hlength := hentries.length_eq
  cases fuel with
  | zero => simp at hfuel
  | succ fuel =>
      rw [bencodeObjIterDict, iterDictFrom_head hhead hkey]
      exact iterDictFrom_chain hchain hentries (by omega)

theorem foldlM_of_bencodeObjIterDict {dict : BencodeObj}
    {entries : List (CString × BencodeObj)} (hholds : DictHolds dict entries)
    (hwalk : bencodeObjIterDict fuel dict visit user = .ok user') :
    entries.foldlM (fun user entry => visit entry.1 entry.2 user) user = .ok user' := by
  obtain ⟨nodes, head, cells, rfl, hhead, hkey, hchain, hentries⟩ := hholds
  cases fuel with
  | zero => simp [bencodeObjIterDict, iterDictFrom] at hwalk
  | succ fuel =>
      rw [bencodeObjIterDict, iterDictFrom_head hhead hkey] at hwalk
      exact foldlM_of_iterDictFrom hchain hentries hwalk

/-! ### What a walk keeps -/

section Kept

variable {kept : S → Prop} {obj : BencodeObj}

/-- What every call of the visitor keeps, the walk keeps, on any object. -/
theorem bencodeObjIterDict_invariant
    (hvisit : ∀ key val before after, kept before → visit key val before = .ok after → kept after)
    (hwalk : bencodeObjIterDict fuel obj visit user = .ok user') (huser : kept user) :
    kept user' := by
  cases obj with
  | list vals => exact Except.ok.inj hwalk ▸ huser
  | str data => exact Except.ok.inj hwalk ▸ huser
  | integer value => exact Except.ok.inj hwalk ▸ huser
  | dict nodes =>
      rw [bencodeObjIterDict] at hwalk
      generalize some 0 = start at hwalk
      induction fuel generalizing start user with
      | zero =>
          cases start with
          | none => exact Except.ok.inj hwalk ▸ huser
          | some index => cases hwalk
      | succ fuel ih =>
          cases start with
          | none => exact Except.ok.inj hwalk ▸ huser
          | some index =>
              obtain ⟨node, _, hnode⟩ := bind_eq_ok.mp hwalk
              dsimp only at hnode
              split at hnode
              · obtain ⟨middle, hmiddle, hrest⟩ := bind_eq_ok.mp hnode
                exact ih (hvisit _ _ _ _ huser hmiddle) node.next hrest
              · exact ih huser node.next hnode

theorem bencodeObjIterList_invariant {visit : ObjPtr BencodeObj → S → Run S}
    (hvisit : ∀ val before after, kept before → visit val before = .ok after → kept after)
    (hwalk : bencodeObjIterList obj visit user = .ok user') (huser : kept user) : kept user' := by
  cases obj with
  | dict nodes => exact Except.ok.inj hwalk ▸ huser
  | str data => exact Except.ok.inj hwalk ▸ huser
  | integer value => exact Except.ok.inj hwalk ▸ huser
  | list vals => exact foldlM_invariant (fun val _ => hvisit val) hwalk huser

end Kept

end Walk

end I2pLite.Denotation
