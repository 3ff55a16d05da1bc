import I2pLite.Core.CRun
import I2pLite.Core.CBytes

/-!
# Bencode objects in memory

The objects of `bencode.c` and the operations that build, copy and release
them.  A dict keeps its nodes in a store of its own: a link is the index of a
node, and node 0 is the head, which carries no entry.  A list is the sequence
of its nodes' value pointers; the last node is the zeroed one that
`bencode_obj_list_append` fills next.

An object has one owner.  The one alias the code makes, a list node that still
points at an item its caller has released, is the value `freed`.
-/

namespace I2pLite.BencodeObject

open I2pLite.CRun
open I2pLite.CBytes

/-- A `bencode_obj_t`: null, or pointing at an object, or left pointing at one
that has been released. -/
inductive ObjPtr (Obj : Type)
  | null
  | freed
  | live (obj : Obj)

/-- `struct bencode_dict_node`. -/
structure DictNode (Obj : Type) where
  key : Option CString := none
  val : Option Obj := none
  next : Option ℕ := none

/-- `struct bencode_obj`: exactly one of its four pointers is set. -/
inductive BencodeObj
  | list (vals : List (ObjPtr BencodeObj))
  | dict (nodes : List (DictNode BencodeObj))
  | str (data : List Byte)
  | integer (value : Int64)

abbrev DictStore := List (DictNode BencodeObj)

def nodeAt (nodes : DictStore) (index : ℕ) : Run (DictNode BencodeObj) :=
  match nodes[index]? with
  | none => .error .outOfBounds
  | some node => .ok node

/-- The links of a store, as a linked chain sees them. -/
def links (nodes : DictStore) (index : ℕ) : Option (Option ℕ) :=
  nodes[index]?.map DictNode.next

/-- The pointer `o->dict`, followed. -/
def dictOf : BencodeObj → Run DictStore
  | .dict nodes => .ok nodes
  | _ => .error .nullDeref

/-- The object behind a list node's value pointer. -/
def objOf : ObjPtr BencodeObj → Run BencodeObj
  | .null => .error .nullDeref
  | .freed => .error .useAfterFree
  | .live obj => .ok obj

def bencodeObjDict : BencodeObj := .dict [{}]

def bencodeObjStr (data : List Byte) : BencodeObj := .str data

def bencodeObjInt (value : Int64) : BencodeObj := .integer value

def bencodeObjList : BencodeObj := .list [.null]

/-- The size of a string object, or `none` for the -1 of any other object. -/
def bencodeObjGetstr : BencodeObj → Option (List Byte)
  | .str data => some data
  | _ => none

def bencodeObjGetint : BencodeObj → Option Int64
  | .integer value => some value
  | _ => none

def bencodeObjIsDict : BencodeObj → Bool
  | .dict _ => true
  | _ => false

def bencodeObjIsList : BencodeObj → Bool
  | .list _ => true
  | _ => false

section Iteration

variable {S : Type}

/-- The loop of `bencode_obj_iter_dict` from a node on. -/
def iterDictFrom (nodes : DictStore) (visit : CString → BencodeObj → S → Run S) :
    ℕ → Option ℕ → S → Run S
  | _, none, user => .ok user
  | 0, some _, _ => .error .outOfFuel
  | fuel + 1, some index, user => do
      let node ← nodeAt nodes index
      let user ← match node.key, node.val with
        | some key, some val => visit key val user
        | _, _ => .ok user
      iterDictFrom nodes visit fuel node.next user

def bencodeObjIterDict (fuel : ℕ) (obj : BencodeObj)
    (visit : CString → BencodeObj → S → Run S) (user : S) : Run S :=
  match obj with
  | .dict nodes => iterDictFrom nodes visit fuel (some 0) user
  | _ => .ok user

/-- The callback also meets the last node, whose value is null. -/
def bencodeObjIterList (obj : BencodeObj) (visit : ObjPtr BencodeObj → S → Run S)
    (user : S) : Run S :=
  match obj with
  | .list vals => vals.foldlM (fun user val => visit val user) user
  | _ => .ok user

end Iteration

/-- The last node gets the value, and a zeroed node is linked after it. -/
def bencodeObjListAppend (obj : BencodeObj) (val : ObjPtr BencodeObj) : Run BencodeObj :=
  match obj with
  | .list vals => .ok (.list (vals.dropLast ++ [val, .null]))
  | _ => .error .nullDeref

/-- The loop of `bencode_obj_dict_set`, with its two cursors. -/
def dictSetLoop (nodes : DictStore) (key : Option CString) :
    ℕ → Option ℕ → Option ℕ → Run (Option ℕ × Option ℕ)
  | _, curr, none => .ok (curr, none)
  | 0, _, some _ => .error .outOfFuel
  | fuel + 1, curr, some next => do
      let nextKey ← deref (← nodeAt nodes next).key
      if strcmp nextKey (← deref key) > 0 then
        .ok (curr, some next)
      else
        -- `next = curr->next; curr = curr->next;` loads the same link twice
        let currNode ← nodeAt nodes (← deref curr)
        dictSetLoop nodes key fuel currNode.next currNode.next

/-- `bencode_obj_dict_set`, given what `bencode_obj_clone` does. -/
def dictSetWith (clone : BencodeObj → Run BencodeObj) (fuel : ℕ) (dict : BencodeObj)
    (key : Option CString) (val : BencodeObj) : Run BencodeObj := do
  let val ← clone val
  let nodes ← dictOf dict
  let head ← nodeAt nodes 0
  let (curr, next) ← dictSetLoop nodes key fuel (some 0) head.next
  let key ← deref key
  let curr ← deref curr
  let currNode ← nodeAt nodes curr
  let nodes' := nodes.set curr { currNode with next := some nodes.length }
  .ok (.dict (nodes' ++ [{ key := some key, val := some val, next := next }]))

def bencodeObjClone : ℕ → BencodeObj → Run BencodeObj
  | 0, _ => .error .outOfFuel
  | fuel + 1, .list vals =>
      bencodeObjIterList (.list vals)
        (fun val copy => do
          let valClone ← bencodeObjClone fuel (← objOf val)
          bencodeObjListAppend copy (.live valClone))
        bencodeObjList
  | fuel + 1, .dict nodes =>
      bencodeObjIterDict fuel (.dict nodes)
        (fun key val copy => do
          let valClone ← bencodeObjClone fuel val
          dictSetWith (bencodeObjClone fuel) fuel copy (some key) valClone)
        bencodeObjDict
  | _ + 1, .integer value => .ok (bencodeObjInt value)
  | _ + 1, .str data => .ok (bencodeObjStr data)

def bencodeObjDictSet (fuel : ℕ) (dict : BencodeObj) (key : Option CString)
    (val : BencodeObj) : Run BencodeObj :=
  dictSetWith (bencodeObjClone fuel) fuel dict key val

/-- A null pointer is left alone. -/
def freeIfSet (free : BencodeObj → Run Unit) : Option BencodeObj → Run Unit
  | none => .ok ()
  | some obj => free obj

/-- The dict loop of `bencode_obj_free`.  A node met a second time has had its
key released already. -/
def freeDictFrom (free : BencodeObj → Run Unit) (nodes : DictStore) :
    ℕ → List ℕ → Option ℕ → Run Unit
  | _, _, none => .ok ()
  | 0, _, some _ => .error .outOfFuel
  | fuel + 1, released, some index => do
      let node ← nodeAt nodes index
      if index ∈ released then .error .useAfterFree
      else do
        freeIfSet free node.val
        freeDictFrom free nodes fuel (index :: released) node.next

def bencodeObjFree : ℕ → BencodeObj → Run Unit
  | 0, _ => .error .outOfFuel
  | fuel + 1, .list vals => vals.forM fun val =>
      match val with
      | .null => .ok ()
      | val => do bencodeObjFree fuel (← objOf val)
  | fuel + 1, .dict nodes => freeDictFrom (bencodeObjFree fuel) nodes fuel [] (some 0)
  | _ + 1, .integer _ => .ok ()
  | _ + 1, .str _ => .ok ()

/-- The objects that the constructors of the API and its two updates can
build.  The item of an appended node may since have been released. -/
inductive Built : BencodeObj → Prop
  | str (data : List Byte) : Built (bencodeObjStr data)
  | int (value : Int64) : Built (bencodeObjInt value)
  | list : Built bencodeObjList
  | dict : Built bencodeObjDict
  | append {obj item obj' : BencodeObj} : Built obj → Built item →
      bencodeObjListAppend obj (.live item) = .ok obj' → Built obj'
  | appendReleased {obj obj' : BencodeObj} : Built obj →
      bencodeObjListAppend obj .freed = .ok obj' → Built obj'
  | set {fuel : ℕ} {key : CString} {obj val obj' : BencodeObj} : Built obj → Built val →
      bencodeObjDictSet fuel obj (some key) val = .ok obj' → Built obj'

end I2pLite.BencodeObject
