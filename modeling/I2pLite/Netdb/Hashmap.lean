import Mathlib.Data.Vector.Defs
import Mathlib.Logic.Function.Basic
import I2pLite.Core.CRun
import I2pLite.Core.CInt
import I2pLite.Core.CBytes
import I2pLite.Core.LinkedChain

/-!
# The netdb hashmap

A table of 128 anchors, each with a chain of nodes behind it.  Nodes are
numbered in the order of their allocation, and keep their number when they are
released.  A walk along a chain that takes
more steps than there are nodes has met a cycle and does not end.
-/

namespace I2pLite.Hashmap

open I2pLite.CRun
open I2pLite.CBytes
open I2pLite.CInt
open I2pLite.LinkedChain

abbrev IdentHash := List.Vector Byte 32

/-- `struct netdb_hash_node`, and whether its storage has been released. -/
structure NetdbHashNode (Ri : Type) where
  h : IdentHash
  ri : Ri
  next : Option ℕ
  released : Bool

/-- `struct netdb_hashmap`: the `next` fields of the anchors, the allocated
nodes, and their number. -/
structure NetdbHashmap (Ri : Type) where
  table : Fin 128 → Option ℕ
  nodes : List (NetdbHashNode Ri)
  sz : ℕ

/-- The `size_t` that lies in memory as these bytes. -/
def littleEndian : List Byte → ℕ
  | [] => 0
  | byte :: rest => byte.toNat + 256 * littleEndian rest

instance neZero_slots : NeZero 128 := ⟨by decide⟩

def netdbHashmapHashIdent (k : IdentHash) : Fin 128 :=
  Fin.ofNat 128 (littleEndian (k.toList.take 8))

section Map

variable {Ri : Type}

def netdbHashmapCmpIdent (node : NetdbHashNode Ri) (k : IdentHash) : Bool := node.h = k

def netdbHashmapInit : NetdbHashmap Ri := { table := fun _ => none, nodes := [], sz := 0 }

def nodeAt (nodes : List (NetdbHashNode Ri)) (index : ℕ) : Run (NetdbHashNode Ri) :=
  match nodes[index]? with
  | none => .error .outOfBounds
  | some node => if node.released then .error .useAfterFree else .ok node

/-! ## Lookup -/

/-- The loop of `netdb_hashmap_get` from a node on. -/
def getFrom (nodes : List (NetdbHashNode Ri)) (key : IdentHash) : ℕ → Option ℕ → Run (Option Ri)
  | _, none => .ok none
  | 0, some _ => .error .outOfFuel
  | fuel + 1, some index => do
      let node ← nodeAt nodes index
      if netdbHashmapCmpIdent node key then .ok (some node.ri)
      else getFrom nodes key fuel node.next

/-- The returned flag, and what is stored to `*ri`. -/
def netdbHashmapGet (map : NetdbHashmap Ri) (key : IdentHash) : Run (ℤ × Option Ri) := do
  let slot := netdbHashmapHashIdent key
  match ← getFrom map.nodes key (map.nodes.length + 1) (map.table slot) with
  | some ri => .ok (1, some ri)
  | none => .ok (0, none)

def netdbHashmapSize (map : NetdbHashmap Ri) : ℕ := map.sz

/-! ## Insertion -/

/-- A pointer to a `next` field: that of an anchor or that of a node. -/
inductive Link
  | slot (index : Fin 128)
  | next (index : ℕ)
  deriving DecidableEq

def loadLink (map : NetdbHashmap Ri) : Link → Run (Option ℕ)
  | .slot index => .ok (map.table index)
  | .next index => do
      let node ← nodeAt map.nodes index
      .ok node.next

def storeLink (map : NetdbHashmap Ri) (link : Link) (value : Option ℕ) : Run (NetdbHashmap Ri) :=
  match link with
  | .slot index => .ok { map with table := Function.update map.table index value }
  | .next index => do
      let node ← nodeAt map.nodes index
      .ok { map with nodes := map.nodes.set index { node with next := value } }

/-- The loop of `netdb_hashmap_insert`: none where it meets the hash, else the
cursors behind the last node. -/
def insertLoop (map : NetdbHashmap Ri) (h : IdentHash) :
    ℕ → Link → Option Link → Run (Option (Link × Option Link))
  | 0, _, _ => .error .outOfFuel
  | fuel + 1, node, prev => do
      match ← loadLink map node with
      | none => .ok (some (node, prev))
      | some index =>
          let here ← nodeAt map.nodes index
          if netdbHashmapCmpIdent here h then .ok none
          else insertLoop map h fuel (.next index) (some node)

/-- `if(prev) (*prev)->next = *node`. -/
def linkBehind (map : NetdbHashmap Ri) (node : Link) : Option Link → Run (NetdbHashmap Ri)
  | none => .ok map
  | some prev => do
      let last ← deref (← loadLink map prev)
      storeLink map (.next last) (← loadLink map node)

def netdbHashmapInsert (routerInfoHash : Ri → IdentHash) (map : NetdbHashmap Ri) (ri : Ri) :
    Run (ℤ × NetdbHashmap Ri) := do
  let h := routerInfoHash ri
  let slot := netdbHashmapHashIdent h
  match ← insertLoop map h (map.nodes.length + 1) (.slot slot) none with
  | none => .ok (0, map)
  | some (node, prev) =>
      let fresh := map.nodes.length
      let map := { map with
        nodes := map.nodes ++ [{ h := h, ri := ri, next := none, released := false }] }
      let map ← storeLink map node (some fresh)
      let map ← linkBehind map node prev
      .ok (1, { map with sz := map.sz + 1 })

/-! ## Removal -/

/-- The map, and what the releases of router infos have left behind. -/
structure Freeing (Ri S : Type) where
  map : NetdbHashmap Ri
  user : S

/-- The storage of a node is released. -/
def released (node : NetdbHashNode Ri) : NetdbHashNode Ri := { node with released := true }

/-- The node is released with its router info; the next node is returned. -/
def netdbHashNodeFree {S : Type} (routerInfoFree : Ri → S → Run S) (n : Option ℕ)
    (memory : Freeing Ri S) : Run (Freeing Ri S × Option ℕ) :=
  match n with
  | none => .ok (memory, none)
  | some index => do
      let node ← nodeAt memory.map.nodes index
      let user ← routerInfoFree node.ri memory.user
      .ok ({ map := { memory.map with nodes := memory.map.nodes.set index (released node) }
             user := user }, node.next)

/-- `if(prev) (*prev)->next = (*node)->next`. -/
def unlinkBehind (map : NetdbHashmap Ri) (node : Link) : Option Link → Run (NetdbHashmap Ri)
  | none => .ok map
  | some prev => do
      let last ← deref (← loadLink map prev)
      let here ← nodeAt map.nodes (← deref (← loadLink map node))
      storeLink map (.next last) here.next

/-- What the loop of `netdb_hashmap_remove` does where it has met the key. -/
def removeAt (routerInfoFree : Ri → Run Unit) (map : NetdbHashmap Ri) (node : Link)
    (prev : Option Link) : Run (ℤ × NetdbHashmap Ri) := do
  let map ← unlinkBehind map node prev
  -- the store may have changed what `*node` is
  let target ← loadLink map node
  let (memory, _) ← netdbHashNodeFree (fun ri _ => routerInfoFree ri) target
    { map := map, user := () }
  .ok (1, { memory.map with sz := toSize (memory.map.sz - 1) })

def removeLoop (routerInfoFree : Ri → Run Unit) (map : NetdbHashmap Ri) (k : IdentHash) :
    ℕ → Link → Option Link → Run (ℤ × NetdbHashmap Ri)
  | 0, _, _ => .error .outOfFuel
  | fuel + 1, node, prev => do
      match ← loadLink map node with
      | none => .ok (0, map)
      | some index =>
          let here ← nodeAt map.nodes index
          if netdbHashmapCmpIdent here k then removeAt routerInfoFree map node prev
          else removeLoop routerInfoFree map k fuel (.next index) (some node)

/-- The returned flag, and the map behind the call. -/
def netdbHashmapRemove (routerInfoFree : Ri → Run Unit) (map : NetdbHashmap Ri) (k : IdentHash) :
    Run (ℤ × NetdbHashmap Ri) :=
  removeLoop routerInfoFree map k (map.nodes.length + 1) (.slot (netdbHashmapHashIdent k)) none

/-! ## Iteration -/

variable {S : Type}

/-- The inner loop of `netdb_hashmap_for_each`. -/
def forEachNode (nodes : List (NetdbHashNode Ri)) (visit : IdentHash → Ri → S → Run S) :
    ℕ → Option ℕ → S → Run S
  | _, none, user => .ok user
  | 0, some _, _ => .error .outOfFuel
  | fuel + 1, some index, user => do
      let node ← nodeAt nodes index
      let user ← visit node.h node.ri user
      forEachNode nodes visit fuel node.next user

/-- The outer loop once `idx` is counted down to this. -/
def forEachBucket (map : NetdbHashmap Ri) (visit : IdentHash → Ri → S → Run S) :
    ℕ → S → Run S
  | 0, user => .ok user
  | idx + 1, user => do
      let user ← forEachNode map.nodes visit (map.nodes.length + 1)
        (map.table (Fin.ofNat 128 (idx + 1))) user
      forEachBucket map visit idx user

def netdbHashmapForEach (map : NetdbHashmap Ri) (visit : IdentHash → Ri → S → Run S) (user : S) :
    Run S :=
  forEachBucket map visit (128 - 1) user

end Map

end I2pLite.Hashmap
