import Mathlib.Data.Int.Notation
import Mathlib.Logic.Function.Basic
import I2pLite.Core.CRun

/-!
# The hashmap of a tunnel context

A table of 256 nodes that stay unused but for their `next` fields, each with a
chain of allocated nodes behind it.  These are numbered in the order of their
allocation.
-/

namespace I2pLite.TunnelContext

open I2pLite.CRun

abbrev TunnelId := UInt32

/-- `struct mnet_garlic_tc_hashnode`. -/
structure TcHashnode (Tunnel : Type) where
  tid : TunnelId
  tunnel : Option Tunnel
  next : Option ℕ

/-- `struct mnet_garlic_tc_hashmap`, and the nodes that have been allocated; the
`sz` field is not used. -/
structure TcHashmap (Tunnel : Type) where
  nodes : Fin 256 → TcHashnode Tunnel
  allocated : List (TcHashnode Tunnel)

def tcHashnodeHash (tid : TunnelId) : Fin 256 := Fin.ofNat 256 tid.toNat

section Map

variable {Tunnel : Type}

/-- Allocated storage is zero. -/
def tcHashmapInit : TcHashmap Tunnel where
  nodes := fun _ => { tid := 0, tunnel := none, next := none }
  allocated := []

/-- A pointer to a node of the table or to an allocated one. -/
inductive NodePointer
  | head (slot : Fin 256)
  | node (index : ℕ)

def nodeAt (allocated : List (TcHashnode Tunnel)) (index : ℕ) : Run (TcHashnode Tunnel) :=
  match allocated[index]? with
  | none => .error .outOfBounds
  | some node => .ok node

def loadNode (map : TcHashmap Tunnel) : NodePointer → Run (TcHashnode Tunnel)
  | .head slot => .ok (map.nodes slot)
  | .node index => nodeAt map.allocated index

def storeNext (map : TcHashmap Tunnel) (pointer : NodePointer) (next : Option ℕ) :
    Run (TcHashmap Tunnel) :=
  match pointer with
  | .head slot =>
      .ok { map with nodes := Function.update map.nodes slot { map.nodes slot with next := next } }
  | .node index => do
      let node ← nodeAt map.allocated index
      .ok { map with allocated := map.allocated.set index { node with next := next } }

/-- The loop of `mnet_garlic_tc_hashmap_get` from a node on. -/
def getFrom (allocated : List (TcHashnode Tunnel)) (tid : TunnelId) :
    ℕ → Option ℕ → Run (Option (TcHashnode Tunnel))
  | _, none => .ok none
  | 0, some _ => .error .outOfFuel
  | fuel + 1, some index => do
      let node ← nodeAt allocated index
      if node.tid = tid then .ok (some node)
      else getFrom allocated tid fuel node.next

/-- The returned flag, and what is stored to `*tunnel`. -/
def tcHashmapGet (map : TcHashmap Tunnel) (tid : TunnelId) : Run (ℤ × Option Tunnel) := do
  let slot := tcHashnodeHash tid
  match ← getFrom map.allocated tid map.allocated.length (map.nodes slot).next with
  | some node => .ok (1, node.tunnel)
  | none => .ok (0, none)

/-- The loop of `mnet_garlic_tc_hashmap_put`: none where it meets the id, else
the node that it ends at. -/
def putLoop (map : TcHashmap Tunnel) (tid : TunnelId) : ℕ → NodePointer → Run (Option NodePointer)
  | 0, _ => .error .outOfFuel
  | fuel + 1, node => do
      let here ← loadNode map node
      match here.next with
      | none => .ok (some node)
      | some next =>
          if here.tid = tid then .ok none
          else putLoop map tid fuel (.node next)

def tcHashmapPut (map : TcHashmap Tunnel) (tid : TunnelId) (tunnel : Option Tunnel) :
    Run (ℤ × TcHashmap Tunnel) := do
  let slot := tcHashnodeHash tid
  match ← putLoop map tid (map.allocated.length + 1) (.head slot) with
  | none => .ok (0, map)
  | some node =>
      let fresh := { tid := tid, tunnel := tunnel, next := none }
      let map' ← storeNext { map with allocated := map.allocated ++ [fresh] } node
        (some map.allocated.length)
      .ok (1, map')

/-- The loop of `mnet_garlic_tc_hashmap_remove`. -/
def removeFrom (allocated : List (TcHashnode Tunnel)) (tid : TunnelId) : ℕ → Option ℕ → Run Unit
  | _, none => .ok ()
  | 0, some _ => .error .outOfFuel
  | fuel + 1, some index => do
      let node ← nodeAt allocated index
      -- nothing is done for a node with the id
      removeFrom allocated tid fuel node.next

def tcHashmapRemove (map : TcHashmap Tunnel) (tid : TunnelId) : Run (ℤ × TcHashmap Tunnel) := do
  let slot := tcHashnodeHash tid
  removeFrom map.allocated tid map.allocated.length (map.nodes slot).next
  .ok (0, map)

end Map

end I2pLite.TunnelContext
