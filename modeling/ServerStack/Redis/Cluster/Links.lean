import ServerStack.Lib.Buffer
import ServerStack.Lib.Outcome

/-!
# Links between masters and slaves

The functions of `cluster.c` that edit the two ends of the relation between a master and its slaves:
the `slaveof` pointer of the slave and the array `slaves` of the master.  Slots are left out; the
one assertion on them takes the number of slots as an argument.
-/

namespace ServerStack.Redis.Cluster.Links

open Endian Outcome

/-- The address of a `clusterNode`. -/
abbrev Address := UInt64

/-- The fields of `clusterNode` that the links use.  The array `slaves` has `numslaves`
elements. -/
structure Node where
  /-- `flags & REDIS_NODE_MASTER`. -/
  isMaster : Bool
  /-- `flags & REDIS_NODE_SLAVE`. -/
  isSlave : Bool
  slaves : List Address
  slaveof : Option Address
  deriving DecidableEq, Repr

/-- The node table and `myself`.  A node that is not in the table has been freed. -/
structure State where
  myself : Address
  nodes : Address → Option Node

inductive Fault where
  /-- A node that is not in the table is dereferenced. -/
  | badPointer
  /-- This node itself has been deleted. -/
  | noMyself
  /-- One of the two assertions that open `clusterSetMaster`. -/
  | setMasterAssert
  /-- An access outside of an array of slaves. -/
  | outOfBounds
  deriving DecidableEq, Repr

variable (s : State) (p : Address)

namespace State

def deref : Except Fault Node :=
  match s.nodes p with
  | some node => .ok node
  | none => .error .badPointer

def derefMyself : Except Fault Node :=
  match s.nodes s.myself with
  | some node => .ok node
  | none => .error .noMyself

def store (node : Node) : State :=
  { s with nodes := Function.update s.nodes p (some node) }

end State

/-- `clusterLookupNode`; the name of a node is its address in the table. -/
def clusterLookupNode (name : Address) : Option Address :=
  if (s.nodes name).isSome then some name else none

/-! ## The array of slaves -/

def arrayBytes (slaves : List Address) : List UInt8 :=
  slaves.flatMap fun p => littleEndian 8 p.toNat

/-- The first `n` pointers of an array. -/
def ofArrayBytes : ℕ → List UInt8 → List Address
  | 0, _ => []
  | n + 1, bytes => UInt64.ofNat (ofLittleEndian (bytes.take 8)) :: ofArrayBytes n (bytes.drop 8)

/-- `memmove(slaves+dst, slaves+src, n)`: the offsets count pointers, the length counts bytes. -/
def memmoveSlaves (slaves : List Address) (dst src n : ℕ) : Except Fault (List Address) :=
  match Buffer.memmove (arrayBytes slaves) (8 * dst) (8 * src) n with
  | .ok bytes => .ok (ofArrayBytes slaves.length bytes)
  | .error .outOfBounds => .error .outOfBounds

/-- `clusterNodeRemoveSlave`; the result is true for `REDIS_OK`. -/
def clusterNodeRemoveSlave (master slave : Address) : Except Fault (State × Bool) := do
  let node ← s.deref master
  match node.slaves.idxOf? slave with
  | none => return (s, false)
  | some j =>
    let slaves ← memmoveSlaves node.slaves j (j + 1) (node.slaves.length - 1 - j)
    return (s.store master { node with slaves := slaves.dropLast }, true)

def clusterNodeAddSlave (master slave : Address) : Except Fault (State × Bool) := do
  let node ← s.deref master
  if slave ∈ node.slaves then return (s, false)
  else return (s.store master { node with slaves := node.slaves ++ [slave] }, true)

/-- `if (n->slaveof) clusterNodeRemoveSlave(n->slaveof,n)`. -/
def removeFromMaster (slaveof : Option Address) : Except Fault State :=
  match slaveof with
  | none => .ok s
  | some master => do
    let (s, _) ← clusterNodeRemoveSlave s master p
    return s

/-! ## Changes of role -/

def clusterSetNodeAsMaster : Except Fault State := do
  let node ← s.deref p
  if node.isMaster then return s
  else do
    let s ← removeFromMaster s p node.slaveof
    let node ← s.deref p
    return s.store p { node with isSlave := false, isMaster := true, slaveof := none }

/-- The first half of `clusterSetMaster`: this node becomes a slave, or leaves its master. -/
def leaveMaster (node : Node) : Except Fault State :=
  if node.isMaster then .ok (s.store s.myself { node with isMaster := false, isSlave := true })
  else removeFromMaster s s.myself node.slaveof

/-- `clusterSetMaster`, where `numslots` is the number of slots of this node. -/
def clusterSetMaster (numslots : ℕ) : Except Fault State :=
  if p = s.myself ∨ numslots ≠ 0 then .error .setMasterAssert
  else do
    let node ← s.derefMyself
    let s ← leaveMaster s node
    let node ← s.derefMyself
    let s := s.store s.myself { node with slaveof := some p }
    let (s, _) ← clusterNodeAddSlave s p s.myself
    return s

/-- A master that turns into a slave: the flags, and `clusterNodeResetSlaves`. -/
def demote (node : Node) : State :=
  if node.isMaster then s.store p { node with isMaster := false, isSlave := true, slaves := [] }
  else s

def changeMaster (sender master : Address) : Except Fault State := do
  let node ← s.deref sender
  if node.slaveof = some master then return s
  else do
    let s ← removeFromMaster s sender node.slaveof
    let (s, _) ← clusterNodeAddSlave s master sender
    let node ← s.deref sender
    return s.store sender { node with slaveof := some master }

/-- The check for a role switch of `clusterProcessPacket`; `slaveof` is the name in the header, or
`none` for the null name. -/
def checkRoleSwitch (sender : Address) (slaveof : Option Address) : Except Fault State :=
  match slaveof with
  | none => clusterSetNodeAsMaster s sender
  | some name => do
    let master := clusterLookupNode s name
    let node ← s.deref sender
    let s := demote s sender node
    match master with
    | none => return s
    | some master => changeMaster s sender master

/-- The promotion of this node in `clusterHandleSlaveFailover`. -/
def promoteMyself : Except Fault State := do
  let node ← s.derefMyself
  match node.slaveof with
  | none => return s
  | some master => do
    let (s, _) ← clusterNodeRemoveSlave s master s.myself
    let node ← s.derefMyself
    return s.store s.myself { node with isSlave := false, isMaster := true, slaveof := none }

/-! ## Creation and deletion -/

def freeClusterNode : Except Fault State := do
  let node ← s.deref p
  let s ← removeFromMaster s p node.slaveof
  return { s with nodes := Function.update s.nodes p none }

def clusterDelNode : Except Fault State := do
  let node ← s.deref p
  let s ← removeFromMaster s p (if node.isSlave then node.slaveof else none)
  freeClusterNode s p

/-- `createClusterNode` and `clusterAddNode`, at an address that is free. -/
def createNode (isMaster isSlave : Bool) : State :=
  if (s.nodes p).isSome then s else s.store p ⟨isMaster, isSlave, [], none⟩

/-- The line of `clusterLoadConfig` that sets the master of a node. -/
def loadSlaveof (p master : Address) : Except Fault State := do
  let node ← s.deref p
  let s := s.store p { node with slaveof := some master }
  let (s, _) ← clusterNodeAddSlave s master p
  return s

/-! ## Runs -/

inductive Op where
  | createNode (p : Address) (isMaster isSlave : Bool)
  | loadSlaveof (p master : Address)
  | setMaster (p : Address) (numslots : ℕ)
  | setNodeAsMaster (p : Address)
  | packet (sender : Address) (slaveof : Option Address)
  | promoteMyself
  | delNode (p : Address)

/-- Perform an operation; the callers look the node up and do nothing if it is not there. -/
def step : Op → Except Fault State
  | .createNode p isMaster isSlave => .ok (createNode s p isMaster isSlave)
  | .loadSlaveof p master =>
    if (clusterLookupNode s p).isSome ∧ (clusterLookupNode s master).isSome then
      loadSlaveof s p master
    else .ok s
  | .setMaster p numslots =>
    if (clusterLookupNode s p).isSome then clusterSetMaster s p numslots else .ok s
  | .setNodeAsMaster p =>
    if (clusterLookupNode s p).isSome then clusterSetNodeAsMaster s p else .ok s
  | .packet sender slaveof =>
    if (clusterLookupNode s sender).isSome then checkRoleSwitch s sender slaveof else .ok s
  | .promoteMyself => Links.promoteMyself s
  | .delNode p => if (clusterLookupNode s p).isSome then clusterDelNode s p else .ok s

end ServerStack.Redis.Cluster.Links
