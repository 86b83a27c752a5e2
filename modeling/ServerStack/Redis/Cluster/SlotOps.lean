import ServerStack.Redis.Cluster.Node

/-!
# The functions that move slot ownership

`clusterAddSlot`, `clusterDelSlot` and every path of `cluster.c` that calls them: the removal of a
node, the configuration update carried by a packet, the take-over of a won failover and
`CLUSTER SETSLOT NODE`.  The slaves arrays and the failure reports are left out: no slot function
reads them.
-/

namespace ServerStack.Redis.Cluster

open Function

variable (s : ClusterState) (slot : ℕ) (n : Ptr)

/-! ## One slot -/

def clusterNodeSetSlotBit (n : ClusterNode) (slot : ℕ) : ClusterNode × Bool :=
  let old := bitmapTestBit n.slots slot
  ({ n with
      slots := bitmapSetBit n.slots slot
      numslots := if old then n.numslots else n.numslots + 1 }, old)

def clusterNodeClearSlotBit (n : ClusterNode) (slot : ℕ) : ClusterNode × Bool :=
  let old := bitmapTestBit n.slots slot
  ({ n with
      slots := bitmapClearBit n.slots slot
      numslots := if old then n.numslots - 1 else n.numslots }, old)

def clusterNodeGetSlotBit (n : ClusterNode) (slot : ℕ) : Bool := bitmapTestBit n.slots slot

/-- The second component is `true` for `REDIS_OK`. -/
def clusterAddSlot (slot : ℕ) : Except Abort (ClusterState × Bool) :=
  if (s.slots slot).isSome then .ok (s, false)
  else do
    let node ← s.deref n
    let s := s.store n (clusterNodeSetSlotBit node slot).1
    return ({ s with slots := update s.slots slot (some n) }, true)

/-- The second component is `true` for `REDIS_OK`. -/
def clusterDelSlot : Except Abort (ClusterState × Bool) :=
  match s.slots slot with
  | none => .ok (s, false)
  | some n => do
    let node ← s.deref n
    if (clusterNodeClearSlotBit node slot).2 = false then .error .delSlotAssert
    else
      let s := s.store n (clusterNodeClearSlotBit node slot).1
      return ({ s with slots := update s.slots slot none }, true)

/-- Unbind a slot from its owner, if any, and bind it to `n`. -/
def rebindSlot (slot : ℕ) : Except Abort ClusterState := do
  let (s, _) ← clusterDelSlot s slot
  let (s, _) ← clusterAddSlot s n slot
  return s

/-! ## All slots -/

/-- `for (j = 0; j < REDIS_CLUSTER_SLOTS; j++)`. -/
def forSlots {σ : Type} (body : σ → ℕ → Except Abort σ) (s : σ) : Except Abort σ :=
  (List.range clusterSlots).foldlM body s

/-- The returned counter is incremented for every slot, also for those that were not deleted. -/
def clusterDelNodeSlots (node : Ptr) : Except Abort (ClusterState × ℕ) :=
  forSlots (fun (s, deleted) j => do
    let n ← s.deref node
    if clusterNodeGetSlotBit n j then
      let (s, _) ← clusterDelSlot s j
      return (s, deleted + 1)
    else return (s, deleted + 1)) (s, 0)

def clusterCloseAllSlots : ClusterState :=
  { s with migratingSlotsTo := fun _ => none, importingSlotsFrom := fun _ => none }

/-- The dereference made by `if (n->slaveof) clusterNodeRemoveSlave(n->slaveof, n)`. -/
def ClusterState.derefLink : Option Ptr → Except Abort Unit
  | none => .ok ()
  | some master => do
    let _ ← s.deref master
    return ()

/-- `clusterSetMaster`; the calls that edit a slaves array only dereference the master. -/
def clusterSetMaster : Except Abort ClusterState := do
  let me ← s.deref s.myself
  if n = s.myself ∨ me.numslots ≠ 0 then .error .setMasterAssert
  else if me.isMaster then do
    let s := clusterCloseAllSlots s
    let _ ← s.deref n
    return s.store s.myself { me with isMaster := false, isSlave := true, slaveof := some n }
  else do
    s.derefLink me.slaveof
    let _ ← s.deref n
    return s.store s.myself { me with slaveof := some n }

/-- The slot was unassigned, or its owner has a smaller configEpoch than the sender. -/
def claimIsNewer (j senderConfigEpoch : ℕ) : Except Abort Bool :=
  match s.slots j with
  | none => .ok true
  | some owner => do
    let o ← s.deref owner
    return decide (o.configEpoch < senderConfigEpoch)

/-- A slot of this node that still has keys is put in importing state when another node takes it. -/
def markImporting (sender : Ptr) (j : ℕ) (countKeysInSlot : ℕ → ℕ) : ClusterState :=
  if s.slots j = some s.myself ∧ countKeysInSlot j ≠ 0 ∧ sender ≠ s.myself then
    { s with importingSlotsFrom := update s.importingSlotsFrom j (some sender) }
  else s

/-- The body of the loop of `clusterUpdateSlotsConfigWith`; the flag is `newmaster != NULL`. -/
def updateSlotConfig (sender : Ptr) (senderConfigEpoch : ℕ) (slots : Bitmap)
    (countKeysInSlot : ℕ → ℕ) (curmaster : Option Ptr) (r : ClusterState × Bool) (j : ℕ) :
    Except Abort (ClusterState × Bool) :=
  let (s, newmaster) := r
  if bitmapTestBit slots j = false then .ok (s, newmaster)
  else if s.slots j = some sender then .ok (s, newmaster)
  else if (s.importingSlotsFrom j).isSome then .ok (s, newmaster)
  else do
    let rebind ← claimIsNewer s j senderConfigEpoch
    if rebind then
      -- two NULL pointers compare equal: a slave without a master sees every unassigned slot as
      -- taken away from its master
      let newmaster := newmaster || decide (s.slots j = curmaster)
      let s ← rebindSlot (markImporting s sender j countKeysInSlot) sender j
      return (s, newmaster)
    else return (s, newmaster)

/-- The end of `clusterUpdateSlotsConfigWith`: follow the sender when our master lost its slots. -/
def followNewMaster (curmaster : Option Ptr) (sender : Ptr) : Except Abort ClusterState :=
  match curmaster with
  | none => .error .badPointer
  | some c => do
    let cur ← s.deref c
    if cur.numslots = 0 then clusterSetMaster s sender else return s

def clusterUpdateSlotsConfigWith (sender : Ptr) (senderConfigEpoch : ℕ)
    (slots : Bitmap) (countKeysInSlot : ℕ → ℕ) : Except Abort ClusterState := do
  let me ← s.deref s.myself
  let curmaster := if me.isMaster then some s.myself else me.slaveof
  let (s, newmaster) ← forSlots
    (updateSlotConfig sender senderConfigEpoch slots countKeysInSlot curmaster) (s, false)
  if newmaster then followNewMaster s curmaster sender else return s

def takeOverSlots (oldmaster : Ptr) : Except Abort ClusterState :=
  forSlots (fun s j => do
    let om ← s.deref oldmaster
    if clusterNodeGetSlotBit om j then rebindSlot s s.myself j else return s) s

/-- The part of `clusterHandleSlaveFailover` that runs once the quorum is reached, behind the
preconditions of that function: this node is a slave whose master serves slots. -/
def clusterHandleSlaveFailoverPromote (failoverAuthEpoch : ℕ) : Except Abort ClusterState := do
  let me ← s.deref s.myself
  match me.slaveof with
  | none => return s
  | some oldmaster => do
    let om ← s.deref oldmaster
    if me.isMaster ∨ om.numslots = 0 then return s
    else
      let s := s.store s.myself { me with isMaster := true, isSlave := false, slaveof := none }
      let s ← takeOverSlots s oldmaster
      let me ← s.deref s.myself
      return s.store s.myself { me with configEpoch := failoverAuthEpoch }

/-- The greatest `configEpoch` found in the cluster. -/
def clusterGetMaxEpoch : ℕ :=
  s.nodeList.foldl (fun max p => match s.nodes p with
    | some n => if n.configEpoch > max then n.configEpoch else max
    | none => max) 0

/-- Assigning an importing slot to this node clears the importing state and takes a new epoch. -/
def closeImporting : Except Abort ClusterState :=
  if n = s.myself ∧ (s.importingSlotsFrom slot).isSome then do
    let me ← s.deref s.myself
    let s := if me.configEpoch = 0 ∨ me.configEpoch ≠ clusterGetMaxEpoch s then
      { s.store s.myself { me with configEpoch := s.currentEpoch + 1 } with
        currentEpoch := s.currentEpoch + 1 } else s
    return { s with importingSlotsFrom := update s.importingSlotsFrom slot none }
  else .ok s

/-- A migrating slot without keys leaves the migrating state when it is assigned. -/
def closeMigrating (countKeysInSlot : ℕ → ℕ) : ClusterState :=
  if countKeysInSlot slot = 0 ∧ (s.migratingSlotsTo slot).isSome then
    { s with migratingSlotsTo := update s.migratingSlotsTo slot none }
  else s

/-- `CLUSTER SETSLOT slot NODE n`; an unknown node or remaining keys are replied with an error. -/
def clusterSetslotNode (countKeysInSlot : ℕ → ℕ) : Except Abort ClusterState :=
  if (s.nodes n).isNone then .ok s
  else if s.slots slot = some s.myself ∧ n ≠ s.myself ∧ countKeysInSlot slot ≠ 0 then .ok s
  else do
    let s ← closeImporting (closeMigrating s slot countKeysInSlot) slot n
    rebindSlot s n slot

def clearMigration (delnode : Ptr) (j : ℕ) : ClusterState :=
  { s with
    importingSlotsFrom := if s.importingSlotsFrom j = some delnode then
      update s.importingSlotsFrom j none else s.importingSlotsFrom
    migratingSlotsTo := if s.migratingSlotsTo j = some delnode then
      update s.migratingSlotsTo j none else s.migratingSlotsTo }

/-- The first loop of `clusterDelNode`. -/
def unassignSlots (delnode : Ptr) : Except Abort ClusterState :=
  forSlots (fun s j =>
    if s.slots j = some delnode then do
      let (s, _) ← clusterDelSlot (clearMigration s delnode j) j
      return s
    else return clearMigration s delnode j) s

/-- `clusterDelNode` and the `freeClusterNode` it ends with. -/
def clusterDelNode (delnode : Ptr) : Except Abort ClusterState := do
  let s ← unassignSlots s delnode
  let n ← s.deref delnode
  s.derefLink n.slaveof
  return { s with
    nodes := update s.nodes delnode none
    nodeList := s.nodeList.erase delnode }

/-- `createClusterNode` followed by `clusterAddNode`, at an address that is not in use. -/
def createClusterNode (p : Ptr) (master slave : Bool) : ClusterState :=
  if (s.nodes p).isNone then
    { s with
      nodes := update s.nodes p (some
        { isMaster := master, isSlave := slave, configEpoch := 0, slots := fun _ => 0#8,
          numslots := 0, slaveof := none })
      nodeList := p :: s.nodeList }
  else s

/-- The state set up by `clusterInit` when there is no configuration file. -/
def clusterInit (me : Ptr) : ClusterState :=
  createClusterNode
    { myself := me, currentEpoch := 0, nodes := fun _ => none, nodeList := [],
      migratingSlotsTo := fun _ => none, importingSlotsFrom := fun _ => none,
      slots := fun _ => none } me true false

end ServerStack.Redis.Cluster
