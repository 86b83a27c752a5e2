import ServerStack.Redis.Cluster.Node

/-!
# Slave elections

The election part of `cluster.c`: `clusterHandleSlaveFailover` at a slave,
`clusterSendFailoverAuthIfNeeded` at a master, and the processing of the message headers.  What a
function reads of the local clock, of the configuration and of the local picture of other nodes is
the argument `view` of each step and is arbitrary.  The masters that own slots are a fixed set, and
`server.cluster->size` is its size.
-/

namespace ServerStack.Redis.Cluster.Election

variable {ι : Type}

/-- The fields of `server.cluster` and of `myself` that elections change, for one server. -/
structure Node (ι : Type) where
  currentEpoch : ℕ
  lastVoteEpoch : ℕ
  failoverAuthTime : ℤ
  failoverAuthCount : ℕ
  failoverAuthSent : Bool
  failoverAuthRank : ℕ
  failoverAuthEpoch : ℕ
  /-- The slave won an election and turned itself into a master. -/
  promoted : Bool
  configEpoch : ℕ
  /-- `voted_time` of the masters that the node knows. -/
  votedTime : ι → ℤ

inductive MsgType where
  /-- `CLUSTERMSG_TYPE_FAILOVER_AUTH_REQUEST`. -/
  | authRequest
  /-- `CLUSTERMSG_TYPE_FAILOVER_AUTH_ACK`. -/
  | authAck
  /-- A message of which only the header matters here. -/
  | other
  deriving DecidableEq, Repr

/-- The fields of `clusterMsg` that elections read. -/
structure Msg (ι : Type) where
  type : MsgType
  sender : ι
  receiver : ι
  currentEpoch : ℕ
  configEpoch : ℕ
  myslots : Bitmap
  /-- `mflags[0] & CLUSTERMSG_FLAG0_FORCEACK`. -/
  forceAck : Bool

/-! ## The slave -/

/-- What `myself->slaveof` points to. -/
structure MasterView where
  failed : Bool
  numslots : ℕ
  configEpoch : ℕ
  slots : Bitmap

/-- What `clusterHandleSlaveFailover` reads and does not change. -/
structure FailoverView (ι : Type) where
  /-- `mstime()`. -/
  mstime : ℤ
  random : ℕ
  clusterNodeTimeout : ℤ
  mfEnd : ℤ
  mfCanStart : Bool
  slaveof : Option MasterView
  replConnected : Bool
  unixtime : ℤ
  lastinteraction : ℤ
  replDownSince : ℤ
  replPingSlavePeriod : ℤ
  /-- `replicationGetSlaveOffset()`. -/
  myoffset : ℤ
  /-- The offsets of the other slaves of the master. -/
  slaveOffsets : List ℤ
  /-- The nodes reached by a broadcast. -/
  peers : List ι
  /-- The nodes reached by a broadcast to the slaves of the same master. -/
  localSlaves : List ι

/-- `REDIS_CLUSTER_SLAVE_VALIDITY_MULT`. -/
def slaveValidityMult : ℤ := 10

section

variable (view : FailoverView ι)

def authTimeout : ℤ :=
  if view.clusterNodeTimeout * 2 < 2000 then 2000 else view.clusterNodeTimeout * 2

def dataAge : ℤ :=
  let age := if view.replConnected then (view.unixtime - view.lastinteraction) * 1000
    else (view.unixtime - view.replDownSince) * 1000
  if age > view.clusterNodeTimeout then age - view.clusterNodeTimeout else age

def clusterGetSlaveRank : ℕ :=
  view.slaveOffsets.countP fun offset => decide (offset > view.myoffset)

end

def failoverMaster (isMaster : Bool) (view : FailoverView ι) : Option MasterView :=
  let manualFailover := view.mfEnd ≠ 0 ∧ view.mfCanStart = true
  match view.slaveof with
  | none => none
  | some master =>
    if isMaster = true ∨ (master.failed = false ∧ ¬ manualFailover) ∨ master.numslots = 0 then none
    else if dataAge view > view.replPingSlavePeriod * 1000 +
        view.clusterNodeTimeout * slaveValidityMult then none
    else some master

/-- `clusterBuildMessageHdr` of a slave, which sends its master's slots and configEpoch. -/
def slaveHeader (me : ι) (n : Node ι) (master : MasterView) (type : MsgType) (receiver : ι) :
    Msg ι :=
  { type := type, sender := me, receiver := receiver, currentEpoch := n.currentEpoch,
    configEpoch := master.configEpoch, myslots := master.slots, forceAck := false }

/-- The previous attempt timed out: set up a new one. -/
def scheduleElection (view : FailoverView ι) (n : Node ι) : Node ι :=
  let rank := clusterGetSlaveRank view
  { n with
    failoverAuthTime := if view.mfEnd ≠ 0 then view.mstime
      else view.mstime + 500 + view.random % 500 + rank * 1000
    failoverAuthCount := 0
    failoverAuthSent := false
    failoverAuthRank := if view.mfEnd ≠ 0 then 0 else rank }

def updateRank (view : FailoverView ι) (n : Node ι) : Node ι :=
  let newrank := clusterGetSlaveRank view
  if n.failoverAuthSent = false ∧ view.mfEnd = 0 ∧ newrank > n.failoverAuthRank then
    { n with
      failoverAuthTime := n.failoverAuthTime + (newrank - n.failoverAuthRank : ℤ) * 1000
      failoverAuthRank := newrank }
  else n

def startElection (n : Node ι) : Node ι :=
  { n with
    currentEpoch := n.currentEpoch + 1
    failoverAuthEpoch := n.currentEpoch + 1
    failoverAuthSent := true }

structure Effect (ι : Type) where
  node : Node ι
  sent : List (Msg ι)
  won : Option ℕ

/-- `clusterHandleSlaveFailover`.  The slots of the old master are taken over by
`clusterHandleSlaveFailoverPromote` of the slot table. -/
def clusterHandleSlaveFailover (me : ι) (isMaster : Bool) (size : ℕ) (view : FailoverView ι)
    (n : Node ι) : Effect ι :=
  let authAge := view.mstime - n.failoverAuthTime
  let neededQuorum := size / 2 + 1
  match failoverMaster isMaster view with
  | none => ⟨n, [], none⟩
  | some master =>
    if authAge > authTimeout view * 2 then
      ⟨scheduleElection view n, view.localSlaves.map (slaveHeader me n master .other), none⟩
    else
      let n := updateRank view n
      if view.mstime < n.failoverAuthTime then ⟨n, [], none⟩
      else if authAge > authTimeout view then ⟨n, [], none⟩
      else if n.failoverAuthSent = false then
        let n := startElection n
        ⟨n, view.peers.map fun peer =>
          { slaveHeader me n master .authRequest peer with forceAck := view.mfEnd != 0 }, none⟩
      else if n.failoverAuthCount ≥ neededQuorum then
        ⟨{ n with promoted := true, configEpoch := n.failoverAuthEpoch },
          view.peers.map (slaveHeader me n master .other), some n.failoverAuthEpoch⟩
      else ⟨n, [], none⟩

/-! ## The master -/

/-- What the processing of a message reads of the local picture of the cluster. -/
structure VoteView (ι : Type) where
  mstime : ℤ
  clusterNodeTimeout : ℤ
  /-- `nodeIsMaster(node)` for the node that asks. -/
  nodeIsMaster : Bool
  /-- `node->slaveof`. -/
  slaveof : Option ι
  nodeFailed : ι → Bool
  /-- The `configEpoch` of the master that serves a slot. -/
  slotEpoch : ℕ → Option ℕ
  /-- The node that asks has a link. -/
  link : Bool
  myslots : Bitmap

/-- No claimed slot is served by a master with a greater `configEpoch` than the claimed one. -/
def claimUpToDate (view : VoteView ι) (request : Msg ι) : Bool :=
  (List.range clusterSlots).all fun j =>
    match view.slotEpoch j with
    | none => true
    | some epoch => !bitmapTestBit request.myslots j || decide (epoch ≤ request.configEpoch)

variable [DecidableEq ι]

/-- `clusterSendFailoverAuthIfNeeded`, at a master that owns slots. -/
def clusterSendFailoverAuthIfNeeded (view : VoteView ι) (request : Msg ι) (n : Node ι) :
    Node ι × List (Msg ι) :=
  if request.currentEpoch < n.currentEpoch then (n, [])
  else if n.lastVoteEpoch = n.currentEpoch then (n, [])
  else
    match view.slaveof with
    | none => (n, [])
    | some master =>
      if view.nodeIsMaster = true ∨ (view.nodeFailed master = false ∧ request.forceAck = false) then
        (n, [])
      else if view.mstime - n.votedTime master < view.clusterNodeTimeout * 2 then (n, [])
      else if claimUpToDate view request = false then (n, [])
      else
        -- `clusterSendFailoverAuth` sends nothing without a link; the vote is spent all the same
        let ack : Msg ι :=
          { type := .authAck, sender := request.receiver, receiver := request.sender,
            currentEpoch := n.currentEpoch, configEpoch := n.configEpoch, myslots := view.myslots,
            forceAck := false }
        ({ n with
            lastVoteEpoch := n.currentEpoch
            votedTime := Function.update n.votedTime master view.mstime },
          if view.link then [ack] else [])

/-- The election part of `clusterProcessPacket`, for a sender that is a known node. -/
def clusterProcessPacket (masters : Finset ι) (view : VoteView ι) (hdr : Msg ι) (n : Node ι) :
    Node ι × List (Msg ι) :=
  let n := if hdr.currentEpoch > n.currentEpoch then { n with currentEpoch := hdr.currentEpoch }
    else n
  match hdr.type with
  | .authRequest =>
    if hdr.receiver ∈ masters then clusterSendFailoverAuthIfNeeded view hdr n else (n, [])
  | .authAck =>
    if hdr.sender ∈ masters ∧ hdr.currentEpoch ≥ n.failoverAuthEpoch then
      ({ n with failoverAuthCount := n.failoverAuthCount + 1 }, [])
    else (n, [])
  | .other => (n, [])

/-! ## The cluster -/

/-- The servers and the messages in flight, with the ACKs processed and the elections won so
far. -/
structure System (ι : Type) where
  node : ι → Node ι
  inFlight : List (Msg ι)
  processed : List (Msg ι)
  won : List (ι × ℕ)

inductive Event (ι : Type) where
  /-- A server runs `clusterHandleSlaveFailover`. -/
  | failover (me : ι) (view : FailoverView ι)
  /-- A message in flight, given by its position, reaches its receiver. -/
  | deliver (i : ℕ) (view : VoteView ι)
  /-- A server sends a message that has nothing to do with elections. -/
  | ping (sender receiver : ι) (configEpoch : ℕ) (myslots : Bitmap)

inductive NotInFlight where
  | notInFlight

def System.failover (masters : Finset ι) (s : System ι) (me : ι) (view : FailoverView ι) :
    System ι :=
  let isMaster := decide (me ∈ masters) || (s.node me).promoted
  let r := clusterHandleSlaveFailover me isMaster masters.card view (s.node me)
  { s with
    node := Function.update s.node me r.node
    inFlight := s.inFlight ++ r.sent
    won := s.won ++ (r.won.map fun epoch => (me, epoch)).toList }

def System.deliver (masters : Finset ι) (s : System ι) (i : ℕ) (hdr : Msg ι) (view : VoteView ι) :
    System ι :=
  let r := clusterProcessPacket masters view hdr (s.node hdr.receiver)
  { s with
    node := Function.update s.node hdr.receiver r.1
    inFlight := s.inFlight.eraseIdx i ++ r.2
    processed := if hdr.type = .authAck then s.processed ++ [hdr] else s.processed }

def System.ping (s : System ι) (sender receiver : ι) (configEpoch : ℕ) (myslots : Bitmap) :
    System ι :=
  { s with inFlight := s.inFlight ++
      [{ type := .other, sender := sender, receiver := receiver,
         currentEpoch := (s.node sender).currentEpoch, configEpoch := configEpoch,
         myslots := myslots, forceAck := false }] }

def step (masters : Finset ι) (s : System ι) : Event ι → Except NotInFlight (System ι)
  | .failover me view => .ok (s.failover masters me view)
  | .deliver i view =>
    match s.inFlight[i]? with
    | none => .error .notInFlight
    | some hdr => .ok (s.deliver masters i hdr view)
  | .ping sender receiver configEpoch myslots => .ok (s.ping sender receiver configEpoch myslots)

/-- No election has been held: the state after `clusterInit` and after loading the epochs from the
configuration file.  `failover_auth_sent` is not initialised. -/
structure Initial (s : System ι) : Prop where
  lastVoteEpoch_eq : ∀ n, (s.node n).lastVoteEpoch = 0
  failoverAuthCount_eq : ∀ n, (s.node n).failoverAuthCount = 0
  failoverAuthEpoch_eq : ∀ n, (s.node n).failoverAuthEpoch = 0
  inFlight_eq : s.inFlight = []
  processed_eq : s.processed = []
  won_eq : s.won = []

end ServerStack.Redis.Cluster.Election
