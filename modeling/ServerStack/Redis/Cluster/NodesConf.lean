import ServerStack.Redis.Cluster.Node
import ServerStack.Redis.Sds

/-!
# The file `nodes.conf`

`clusterGenNodesDescription` and `clusterLoadConfig` of `cluster.c`: the text that describes the
nodes of the cluster with the slots they serve, and its reader.  A node is identified by its name.
The flag `REDIS_NODE_MEET`, which is not written, is set during the handshake only, and
`REDIS_NODE_PROMOTED` is never set; both are left out, as are the arrays of slaves.
-/

namespace ServerStack.Redis.Cluster.NodesConf

open Util Decimal Sds Function

/-! ## What is written -/

abbrev Name := { s : Bytes // s.length = 40 ∧ ∀ b ∈ s, isHexDigit b = true }

structure NodeFlags where
  myself : Bool
  master : Bool
  slave : Bool
  pfail : Bool
  fail : Bool
  handshake : Bool
  noaddr : Bool
  deriving DecidableEq, Repr

def NodeFlags.none : NodeFlags := ⟨false, false, false, false, false, false, false⟩

structure ConfNode where
  name : Name
  ip : Bytes
  port : ℕ
  flags : NodeFlags
  slaveof : Option Name
  pingSent : ℤ
  pongReceived : ℤ
  configEpoch : ℕ
  /-- There is a link to the node. -/
  link : Bool
  ip_length : ip.length < 46
  ip_plain : ∀ b ∈ ip, Plain b
  port_lt : port < 2 ^ 31
  pingSent_bound : IsLongLong pingSent
  pongReceived_bound : IsLongLong pongReceived
  configEpoch_lt : configEpoch < 2 ^ 64

/-- The node table, in the order in which it is iterated, and the slot tables of
`server.cluster`.  No node is in handshake state. -/
structure Config where
  nodes : List ConfNode
  slots : ℕ → Option Name
  migratingSlotsTo : ℕ → Option Name
  importingSlotsFrom : ℕ → Option Name
  names_nodup : (nodes.map ConfNode.name).Nodup
  slots_mem : ∀ slot name, slots slot = some name → name ∈ nodes.map ConfNode.name
  one_myself : (nodes.filter fun node => node.flags.myself).length = 1
  no_handshake : ∀ node ∈ nodes, node.flags.handshake = false

/-! ## `clusterGenNodesDescription` -/

def flagsText (flags : NodeFlags) : Bytes :=
  (if flags = NodeFlags.none then ascii "noflags," else []) ++
  (if flags.myself then ascii "myself," else []) ++
  (if flags.master then ascii "master," else []) ++
  (if flags.slave then ascii "slave," else []) ++
  (if flags.pfail then ascii "fail?," else []) ++
  (if flags.fail then ascii "fail," else []) ++
  (if flags.handshake then ascii "handshake," else []) ++
  (if flags.noaddr then ascii "noaddr," else [])

/-- The loop over the slots from `j` on, with `n` slots left: the first and the last slot of each
range that is written. -/
def slotRanges (bit : ℕ → Bool) : ℕ → ℕ → Option ℕ → List (ℕ × ℕ)
  | 0, _, _ => []
  | n + 1, j, start =>
    match if bit j then some (start.getD j) else start with
    | none => slotRanges bit n (j + 1) none
    | some a =>
      if bit j = false ∨ j = clusterSlots - 1 then
        let j := if j = clusterSlots - 1 then j + 1 else j
        (a, j - 1) :: slotRanges bit n (j + 1) none
      else slotRanges bit n (j + 1) (some a)

/-- `" %d"` or `" %d-%d"`. -/
def rangeText (range : ℕ × ℕ) : Bytes :=
  if range.1 = range.2 then 32 :: decimal range.1
  else 32 :: (decimal range.1 ++ 45 :: decimal range.2)

/-- `" [%d->-%.40s]"`, `" [%d-<-%.40s]"` or nothing. -/
def moveText (c : Config) (j : ℕ) : Bytes :=
  match c.migratingSlotsTo j with
  | some name => 32 :: 91 :: (decimal j ++ (45 :: 62 :: 45 :: (name.1 ++ [93])))
  | none =>
    match c.importingSlotsFrom j with
    | some name => 32 :: 91 :: (decimal j ++ (45 :: 60 :: 45 :: (name.1 ++ [93])))
    | none => []

/-- `clusterNodeGetSlotBit`: the bitmaps of the nodes agree with the table of the slots. -/
def clusterNodeGetSlotBit (c : Config) (node : ConfNode) (j : ℕ) : Bool :=
  c.slots j = some node.name

def clusterGenNodeDescription (c : Config) (node : ConfNode) : Bytes :=
  let ci := node.name.1 ++ [32] ++ node.ip ++ [58] ++ decimal node.port ++ [32]
  let ci := ci ++ flagsText node.flags
  let ci := if ci.getLast? = some 44 then ci.dropLast ++ [32] else ci
  let ci :=
    match node.slaveof with
    | some master => ci ++ master.1 ++ [32]
    | none => ci ++ ascii "- "
  let ci := ci ++ decimalInt node.pingSent ++ [32] ++ decimalInt node.pongReceived ++ [32] ++
    decimal node.configEpoch ++ [32] ++
    (if node.link ∨ node.flags.myself then ascii "connected" else ascii "disconnected")
  let ci := ci ++ (slotRanges (clusterNodeGetSlotBit c node) clusterSlots 0 none).flatMap rangeText
  if node.flags.myself then ci ++ (List.range clusterSlots).flatMap (moveText c) else ci

/-- `clusterGenNodesDescription`, without the nodes whose flags the filter matches. -/
def clusterGenNodesDescription (c : Config) (filter : NodeFlags → Bool) : Bytes :=
  c.nodes.flatMap fun node =>
    if filter node.flags then [] else clusterGenNodeDescription c node ++ [10]

/-! ## `clusterLoadConfig` -/

inductive LoadError where
  /-- `goto fmterr`. -/
  | fmterr
  /-- `redisPanic` on an unknown flag. -/
  | unknownFlag
  /-- A `redisAssert` fails. -/
  | assertFailed
  /-- An argument that is not there is read, or a table is indexed out of its bounds. -/
  | badMemory
  deriving DecidableEq, Repr

structure NodeInfo where
  ip : Bytes
  port : ℤ
  flags : NodeFlags
  slaveof : Option Bytes
  /-- `ping_sent` is set to the time of the loading. -/
  pingSent : Bool
  pongReceived : Bool
  configEpoch : ℕ
  deriving DecidableEq, Repr

/-- `createClusterNode`. -/
def NodeInfo.create : NodeInfo := ⟨[], 0, NodeFlags.none, none, false, false, 0⟩

/-- The part of `server.cluster` that is loaded; nodes by name. -/
structure Loaded where
  myself : Option Bytes
  nodes : Bytes → Option NodeInfo
  slots : ℕ → Option Bytes
  migratingSlotsTo : ℕ → Option Bytes
  importingSlotsFrom : ℕ → Option Bytes

def Loaded.init : Loaded := ⟨none, fun _ => none, fun _ => none, fun _ => none, fun _ => none⟩

def arg (argv : List Bytes) (k : ℕ) : Except LoadError Bytes :=
  match argv[k]? with
  | some a => .ok a
  | none => .error .badMemory

/-- `strchr`: what stands before and after the first occurrence. -/
def strchr (s : Bytes) (c : UInt8) : Option (Bytes × Bytes) :=
  if c ∈ s then some (s.takeWhile (· ≠ c), (s.dropWhile (· ≠ c)).tail) else none

variable (st : Loaded)

/-- `clusterLookupNode`, and `createClusterNode` and `clusterAddNode` if the node is not there. -/
def lookupOrCreate (s : Bytes) : Except LoadError (Loaded × Bytes) :=
  let name := s.take 40
  if s.length < 40 then .error .badMemory
  else if (st.nodes name).isSome then .ok (st, name)
  else .ok ({ st with nodes := update st.nodes name (some NodeInfo.create) }, name)

variable (name : Bytes)

def modifyNode (f : NodeInfo → NodeInfo) : Loaded :=
  { st with nodes := update st.nodes name ((st.nodes name).map f) }

def loadAddress (name address : Bytes) : Except LoadError Loaded :=
  match strchr address 58 with
  | none => .error .fmterr
  | some (ip, port) =>
    if ip.length < 46 then .ok (modifyNode st name fun n => { n with ip := ip, port := atoi port })
    else .error .badMemory

/-- The flags other than `myself`, and what they set. -/
def flagTable : List (Bytes × (NodeFlags → NodeFlags)) :=
  [(ascii "master", fun f => { f with master := true }),
    (ascii "slave", fun f => { f with slave := true }),
    (ascii "fail?", fun f => { f with pfail := true }),
    (ascii "fail", fun f => { f with fail := true }),
    (ascii "handshake", fun f => { f with handshake := true }),
    (ascii "noaddr", fun f => { f with noaddr := true }),
    (ascii "noflags", fun f => f)]

/-- The letter that `strcasecmp` compares. -/
def toLower (b : UInt8) : UInt8 := if 65 ≤ b ∧ b ≤ 90 then b + 32 else b

def loadFlag (st : Loaded) (s : Bytes) : Except LoadError Loaded :=
  let s := s.map toLower
  if s = ascii "myself" then
    if st.myself.isSome then .error .assertFailed
    else .ok { modifyNode st name (fun n => { n with flags := { n.flags with myself := true } }) with
      myself := some name }
  else
    match flagTable.lookup s with
    | some f => .ok (modifyNode st name fun n => { n with flags := f n.flags })
    | none => .error .unknownFlag

def loadFlags (name flags : Bytes) : Except LoadError Loaded :=
  (flags.splitOn 44).foldlM (loadFlag name) st

def loadSlaveof (name slaveof : Bytes) : Except LoadError Loaded :=
  if slaveof.head? = some 45 then .ok st
  else do
    let (st, master) ← lookupOrCreate st slaveof
    return modifyNode st name fun n => { n with slaveof := some master }

def strtoull (s : Bytes) : ℕ :=
  let (neg, t) := readSign (s.dropWhile isSpace)
  let value := min (2 ^ 64 - 1) (Decimal.value 0 (t.takeWhile fun b => decide (IsDigit b)))
  if neg then (2 ^ 64 - value) % 2 ^ 64 else value

def loadTimes (name ping pong epoch : Bytes) : Loaded :=
  modifyNode st name fun n =>
    { n with
      pingSent := n.pingSent || atoi ping != 0
      pongReceived := n.pongReceived || atoi pong != 0
      configEpoch := strtoull epoch }

def clusterAddSlot (st : Loaded) (slot : ℤ) : Except LoadError Loaded :=
  if slot < 0 ∨ (clusterSlots : ℤ) ≤ slot then .error .badMemory
  else if (st.slots slot.toNat).isSome then .ok st
  else .ok { st with slots := update st.slots slot.toNat (some name) }

/-- `while(start <= stop) clusterAddSlot(n, start++)`. -/
def addSlots (st : Loaded) (start stop : ℤ) : Except LoadError Loaded :=
  ((List.range (stop + 1 - start).toNat).map fun i : ℕ => start + (i : ℤ)).foldlM
    (clusterAddSlot name) st

def loadMove (s : Bytes) : Except LoadError Loaded :=
  match strchr s 45 with
  | none => .error .assertFailed
  | some (slot, p) => do
    let slot := atoi slot.tail
    let (st, cn) ← lookupOrCreate st (p.drop 2)
    if slot < 0 ∨ (clusterSlots : ℤ) ≤ slot then .error .badMemory
    else if p.head? = some 62 then
      .ok { st with
        migratingSlotsTo := update st.migratingSlotsTo slot.toNat (some cn) }
    else
      .ok { st with
        importingSlotsFrom := update st.importingSlotsFrom slot.toNat (some cn) }

def loadSlot (st : Loaded) (s : Bytes) : Except LoadError Loaded :=
  if s.head? = some 91 then loadMove st s
  else
    match strchr s 45 with
    | some (start, stop) => addSlots name st (atoi start) (atoi stop)
    | none => addSlots name st (atoi s) (atoi s)

def loadArgs (argv : List Bytes) : Except LoadError Loaded := do
  let (st, name) ← lookupOrCreate st (← arg argv 0)
  let st ← loadAddress st name (← arg argv 1)
  let st ← loadFlags st name (← arg argv 2)
  let st ← loadSlaveof st name (← arg argv 3)
  let st := loadTimes st name (← arg argv 4) (← arg argv 5) (← arg argv 6)
  (argv.drop 8).foldlM (loadSlot name) st

def loadLine (line : Bytes) : Except LoadError Loaded :=
  if line.head? = some 10 then .ok st
  else
    match sdssplitargs line with
    | none => .error .fmterr
    | some argv => loadArgs st argv

def maxline : ℕ := 1024 + clusterSlots * 128

/-- `while(fgets(line,maxline,fp) != NULL)`; each round takes at least one byte of the file. -/
def loadLines : ℕ → Loaded → Bytes → Except LoadError Loaded
  | 0, st, _ => .ok st
  | fuel + 1, st, file =>
    match fgets maxline file with
    | none => .ok st
    | some (line, file) => do
      let st ← loadLine st line
      loadLines fuel st file

def clusterLoadConfig (file : Bytes) : Except LoadError Loaded := do
  let st ← loadLines (file.length + 1) Loaded.init file
  if st.myself = none then .error .assertFailed else .ok st

end ServerStack.Redis.Cluster.NodesConf
