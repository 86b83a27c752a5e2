import ServerStack.Lib.Outcome

/-!
# Cluster nodes and the slot bitmap

The node record and the cluster state of `cluster.c`, as far as the ownership of hash slots reads
them.  A pointer is a number; the live heap of nodes is the node table, so a pointer outside the
table is dangling and dereferencing it is an error of the model.
-/

namespace ServerStack.Redis.Cluster

open Function

def clusterSlots : ℕ := 16384

/-- The address of a `clusterNode`. -/
abbrev Ptr := ℕ

/-- A bitmap of `REDIS_CLUSTER_SLOTS/8` bytes, indexed by byte. -/
abbrev Bitmap := ℕ → BitVec 8

/-- The fields of `clusterNode` that the slot functions use. -/
structure ClusterNode where
  /-- `flags & REDIS_NODE_MASTER`. -/
  isMaster : Bool
  /-- `flags & REDIS_NODE_SLAVE`. -/
  isSlave : Bool
  configEpoch : ℕ
  slots : Bitmap
  numslots : ℤ
  slaveof : Option Ptr

inductive Abort where
  /-- `redisAssert(clusterNodeClearSlotBit(n,slot) == 1)` of `clusterDelSlot`. -/
  | delSlotAssert
  /-- One of the two assertions that open `clusterSetMaster`. -/
  | setMasterAssert
  /-- A dangling or NULL node pointer is dereferenced. -/
  | badPointer
  deriving DecidableEq, Repr

/-- The fields of `server.cluster` that the slot functions use. -/
structure ClusterState where
  myself : Ptr
  currentEpoch : ℕ
  /-- The nodes of `server.cluster->nodes`, by address. -/
  nodes : Ptr → Option ClusterNode
  /-- The addresses of these nodes, in the order the table is iterated. -/
  nodeList : List Ptr
  migratingSlotsTo : ℕ → Option Ptr
  importingSlotsFrom : ℕ → Option Ptr
  slots : ℕ → Option Ptr

def ClusterState.deref (s : ClusterState) (p : Ptr) : Except Abort ClusterNode :=
  match s.nodes p with
  | some n => .ok n
  | none => .error .badPointer

def ClusterState.store (s : ClusterState) (p : Ptr) (n : ClusterNode) : ClusterState :=
  { s with nodes := update s.nodes p (some n) }

/-! ## Bitmaps -/

variable (bitmap : Bitmap)

def bitmapTestBit (pos : ℕ) : Bool :=
  bitmap (pos / 8) &&& (1#8 <<< (pos % 8)) != 0#8

def bitmapSetBit (pos : ℕ) : Bitmap :=
  update bitmap (pos / 8) (bitmap (pos / 8) ||| (1#8 <<< (pos % 8)))

def bitmapClearBit (pos : ℕ) : Bitmap :=
  update bitmap (pos / 8) (bitmap (pos / 8) &&& ~~~(1#8 <<< (pos % 8)))

theorem bitmapTestBit_eq (pos : ℕ) :
    bitmapTestBit bitmap pos = (bitmap (pos / 8)).getLsbD (pos % 8) := by
  have hpos : pos % 8 < 8 := Nat.mod_lt _ (by decide)
  unfold bitmapTestBit
  generalize bitmap (pos / 8) = b
  generalize pos % 8 = i at hpos
  rw [Bool.eq_iff_iff, bne_iff_ne]
  constructor
  · intro h
    by_contra hb
    apply h
    ext j hj
    by_cases hij : j = i
    · subst hij
      simp [← BitVec.getLsbD_eq_getElem, hb]
    · simp
      omega
  · intro hb h
    have := congrArg (fun x => x.getLsbD i) h
    simp [-BitVec.getLsbD_eq_getElem, hpos, hb] at this

theorem bitmapTestBit_update {byte : BitVec 8} {p : ℕ}
    (h : ∀ i < 8, i ≠ p % 8 → byte.getLsbD i = (bitmap (p / 8)).getLsbD i) (q : ℕ) :
    bitmapTestBit (update bitmap (p / 8) byte) q =
      if q = p then byte.getLsbD (p % 8) else bitmapTestBit bitmap q := by
  rw [bitmapTestBit_eq, bitmapTestBit_eq, update_apply]
  split_ifs with hbyte hqp hqp
  · rw [hqp]
  · rw [hbyte, h _ (Nat.mod_lt _ (by decide)) (by omega)]
  · exact absurd (by rw [hqp]) hbyte
  · rfl

@[simp] theorem bitmapTestBit_setBit (p q : ℕ) :
    bitmapTestBit (bitmapSetBit bitmap p) q = (decide (q = p) || bitmapTestBit bitmap q) := by
  have hp : p % 8 < 8 := Nat.mod_lt _ (by decide)
  rw [bitmapSetBit, bitmapTestBit_update bitmap fun i hi hne => by simp; omega]
  by_cases hqp : q = p <;> simp [hqp, hp]

@[simp] theorem bitmapTestBit_clearBit (p q : ℕ) :
    bitmapTestBit (bitmapClearBit bitmap p) q = (!decide (q = p) && bitmapTestBit bitmap q) := by
  have hp : p % 8 < 8 := Nat.mod_lt _ (by decide)
  rw [bitmapClearBit, bitmapTestBit_update bitmap fun i hi hne => by simp; omega]
  by_cases hqp : q = p <;> simp [hqp, hp]

end ServerStack.Redis.Cluster
