import ServerStack.Redis.Cluster.SlotOps

/-!
# Consistency of the slot table

Ownership of a slot is stored three times: in `server.cluster->slots`, in the bitmap of the owner
and in the owner's `numslots`.  `SlotTable` says that the three agree.  Adding and deleting one
slot preserve it, hence so does every path that is built from them, and the assertion of
`clusterDelSlot` cannot fail.
-/

namespace ServerStack.Redis.Cluster

open Outcome Function

def setBits (bitmap : Bitmap) : Finset ℕ :=
  (Finset.range clusterSlots).filter fun j => bitmapTestBit bitmap j = true

/-- The slot array, the bitmaps and the counters of the known nodes agree. -/
structure SlotTable (s : ClusterState) : Prop where
  /-- Bit `j` of a known node is set exactly when the node owns slot `j`. -/
  bit_iff : ∀ p n, s.nodes p = some n → ∀ j < clusterSlots,
    (bitmapTestBit n.slots j = true ↔ s.slots j = some p)
  /-- The counter of a known node is the number of its set bits. -/
  numslots_eq : ∀ p n, s.nodes p = some n → n.numslots = (setBits n.slots).card
  /-- The owner of a slot is a known node. -/
  owner_known : ∀ j < clusterSlots, ∀ p, s.slots j = some p → (s.nodes p).isSome

def NotDelSlotAssert (e : Abort) : Prop := e ≠ .delSlotAssert

/-! ## The bits of one bitmap -/

variable {slot : ℕ} {s : ClusterState}

theorem setBits_setBit {bitmap : Bitmap} (h : slot < clusterSlots) :
    setBits (bitmapSetBit bitmap slot) = insert slot (setBits bitmap) := by
  ext j
  simp only [setBits, Finset.mem_filter, Finset.mem_range, bitmapTestBit_setBit, Bool.or_eq_true,
    decide_eq_true_eq, Finset.mem_insert]
  constructor
  · rintro ⟨hj, rfl | hb⟩
    · exact .inl rfl
    · exact .inr ⟨hj, hb⟩
  · rintro (rfl | ⟨hj, hb⟩)
    · exact ⟨h, .inl rfl⟩
    · exact ⟨hj, .inr hb⟩

theorem setBits_clearBit (bitmap : Bitmap) (slot : ℕ) :
    setBits (bitmapClearBit bitmap slot) = (setBits bitmap).erase slot := by
  ext j
  simp only [setBits, Finset.mem_filter, Finset.mem_range, bitmapTestBit_clearBit,
    Bool.and_eq_true, Bool.not_eq_true', decide_eq_false_iff_not, Finset.mem_erase]
  tauto

theorem mem_setBits {bitmap : Bitmap} (h : slot < clusterSlots) :
    slot ∈ setBits bitmap ↔ bitmapTestBit bitmap slot = true := by
  simp [setBits, h]

theorem numslots_setSlotBit {n : ClusterNode} (h : slot < clusterSlots)
    (hn : n.numslots = (setBits n.slots).card) :
    (clusterNodeSetSlotBit n slot).1.numslots =
      (setBits (clusterNodeSetSlotBit n slot).1.slots).card := by
  simp only [clusterNodeSetSlotBit, setBits_setBit h]
  split_ifs with hb
  · rw [Finset.insert_eq_of_mem ((mem_setBits h).2 hb), hn]
  · rw [Finset.card_insert_of_notMem (fun hm => hb ((mem_setBits h).1 hm)), hn]
    rfl

theorem numslots_clearSlotBit {n : ClusterNode} (h : slot < clusterSlots)
    (hb : bitmapTestBit n.slots slot = true) (hn : n.numslots = (setBits n.slots).card) :
    (clusterNodeClearSlotBit n slot).1.numslots =
      (setBits (clusterNodeClearSlotBit n slot).1.slots).card := by
  have hm := (mem_setBits h).2 hb
  have hpos : 0 < (setBits n.slots).card := Finset.card_pos.2 ⟨slot, hm⟩
  simp only [clusterNodeClearSlotBit, hb, if_true, setBits_clearBit, hn,
    Finset.card_erase_of_mem hm]
  omega

/-! ## One slot -/

theorem deref_meets (s : ClusterState) (p : Ptr) :
    Meets (s.deref p) (fun n => s.nodes p = some n) NotDelSlotAssert := by
  unfold ClusterState.deref
  cases h : s.nodes p with
  | none => simp [NotDelSlotAssert]
  | some n => rfl

theorem SlotTable.congr {s' : ClusterState} (hs : SlotTable s) (hn : s'.nodes = s.nodes)
    (hslots : s'.slots = s.slots) : SlotTable s' where
  bit_iff := by rw [hn, hslots]; exact hs.bit_iff
  numslots_eq := by rw [hn]; exact hs.numslots_eq
  owner_known := by rw [hn, hslots]; exact hs.owner_known

theorem SlotTable.store {s : ClusterState} (hs : SlotTable s) {p : Ptr} {n n' : ClusterNode}
    (hp : s.nodes p = some n) (hslots : n'.slots = n.slots) (hnum : n'.numslots = n.numslots) :
    SlotTable (s.store p n') where
  bit_iff := by
    intro q m hq j hj
    simp only [ClusterState.store, update_apply] at hq
    split_ifs at hq with h
    · cases hq
      subst h
      rw [hslots]
      exact hs.bit_iff _ _ hp j hj
    · exact hs.bit_iff q m hq j hj
  numslots_eq := by
    intro q m hq
    simp only [ClusterState.store, update_apply] at hq
    split_ifs at hq with h
    · cases hq
      rw [hnum, hslots]
      exact hs.numslots_eq _ _ hp
    · exact hs.numslots_eq q m hq
  owner_known := by
    intro j hj q hq
    simp only [ClusterState.store, update_apply]
    split_ifs with h
    · rfl
    · exact hs.owner_known j hj q hq

theorem SlotTable.setOwner (hs : SlotTable s) {n : Ptr} {node node' : ClusterNode}
    {owner : Option Ptr} (hn : s.nodes n = some node)
    (hold : ∀ p ≠ n, s.slots slot ≠ some p) (hnew : ∀ p ≠ n, owner ≠ some p)
    (hbit : ∀ j, bitmapTestBit node'.slots j = true ↔
      if j = slot then owner = some n else bitmapTestBit node.slots j = true)
    (hnum : node'.numslots = (setBits node'.slots).card) :
    SlotTable { s.store n node' with slots := update s.slots slot owner } := by
  constructor
  · intro p m hp j hj
    simp only [ClusterState.store, update_apply] at hp ⊢
    split_ifs at hp with hpn
    · cases hp
      subst hpn
      rw [hbit]
      split_ifs
      · rfl
      · exact hs.bit_iff p node hn j hj
    · rw [hs.bit_iff p m hp j hj]
      split_ifs with hj'
      · subst hj'
        exact iff_of_false (hold p hpn) (hnew p hpn)
      · rfl
  · intro p m hp
    simp only [ClusterState.store, update_apply] at hp
    split_ifs at hp with hpn
    · cases hp
      exact hnum
    · exact hs.numslots_eq p m hp
  · intro j hj p hp
    simp only [ClusterState.store, update_apply] at hp ⊢
    by_cases hpn : p = n
    · simp [hpn]
    · rw [if_neg hpn]
      split_ifs at hp with hj'
      · exact absurd hp (hnew p hpn)
      · exact hs.owner_known j hj p hp

theorem clusterAddSlot_meets (hs : SlotTable s) (n : Ptr) (hslot : slot < clusterSlots) :
    Meets (clusterAddSlot s n slot) (fun r => SlotTable r.1) NotDelSlotAssert := by
  unfold clusterAddSlot
  split_ifs with hfree
  · exact hs
  rw [Option.not_isSome_iff_eq_none] at hfree
  refine (deref_meets s n).bind fun node hn => ?_
  apply hs.setOwner hn
  · simp [hfree]
  · exact fun p hp heq => hp (Option.some.inj heq).symm
  · intro j
    simp only [clusterNodeSetSlotBit, bitmapTestBit_setBit, Bool.or_eq_true, decide_eq_true_eq]
    split_ifs with hj <;> simp [hj]
  · exact numslots_setSlotBit hslot (hs.numslots_eq _ _ hn)

theorem clusterDelSlot_meets (hs : SlotTable s) (hslot : slot < clusterSlots) :
    Meets (clusterDelSlot s slot)
      (fun r => SlotTable r.1 ∧ r.1.slots = update s.slots slot none)
      NotDelSlotAssert := by
  unfold clusterDelSlot
  cases howner : s.slots slot with
  | none => exact ⟨hs, by rw [← howner, update_eq_self]⟩
  | some n =>
    refine (deref_meets s n).bind fun node hn => ?_
    have hset : bitmapTestBit node.slots slot = true := (hs.bit_iff n node hn slot hslot).2 howner
    have hassert : ¬ (clusterNodeClearSlotBit node slot).2 = false := by
      simp [clusterNodeClearSlotBit, hset]
    rw [if_neg hassert]
    refine ⟨?_, rfl⟩
    apply hs.setOwner hn
    · exact fun p hp heq => hp (Option.some.inj (heq.symm.trans howner))
    · simp
    · intro j
      simp only [clusterNodeClearSlotBit, bitmapTestBit_clearBit, Bool.and_eq_true,
        Bool.not_eq_true', decide_eq_false_iff_not]
      split_ifs with hj <;> simp [hj]
    · exact numslots_clearSlotBit hslot hset (hs.numslots_eq _ _ hn)

theorem rebindSlot_meets (hs : SlotTable s) (n : Ptr) (hslot : slot < clusterSlots) :
    Meets (rebindSlot s n slot) SlotTable NotDelSlotAssert := by
  refine (clusterDelSlot_meets hs hslot).bind fun r hr => ?_
  exact (clusterAddSlot_meets hr.1 n hslot).bind fun r' hr' => hr'

/-! ## Whole functions -/

-- the loops are reasoned about through `forSlots_meets` only; their bound is never evaluated
attribute [local irreducible] clusterSlots

theorem forSlots_meets {σ : Type} {body : σ → ℕ → Except Abort σ} (inv : σ → Prop) {s : σ}
    (hbody : ∀ s, inv s → ∀ j < clusterSlots, Meets (body s j) inv NotDelSlotAssert) (hs : inv s) :
    Meets (forSlots body s) inv NotDelSlotAssert :=
  Meets.foldlM_range (fun _ => inv) hs clusterSlots fun j hj t ht => hbody t ht j hj

theorem derefLink_meets (s : ClusterState) (link : Option Ptr) :
    Meets (s.derefLink link) (fun _ => True) NotDelSlotAssert := by
  cases link with
  | none => trivial
  | some master => exact (deref_meets s master).bind fun _ _ => trivial

theorem clusterDelNodeSlots_meets (hs : SlotTable s) (node : Ptr) :
    Meets (clusterDelNodeSlots s node) (fun r => SlotTable r.1) NotDelSlotAssert := by
  refine forSlots_meets (fun r : ClusterState × ℕ => SlotTable r.1) ?_ hs
  rintro ⟨t, deleted⟩ ht j hj
  refine (deref_meets t node).bind fun n _ => ?_
  split_ifs
  · exact (clusterDelSlot_meets ht hj).bind fun r hr => hr.1
  · exact ht

theorem clusterSetMaster_meets (hs : SlotTable s) (n : Ptr) :
    Meets (clusterSetMaster s n) SlotTable NotDelSlotAssert := by
  refine (deref_meets s s.myself).bind fun me hme => ?_
  split_ifs
  · simp [NotDelSlotAssert]
  · refine (deref_meets _ n).bind fun _ _ => ?_
    have hclosed : SlotTable (clusterCloseAllSlots s) := hs.congr rfl rfl
    exact hclosed.store (p := s.myself) hme rfl rfl
  · refine (derefLink_meets s me.slaveof).bind fun _ _ => ?_
    exact (deref_meets s n).bind fun _ _ => hs.store hme rfl rfl

theorem claimIsNewer_meets (s : ClusterState) (j epoch : ℕ) :
    Meets (claimIsNewer s j epoch) (fun _ => True) NotDelSlotAssert := by
  unfold claimIsNewer
  cases s.slots j with
  | none => trivial
  | some owner => exact (deref_meets s owner).bind fun _ _ => trivial

theorem markImporting_slotTable (hs : SlotTable s) (sender : Ptr) (j : ℕ) (countKeys : ℕ → ℕ) :
    SlotTable (markImporting s sender j countKeys) := by
  unfold markImporting
  split_ifs
  · exact hs.congr rfl rfl
  · exact hs

theorem updateSlotConfig_meets (sender : Ptr) (epoch : ℕ) (slots : Bitmap) (countKeys : ℕ → ℕ)
    (curmaster : Option Ptr) {r : ClusterState × Bool} (hs : SlotTable r.1) {j : ℕ}
    (hj : j < clusterSlots) :
    Meets (updateSlotConfig sender epoch slots countKeys curmaster r j) (fun r => SlotTable r.1)
      NotDelSlotAssert := by
  obtain ⟨s, newmaster⟩ := r
  simp only [updateSlotConfig]
  split_ifs
  · exact hs
  · exact hs
  · exact hs
  refine (claimIsNewer_meets s j epoch).bind fun rebind _ => ?_
  cases rebind with
  | false => exact hs
  | true =>
    exact (rebindSlot_meets (markImporting_slotTable hs sender j countKeys) sender hj).bind
      fun _ ht => ht

section

variable (hs : SlotTable s)

include hs

theorem followNewMaster_meets (curmaster : Option Ptr) (sender : Ptr) :
    Meets (followNewMaster s curmaster sender) SlotTable NotDelSlotAssert := by
  cases curmaster with
  | none => simp [followNewMaster, NotDelSlotAssert]
  | some c =>
    refine (deref_meets s c).bind fun cur _ => ?_
    split_ifs
    · exact clusterSetMaster_meets hs sender
    · exact hs

theorem clusterUpdateSlotsConfigWith_meets (sender : Ptr) (epoch : ℕ)
    (slots : Bitmap) (countKeys : ℕ → ℕ) :
    Meets (clusterUpdateSlotsConfigWith s sender epoch slots countKeys) SlotTable
      NotDelSlotAssert := by
  refine (deref_meets s s.myself).bind fun me _ => ?_
  refine (forSlots_meets (fun r : ClusterState × Bool => SlotTable r.1) (fun r hr j hj =>
    updateSlotConfig_meets sender epoch slots countKeys _ hr hj) hs).bind fun r hr => ?_
  obtain ⟨t, newmaster⟩ := r
  cases newmaster with
  | false => exact hr
  | true => exact followNewMaster_meets hr _ sender

theorem takeOverSlots_meets (oldmaster : Ptr) :
    Meets (takeOverSlots s oldmaster) SlotTable NotDelSlotAssert := by
  refine forSlots_meets SlotTable (fun t ht j hj => ?_) hs
  refine (deref_meets t oldmaster).bind fun om _ => ?_
  split_ifs
  · exact rebindSlot_meets ht t.myself hj
  · exact ht

theorem clusterHandleSlaveFailoverPromote_meets (epoch : ℕ) :
    Meets (clusterHandleSlaveFailoverPromote s epoch) SlotTable NotDelSlotAssert := by
  refine (deref_meets s s.myself).bind fun me hme => ?_
  cases me.slaveof with
  | none => exact hs
  | some oldmaster =>
    refine (deref_meets s oldmaster).bind fun om _ => ?_
    split_ifs
    · exact hs
    have hpromoted : SlotTable (s.store s.myself
        { me with isMaster := true, isSlave := false, slaveof := none }) := hs.store hme rfl rfl
    refine (takeOverSlots_meets hpromoted oldmaster).bind fun t ht => ?_
    exact (deref_meets t t.myself).bind fun me hme => ht.store hme rfl rfl

theorem closeImporting_meets (slot : ℕ) (n : Ptr) :
    Meets (closeImporting s slot n) SlotTable NotDelSlotAssert := by
  unfold closeImporting
  split_ifs
  · refine (deref_meets s s.myself).bind fun me hme => ?_
    split_ifs
    · have hbumped : SlotTable (s.store s.myself
          { me with configEpoch := s.currentEpoch + 1 }) := hs.store hme rfl rfl
      exact hbumped.congr rfl rfl
    · exact hs.congr rfl rfl
  · exact hs

theorem clusterSetslotNode_meets (hslot : slot < clusterSlots) (n : Ptr) (countKeys : ℕ → ℕ) :
    Meets (clusterSetslotNode s slot n countKeys) SlotTable NotDelSlotAssert := by
  unfold clusterSetslotNode
  split_ifs
  · exact hs
  · exact hs
  have hclosed : SlotTable (closeMigrating s slot countKeys) := by
    unfold closeMigrating
    split_ifs
    · exact hs.congr rfl rfl
    · exact hs
  refine (closeImporting_meets hclosed slot n).bind fun t ht => ?_
  exact rebindSlot_meets ht n hslot

theorem unassignSlots_meets (delnode : Ptr) : Meets (unassignSlots s delnode)
      (fun t => SlotTable t ∧ ∀ j < clusterSlots, t.slots j ≠ some delnode) NotDelSlotAssert := by
  refine Meets.foldlM_range (fun k t => SlotTable t ∧ ∀ j < k, t.slots j ≠ some delnode)
    ⟨hs, fun j hj => absurd hj (Nat.not_lt_zero j)⟩ clusterSlots fun j hj t ⟨ht, hprefix⟩ => ?_
  have hcleared : SlotTable (clearMigration t delnode j) := ht.congr rfl rfl
  split_ifs with howner
  · refine (clusterDelSlot_meets hcleared hj).bind fun r hr => ⟨hr.1, fun i hi => ?_⟩
    have hslots : r.1.slots = update t.slots j none := hr.2
    rw [hslots, update_apply]
    split_ifs with hij
    · simp
    · exact hprefix i (by omega)
  · refine ⟨hcleared, fun i hi => ?_⟩
    rcases Nat.lt_succ_iff_lt_or_eq.1 hi with hlt | rfl
    · exact hprefix i hlt
    · exact howner

theorem clusterDelNode_meets (delnode : Ptr) :
    Meets (clusterDelNode s delnode) SlotTable NotDelSlotAssert := by
  refine (unassignSlots_meets hs delnode).bind fun t ⟨ht, hfree⟩ => ?_
  refine (deref_meets t delnode).bind fun n _ => ?_
  refine (derefLink_meets t n.slaveof).bind fun _ _ => ?_
  constructor
  · intro p m hp
    simp only [update_apply] at hp
    split_ifs at hp
    exact ht.bit_iff p m hp
  · intro p m hp
    simp only [update_apply] at hp
    split_ifs at hp
    exact ht.numslots_eq p m hp
  · intro j hj p hp
    simp only [update_apply]
    rw [if_neg]
    · exact ht.owner_known j hj p hp
    · rintro rfl
      exact hfree j hj hp

theorem createClusterNode_slotTable (p : Ptr) (master slave : Bool) :
    SlotTable (createClusterNode s p master slave) := by
  unfold createClusterNode
  split_ifs with hfresh
  · rw [Option.isNone_iff_eq_none] at hfresh
    have hzero : ∀ j, bitmapTestBit (fun _ => 0#8) j = false := by
      intro j
      rw [bitmapTestBit_eq]
      simp
    have hunowned : ∀ j < clusterSlots, s.slots j ≠ some p := by
      intro j hj hp
      have := hs.owner_known j hj p hp
      rw [hfresh] at this
      cases this
    constructor
    · intro q m hq j hj
      simp only [update_apply] at hq
      split_ifs at hq with hqp
      · cases hq
        subst hqp
        simp [hzero, hunowned j hj]
      · exact hs.bit_iff q m hq j hj
    · intro q m hq
      simp only [update_apply] at hq
      split_ifs at hq with hqp
      · cases hq
        simp [setBits, hzero]
      · exact hs.numslots_eq q m hq
    · intro j hj q hq
      simp only [update_apply]
      split_ifs
      · rfl
      · exact hs.owner_known j hj q hq
  · exact hs

end

theorem clusterInit_slotTable (me : Ptr) : SlotTable (clusterInit me) := by
  apply createClusterNode_slotTable
  constructor
  · intro p n h
    cases h
  · intro p n h
    cases h
  · intro j hj p h
    cases h

/-! ## Runs -/

/-- A configEpoch published in a packet header replaces an older one. -/
def updateConfigEpoch (s : ClusterState) (sender : Ptr) (epoch : ℕ) : Except Abort ClusterState := do
  let n ← s.deref sender
  return if epoch > n.configEpoch then s.store sender { n with configEpoch := epoch } else s

/-- The operations that reach the slot table.  A slot number is below `REDIS_CLUSTER_SLOTS`, as
`getSlotOrReply` and the loops over the slots guarantee. -/
inductive SlotOp where
  | createNode (p : Ptr) (master slave : Bool)
  | addSlot (n : Ptr) (slot : Fin clusterSlots)
  | delSlot (slot : Fin clusterSlots)
  | delNodeSlots (node : Ptr)
  | updateConfigEpoch (sender : Ptr) (epoch : ℕ)
  | updateSlotsConfigWith (sender : Ptr) (epoch : ℕ) (slots : Bitmap) (countKeys : ℕ → ℕ)
  | setMaster (n : Ptr)
  | failoverWon (epoch : ℕ)
  | setslotNode (slot : Fin clusterSlots) (n : Ptr) (countKeys : ℕ → ℕ)
  | delNode (n : Ptr)

def SlotOp.run (s : ClusterState) : SlotOp → Except Abort ClusterState
  | createNode p master slave => .ok (createClusterNode s p master slave)
  | addSlot n slot => Prod.fst <$> clusterAddSlot s n slot
  | delSlot slot => Prod.fst <$> clusterDelSlot s slot
  | delNodeSlots node => Prod.fst <$> clusterDelNodeSlots s node
  | updateConfigEpoch sender epoch => Cluster.updateConfigEpoch s sender epoch
  | updateSlotsConfigWith sender epoch slots countKeys =>
      clusterUpdateSlotsConfigWith s sender epoch slots countKeys
  | setMaster n => clusterSetMaster s n
  | failoverWon epoch => clusterHandleSlaveFailoverPromote s epoch
  | setslotNode slot n countKeys => clusterSetslotNode s slot n countKeys
  | delNode n => clusterDelNode s n

theorem slotOp_meets (hs : SlotTable s) (op : SlotOp) :
    Meets (op.run s) SlotTable NotDelSlotAssert := by
  cases op with
  | createNode p master slave => exact createClusterNode_slotTable hs p master slave
  | addSlot n slot => exact (clusterAddSlot_meets hs n slot.isLt).map
  | delSlot slot => exact ((clusterDelSlot_meets hs slot.isLt).mono (fun _ h => h.1) fun _ h => h).map
  | delNodeSlots node => exact (clusterDelNodeSlots_meets hs node).map
  | updateConfigEpoch sender epoch =>
    refine (deref_meets s sender).bind fun n hn => ?_
    split_ifs
    · exact hs.store hn rfl rfl
    · exact hs
  | updateSlotsConfigWith sender epoch slots countKeys =>
    exact clusterUpdateSlotsConfigWith_meets hs sender epoch slots countKeys
  | setMaster n => exact clusterSetMaster_meets hs n
  | failoverWon epoch => exact clusterHandleSlaveFailoverPromote_meets hs epoch
  | setslotNode slot n countKeys => exact clusterSetslotNode_meets hs slot.isLt n countKeys
  | delNode n => exact clusterDelNode_meets hs n

/-- In every reachable state the slot array, the bitmaps and the counters of the known nodes agree,
and no run ends in the assertion of `clusterDelSlot`. -/
theorem slot_table_consistent (me : Ptr) (ops : List SlotOp) :
    (∀ s, ops.foldlM SlotOp.run (clusterInit me) = .ok s → ∀ p n, s.nodes p = some n →
        (∀ j < clusterSlots, (bitmapTestBit n.slots j = true ↔ s.slots j = some p)) ∧
        n.numslots = (setBits n.slots).card) ∧
      ops.foldlM SlotOp.run (clusterInit me) ≠ .error .delSlotAssert := by
  have hrun := Meets.foldlM (fun s op hs => slotOp_meets hs op) ops _ (clusterInit_slotTable me)
  constructor
  · intro s hs p n hn
    have table := hrun.post hs
    exact ⟨table.bit_iff p n hn, table.numslots_eq p n hn⟩
  · intro h
    exact hrun.fail h rfl

end ServerStack.Redis.Cluster
