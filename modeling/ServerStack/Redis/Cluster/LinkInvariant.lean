import ServerStack.Redis.Cluster.Links

/-!
# Masters and slaves point at each other

The two ends of the links agree: a node stands once in the array of the node its `slaveof` names,
and in no other array.  Every operation keeps this under a condition on the state before it.  Three
things break it: `clusterNodeRemoveSlave` moves bytes where it should move pointers, so only the
last slave of an array is removed properly; a master that turns into a slave forgets its slaves, but
they do not forget it; and a deleted master stays the master of its slaves.
-/

namespace ServerStack.Redis.Cluster.Links

open Endian Outcome List Function Option

/-! ## The two ends of the links -/

def slavesOf (s : State) (p : Address) : List Address :=
  match s.nodes p with
  | some node => node.slaves
  | none => []

def slaveofOf (s : State) (p : Address) : Option Address := (s.nodes p).bind Node.slaveof

variable {node : Node} {p m : Address} {s s' : State}

theorem slavesOf_eq (h : s.nodes p = some node) : slavesOf s p = node.slaves := by
  rw [slavesOf, h]

theorem slaveofOf_eq (h : s.nodes p = some node) : slaveofOf s p = node.slaveof := by
  rw [slaveofOf, h]
  rfl

section

variable (s : State)

theorem nodes_store (p q : Address) (node : Node) :
    (s.store p node).nodes q = if q = p then some node else s.nodes q :=
  update_apply _ _ _ _

theorem myself_store (p : Address) (node : Node) : (s.store p node).myself = s.myself :=
  rfl

theorem slavesOf_store (p q : Address) (node : Node) :
    slavesOf (s.store p node) q = if q = p then node.slaves else slavesOf s q := by
  rw [slavesOf, nodes_store]
  split_ifs <;> rfl

theorem slaveofOf_store (p q : Address) (node : Node) :
    slaveofOf (s.store p node) q = if q = p then node.slaveof else slaveofOf s q := by
  rw [slaveofOf, nodes_store]
  split_ifs <;> rfl

/-- The node `p` stands where its `slaveof` says. -/
def LinkedAt (p : Address) : Prop :=
  ∀ m, (slavesOf s m).count p = if slaveofOf s p = some m then 1 else 0

/-- All nodes but `p` stand where their `slaveof` says. -/
def LinkedBut (p : Address) : Prop := ∀ q, q ≠ p → LinkedAt s q

end

structure Inv (s : State) : Prop where
  linked : ∀ p, LinkedAt s p
  masters : ∀ p node, s.nodes p = some node → node.isMaster = true → node.slaveof = none

theorem LinkedAt.notMem (h : LinkedAt s p) (hnone : slaveofOf s p = none) (m : Address) :
    p ∉ slavesOf s m := by
  rw [← count_eq_zero, h m, hnone, if_neg (by simp)]

variable {s : State} {p : Address}

theorem LinkedBut.store {node node' : Node} (h : LinkedBut s p)
    (hp : s.nodes p = some node) (hslaves : node'.slaves = node.slaves) :
    LinkedBut (s.store p node') p := by
  intro q hq m
  have hsame : slavesOf (s.store p node') m = slavesOf s m := by
    rw [slavesOf_store]
    split_ifs with hm
    · rw [hslaves, hm, slavesOf_eq hp]
    · rfl
  rw [hsame, slaveofOf_store, if_neg hq, h q hq m]

theorem notMem_store {node node' : Node}
    (h : ∀ m, p ∉ slavesOf s m) (hp : s.nodes p = some node) (hslaves : node'.slaves = node.slaves)
    (m : Address) : p ∉ slavesOf (s.store p node') m := by
  rw [slavesOf_store]
  split_ifs with hm
  · rw [hslaves, ← slavesOf_eq hp]
    exact h p
  · exact h m

/-! ## Adding and removing -/

structure SameBut (s s' : State) : Prop where
  myself : s'.myself = s.myself
  nodes : ∀ q, s'.nodes q = (s.nodes q).map fun node => { node with slaves := slavesOf s' q }

theorem SameBut.refl (s : State) : SameBut s s := by
  refine ⟨rfl, fun q => ?_⟩
  cases h : s.nodes q with
  | none => rfl
  | some node => rw [slavesOf_eq h]; rfl

theorem SameBut.slaveofOf (h : SameBut s s') (q : Address) : slaveofOf s' q = slaveofOf s q := by
  rw [Links.slaveofOf, h.nodes, Links.slaveofOf]
  cases s.nodes q <;> rfl

theorem SameBut.get (h : SameBut s s') {q : Address} (hq : s.nodes q = some node) :
    s'.nodes q = some { node with slaves := slavesOf s' q } := by
  rw [h.nodes, hq]
  rfl

theorem SameBut.masters (h : SameBut s s')
    (hs : ∀ p node, s.nodes p = some node → node.isMaster = true → node.slaveof = none) :
    ∀ p node, s'.nodes p = some node → node.isMaster = true → node.slaveof = none := by
  intro p node hp hmaster
  rw [h.nodes] at hp
  obtain ⟨node, hnode, rfl⟩ := map_eq_some_iff.1 hp
  exact hs p node hnode hmaster

theorem sameBut_store (hm : s.nodes m = some node) (slaves : List Address) :
    SameBut s (s.store m { node with slaves := slaves }) := by
  refine ⟨rfl, fun q => ?_⟩
  rw [slavesOf_store, nodes_store]
  split_ifs with hq
  · rw [hq, hm]
    rfl
  · exact (SameBut.refl s).nodes q

theorem ofArrayBytes_arrayBytes (slaves : List Address) :
    ofArrayBytes slaves.length (arrayBytes slaves) = slaves := by
  induction slaves with
  | nil => rfl
  | cons p slaves ih =>
    have hlen : (littleEndian 8 p.toNat).length = 8 := length_littleEndian 8 _
    have hread : ofLittleEndian (littleEndian 8 p.toNat) = p.toNat :=
      ofLittleEndian_littleEndian p.toNat_lt
    rw [length_cons, ofArrayBytes, arrayBytes, flatMap_cons, ← arrayBytes,
      take_left' hlen, drop_left' hlen, ih, hread, UInt64.ofNat_toNat]

theorem length_arrayBytes (slaves : List Address) :
    (arrayBytes slaves).length = 8 * slaves.length := by
  induction slaves with
  | nil => rfl
  | cons p slaves ih =>
    rw [arrayBytes, flatMap_cons, ← arrayBytes, length_append, length_littleEndian, length_cons]
    omega

theorem ofArrayBytes_append {xs ys : List UInt8} {n : ℕ} (hxs : xs.length = 8 * n) (k : ℕ) :
    ofArrayBytes (n + k) (xs ++ ys) = ofArrayBytes n xs ++ ofArrayBytes k ys := by
  induction n generalizing xs with
  | zero => rw [length_eq_zero_iff.1 hxs, Nat.zero_add, nil_append, ofArrayBytes, nil_append]
  | succ n ih =>
    rw [Nat.succ_add, ofArrayBytes, take_append_of_le_length (by omega),
      drop_append_of_le_length (by omega), ih (by rw [length_drop]; omega), ofArrayBytes,
      cons_append]

theorem arrayBytes_append (l r : List Address) :
    arrayBytes (l ++ r) = arrayBytes l ++ arrayBytes r := flatMap_append

/-- What becomes of the entries from the slave on, one byte being moved for each one behind it. -/
def gapClosed (p : Address) (r : List Address) : List Address :=
  (ofArrayBytes (1 + r.length) ((arrayBytes r).take r.length ++
    (arrayBytes (p :: r)).drop r.length)).dropLast

theorem clusterNodeRemoveSlave_eq {l r : List Address} (hm : s.nodes m = some node)
    (hslaves : node.slaves = l ++ p :: r) (hp : p ∉ l) :
    clusterNodeRemoveSlave s m p =
      .ok (s.store m { node with slaves := l ++ gapClosed p r }, true) := by
  have hidx : node.slaves.idxOf? p = some l.length := by
    have hnone : l.findIdx? (· == p) = none := by
      rw [findIdx?_eq_none_iff]
      intro q hq
      exact beq_eq_false_iff_ne.2 fun hqp => hp (hqp ▸ hq)
    rw [hslaves, List.idxOf?, findIdx?_append, hnone, findIdx?_cons, beq_self_eq_true, if_pos rfl]
    simp
  have hcount : node.slaves.length - 1 - l.length = r.length := by
    rw [hslaves, length_append, length_cons]
    omega
  have hl := length_arrayBytes l
  have hpr := length_arrayBytes (p :: r)
  have hr := length_arrayBytes r
  rw [length_cons] at hpr
  have hmove : memmoveSlaves node.slaves l.length (l.length + 1) r.length =
      .ok (l ++ ofArrayBytes (1 + r.length) ((arrayBytes r).take r.length ++
        (arrayBytes (p :: r)).drop r.length)) := by
    have hsrc : arrayBytes node.slaves = arrayBytes (l ++ [p]) ++ (arrayBytes r).take r.length ++
        (arrayBytes r).drop r.length := by
      rw [append_assoc, take_append_drop, ← arrayBytes_append, append_assoc, singleton_append,
        hslaves]
    have hdst : arrayBytes node.slaves = arrayBytes l ++ (arrayBytes (p :: r)).take r.length ++
        (arrayBytes (p :: r)).drop r.length := by
      rw [append_assoc, take_append_drop, ← arrayBytes_append, hslaves]
    have hmemmove : Buffer.memmove (arrayBytes node.slaves) (8 * l.length) (8 * (l.length + 1))
        r.length = .ok (arrayBytes l ++ (arrayBytes r).take r.length ++
          (arrayBytes (p :: r)).drop r.length) := by
      apply Buffer.memmove_eq hsrc hdst _ hl
      · rw [length_take]
        omega
      · rw [length_take]
        omega
      · rw [length_arrayBytes, length_append]
        rfl
    rw [memmoveSlaves, hmemmove]
    simp only [append_assoc]
    rw [hslaves, length_append, length_cons, Nat.add_comm r.length 1, ofArrayBytes_append hl,
      ofArrayBytes_arrayBytes]
  have hdrop : (l ++ ofArrayBytes (1 + r.length) ((arrayBytes r).take r.length ++
      (arrayBytes (p :: r)).drop r.length)).dropLast = l ++ gapClosed p r := by
    rw [dropLast_append_of_ne_nil (by rw [Nat.add_comm, ofArrayBytes]; exact cons_ne_nil _ _),
      gapClosed]
  simp only [clusterNodeRemoveSlave, State.deref, hm, bind, Except.bind, hidx, hcount, hmove, pure,
    Except.pure, hdrop]

theorem clusterNodeRemoveSlave_last {l : List Address} (hm : s.nodes m = some node)
    (hlast : node.slaves = l ++ [p]) (hp : p ∉ l) :
    clusterNodeRemoveSlave s m p = .ok (s.store m { node with slaves := l }, true) := by
  rw [clusterNodeRemoveSlave_eq hm hlast hp]
  have hgap : gapClosed p [] = [] := rfl
  rw [hgap, append_nil]

/-- The gap is closed if nothing is behind it, or one pointer that differs in the byte that is
moved.  Otherwise the entry before the last one stays, which is not the last one. -/
theorem gapClosed_eq_iff {r : List Address} (hnodup : (p :: r).Nodup) :
    gapClosed p r = r ↔ r = [] ∨ ∃ q, r = [q] ∧ p.toNat / 256 = q.toNat / 256 := by
  rcases eq_nil_or_concat' r with rfl | ⟨r, q, rfl⟩
  · exact iff_of_true rfl (.inl rfl)
  · rcases eq_nil_or_concat' r with rfl | ⟨r, y, rfl⟩
    · have hbytes : (arrayBytes [q]).take 1 ++ (arrayBytes [p, q]).drop 1 =
          (UInt8.ofNat q.toNat :: littleEndian 7 (p.toNat / 256)) ++ arrayBytes [q] := rfl
      have hlt : q.toNat % 256 + 256 * (p.toNat / 256) < 2 ^ 64 := by
        have := p.toNat_lt
        omega
      have hvalue : ofLittleEndian (UInt8.ofNat q.toNat :: littleEndian 7 (p.toNat / 256)) =
          q.toNat % 256 + 256 * (p.toNat / 256) := by
        rw [ofLittleEndian, ofLittleEndian_littleEndian (by omega), UInt8.toNat_ofNat']
      have hgap : gapClosed p [q] = [UInt64.ofNat (q.toNat % 256 + 256 * (p.toNat / 256))] := by
        rw [gapClosed, length_singleton, hbytes, ofArrayBytes_append (by simp), ← hvalue]
        rfl
      rw [nil_append, hgap]
      constructor
      · intro h
        have heq := congrArg UInt64.toNat (cons.inj h).1
        rw [UInt64.toNat_ofNat_of_lt' hlt] at heq
        exact .inr ⟨q, rfl, by omega⟩
      · rintro (h | ⟨q', h, heq⟩)
        · cases h
        · cases h
          rw [heq, Nat.add_comm, Nat.div_add_mod, UInt64.ofNat_toNat]
    · have hq : y ≠ q := by
        rintro rfl
        simp [nodup_append] at hnodup
      have hlen := length_arrayBytes (p :: r)
      have hlen' := length_arrayBytes (r ++ [y] ++ [q])
      have hr : (r ++ [y] ++ [q]).length = r.length + 2 := by simp
      rw [length_cons] at hlen
      have hsplit : arrayBytes (p :: (r ++ [y] ++ [q])) =
          arrayBytes (p :: r) ++ arrayBytes [y, q] := by
        rw [← arrayBytes_append]
        simp
      obtain ⟨front, hfront⟩ : ∃ front, gapClosed p (r ++ [y] ++ [q]) = front ++ [y] := by
        have htwo : ofArrayBytes 2 (arrayBytes [y, q]) = [y, q] := ofArrayBytes_arrayBytes [y, q]
        rw [gapClosed, hsplit, drop_append_of_le_length (by omega), ← append_assoc,
          show 1 + (r ++ [y] ++ [q]).length = (r.length + 1) + 2 by omega, ofArrayBytes_append
          (by rw [length_append, length_take, length_drop]; omega), htwo,
          dropLast_append_of_ne_nil (cons_ne_nil _ _)]
        exact ⟨_, rfl⟩
      rw [hfront]
      refine iff_of_false (fun h => hq ?_) ?_
      · exact (cons.inj (append_inj' h rfl).2).1
      · rintro (h | ⟨q', h, -⟩)
        · simp at h
        · simpa using congrArg length h

/-- The slave is removed, and the others stay in their order, if and only if it is the last one, or
the last but one with a pointer that differs from the last one in its low byte only. -/
theorem clusterNodeRemoveSlave_getLast {s : State} {m p : Address} {node : Node}
    (hm : s.nodes m = some node) (hnodup : node.slaves.Nodup) (hp : p ∈ node.slaves) :
    (∃ s', clusterNodeRemoveSlave s m p = .ok (s', true) ∧
      s'.nodes m = some { node with slaves := node.slaves.erase p }) ↔
    ∃ l, node.slaves = l ++ [p] ∨
      ∃ q, node.slaves = l ++ [p, q] ∧ p.toNat / 256 = q.toNat / 256 := by
  obtain ⟨l, r, hslaves⟩ := append_of_mem hp
  rw [hslaves] at hnodup
  obtain ⟨-, hpr, hdisjoint⟩ := nodup_append.1 hnodup
  have hpl : p ∉ l := fun hmem => hdisjoint p hmem p mem_cons_self rfl
  rw [clusterNodeRemoveSlave_eq hm hslaves hpl, hslaves, erase_append_right _ hpl, erase_cons_head]
  have hstore : (∃ s', (.ok (s.store m { node with slaves := l ++ gapClosed p r }, true) :
      Except Fault (State × Bool)) = .ok (s', true) ∧
      s'.nodes m = some { node with slaves := l ++ r }) ↔ gapClosed p r = r := by
    constructor
    · rintro ⟨s', hs', hnode⟩
      rw [Except.ok.injEq, Prod.mk.injEq] at hs'
      rw [← hs'.1, nodes_store, if_pos rfl, Option.some.injEq, Node.mk.injEq] at hnode
      exact append_cancel_left hnode.2.2.1
    · intro hgap
      rw [hgap]
      exact ⟨_, rfl, update_self _ _ _⟩
  rw [hstore, gapClosed_eq_iff hpr]
  constructor
  · rintro (rfl | ⟨q, rfl, hq⟩)
    · exact ⟨l, .inl rfl⟩
    · exact ⟨l, .inr ⟨q, rfl, hq⟩⟩
  · have hpr' := (nodup_cons.1 hpr).1
    rintro ⟨l', h | ⟨q, h, hq⟩⟩
    · exact .inl ((append_cons_inj_of_notMem hpl hpr').1 h).2.2
    · exact .inr ⟨q, ((append_cons_inj_of_notMem hpl hpr').1 h).2.2, hq⟩

def twoSlaves : State where
  myself := 1
  nodes p := if p = 1 then some ⟨true, false, [256, 512], none⟩ else none

theorem clusterNodeRemoveSlave_getLast_twoSlaves :
    ∃ s', clusterNodeRemoveSlave twoSlaves 1 512 = .ok (s', true) ∧
      s'.nodes 1 = some ⟨true, false, [256], none⟩ :=
  (@clusterNodeRemoveSlave_getLast twoSlaves 1 512 ⟨true, false, [256, 512], none⟩ rfl (by decide)
    (by decide)).2 ⟨[256], .inl rfl⟩

/-- The first slave is removed: one byte is moved, the slave stays and the other one is lost. -/
theorem clusterNodeRemoveSlave_first :
    (clusterNodeRemoveSlave twoSlaves 1 256).map (fun r => ((r.1.nodes 1).map Node.slaves, r.2)) =
      .ok (some [256], true) := by
  decide +kernel

theorem clusterNodeRemoveSlave_absent (hm : s.nodes m = some node) (hp : p ∉ node.slaves) :
    clusterNodeRemoveSlave s m p = .ok (s, false) := by
  have hidx := idxOf?_eq_none_iff.2 hp
  simp only [clusterNodeRemoveSlave, State.deref, hm, bind, Except.bind, hidx]
  rfl

def LastSlave (s : State) (p : Address) : Prop :=
  ∀ m, slaveofOf s p = some m → (slavesOf s m).getLast? = some p

/-- What is known after `p` has been taken from the array of its master. -/
structure Detached (s s' : State) (p : Address) : Prop where
  same : SameBut s s'
  but : LinkedBut s' p
  notMem : ∀ m, p ∉ slavesOf s' m
  sublist : ∀ m, (slavesOf s' m).Sublist (slavesOf s m)

theorem removeFromMaster_spec (h : ∀ p, LinkedAt s p) (hlast : LastSlave s p) :
    ∃ s', removeFromMaster s p (slaveofOf s p) = .ok s' ∧ Detached s s' p := by
  cases hslaveof : slaveofOf s p with
  | none =>
    exact ⟨s, rfl, SameBut.refl s, fun q _ => h q, (h p).notMem hslaveof, fun _ => List.Sublist.refl _⟩
  | some m =>
    have hcount : (slavesOf s m).count p = 1 := by rw [h p m, if_pos hslaveof]
    obtain ⟨l, hl⟩ := getLast?_eq_some_iff.1 (hlast m hslaveof)
    have hp : p ∉ l := by
      rw [hl, count_append, count_singleton_self] at hcount
      exact count_eq_zero.1 (by omega)
    cases hm : s.nodes m with
    | none =>
      rw [slavesOf, hm] at hl
      simp at hl
    | some node =>
      have hnode : node.slaves = l ++ [p] := by rw [← slavesOf_eq hm, hl]
      have hsame := sameBut_store hm l
      refine ⟨s.store m { node with slaves := l }, ?_, hsame, ?_, ?_, ?_⟩
      · rw [removeFromMaster, clusterNodeRemoveSlave_last hm hnode hp]
        rfl
      · intro q hq k
        rw [hsame.slaveofOf, ← h q k, slavesOf_store]
        split_ifs with hk
        · rw [hk, hl, count_append, count_singleton, if_neg (by simpa using Ne.symm hq)]
          rfl
        · rfl
      · intro k
        rw [slavesOf_store]
        split_ifs with hk
        · exact hp
        · rw [← count_eq_zero, h p k, hslaveof, if_neg fun hmk => hk (some.inj hmk).symm]
      · intro k
        rw [slavesOf_store]
        split_ifs with hk
        · rw [hk, hl]
          exact sublist_append_left l [p]
        · exact List.Sublist.refl _

/-- What is known after `p` has been put into the array of `master`. -/
structure Attached (s s' : State) (p master : Address) : Prop where
  same : SameBut s s'
  but : LinkedBut s' p
  row : ∀ m, (slavesOf s' m).count p = if some master = some m then 1 else 0

theorem clusterNodeAddSlave_spec {p master : Address} (h : LinkedBut s p)
    (hnot : ∀ m, p ∉ slavesOf s m) (hmaster : (s.nodes master).isSome) :
    ∃ s', clusterNodeAddSlave s master p = .ok (s', true) ∧ Attached s s' p master := by
  obtain ⟨node, hnode⟩ := isSome_iff_exists.1 hmaster
  have hp : p ∉ node.slaves := slavesOf_eq hnode ▸ hnot master
  have hsame := sameBut_store hnode (node.slaves ++ [p])
  refine ⟨s.store master { node with slaves := node.slaves ++ [p] }, ?_, hsame, ?_, ?_⟩
  · simp only [clusterNodeAddSlave, State.deref, hnode, bind, Except.bind, if_neg hp]
    rfl
  · intro q hq k
    rw [hsame.slaveofOf, ← h q hq k, slavesOf_store]
    split_ifs with hk
    · rw [hk, slavesOf_eq hnode, count_append, count_singleton,
        if_neg (by simpa using Ne.symm hq)]
      rfl
    · rfl
  · intro k
    rw [slavesOf_store]
    split_ifs with hk hk' hk'
    · rw [count_append, count_eq_zero.2 hp, count_singleton_self]
    · exact absurd (congrArg some hk.symm) hk'
    · exact absurd (some.inj hk').symm hk
    · exact count_eq_zero.2 (hnot k)

theorem LinkedBut.linked (h : LinkedBut s p) (hp : LinkedAt s p) (q : Address) : LinkedAt s q := by
  rcases eq_or_ne q p with rfl | hq
  · exact hp
  · exact h q hq

theorem Inv.of_store {node node' : Node} (hbut : LinkedBut s p)
    (hmasters : ∀ p node, s.nodes p = some node → node.isMaster = true → node.slaveof = none)
    (hp : s.nodes p = some node) (hslaves : node'.slaves = node.slaves)
    (hrow : ∀ m, (slavesOf s m).count p = if node'.slaveof = some m then 1 else 0)
    (hmaster : node'.isMaster = true → node'.slaveof = none) : Inv (s.store p node') := by
  refine ⟨(hbut.store hp hslaves).linked fun m => ?_, fun q n hq hn => ?_⟩
  · rw [slaveofOf_store, if_pos rfl, ← hrow m, slavesOf_store]
    split_ifs with hm
    · rw [hslaves, hm, slavesOf_eq hp]
    · rfl
  · rw [nodes_store] at hq
    split_ifs at hq
    · cases hq
      exact hmaster hn
    · exact hmasters q n hq hn

/-! ## Operations -/

theorem Detached.becomeMaster (hinv : Inv s) (h : Detached s s' p) (hp : s.nodes p = some node) :
    Inv (s'.store p ⟨true, false, slavesOf s' p, none⟩) := by
  refine Inv.of_store h.but (h.same.masters hinv.masters) (h.same.get hp) rfl (fun m => ?_)
    fun _ => rfl
  rw [count_eq_zero.2 (h.notMem m), if_neg (by simp)]

theorem clusterSetNodeAsMaster_spec (h : Inv s) (hlast : LastSlave s p) (hp : (s.nodes p).isSome) :
    ∃ s', clusterSetNodeAsMaster s p = .ok s' ∧ Inv s' := by
  obtain ⟨node, hnode⟩ := isSome_iff_exists.1 hp
  simp only [clusterSetNodeAsMaster, State.deref, hnode, bind, Except.bind]
  split_ifs with hmaster
  · exact ⟨s, rfl, h⟩
  · obtain ⟨s', hremove, hdetached⟩ := removeFromMaster_spec h.linked hlast
    rw [slaveofOf_eq hnode] at hremove
    simp only [hremove, hdetached.same.get hnode]
    exact ⟨_, rfl, hdetached.becomeMaster h hnode⟩

theorem promoteMyself_spec (h : Inv s) (hlast : LastSlave s s.myself) :
    Meets (promoteMyself s) Inv fun e => e = .noMyself := by
  cases hnode : s.nodes s.myself with
  | none => simp only [promoteMyself, State.derefMyself, hnode, bind, Except.bind, meets_error]
  | some node =>
    obtain ⟨s', hremove, hdetached⟩ := removeFromMaster_spec h.linked hlast
    rw [slaveofOf_eq hnode] at hremove
    simp only [promoteMyself, State.derefMyself, hnode, bind, Except.bind]
    cases hslaveof : node.slaveof with
    | none => exact h
    | some m =>
      rw [hslaveof, removeFromMaster] at hremove
      cases hstep : clusterNodeRemoveSlave s m s.myself with
      | error e =>
        rw [hstep] at hremove
        cases hremove
      | ok r =>
        rw [hstep] at hremove
        obtain rfl : r.1 = s' := Except.ok.inj hremove
        simp only [hstep, hdetached.same.myself, hdetached.same.get hnode]
        exact hdetached.becomeMaster h hnode

theorem linkTo_spec {p master : Address} {node : Node} (hbut : LinkedBut s p)
    (hmasters : ∀ p node, s.nodes p = some node → node.isMaster = true → node.slaveof = none)
    (hnot : ∀ m, p ∉ slavesOf s m) (hp : s.nodes p = some node) (hslave : node.isMaster = false)
    (hmaster : (s.nodes master).isSome) :
    ∃ s', clusterNodeAddSlave (s.store p { node with slaveof := some master }) master p =
      .ok (s', true) ∧ Inv s' := by
  have hmaster' : ((s.store p { node with slaveof := some master }).nodes master).isSome := by
    rw [nodes_store]
    split_ifs
    · rfl
    · exact hmaster
  obtain ⟨s', hadd, hattached⟩ := clusterNodeAddSlave_spec
    (@LinkedBut.store s p node { node with slaveof := some master } hbut hp rfl)
    (@notMem_store s p node { node with slaveof := some master } hnot hp rfl) hmaster'
  refine ⟨s', hadd, hattached.but.linked fun m => ?_, hattached.same.masters fun q n hq hn => ?_⟩
  · rw [hattached.row m, hattached.same.slaveofOf, slaveofOf_store, if_pos rfl]
  · rw [nodes_store] at hq
    split_ifs at hq
    · cases hq
      rw [hslave] at hn
      cases hn
    · exact hmasters q n hq hn

theorem loadSlaveof_spec (h : Inv s) {master : Address} (hp : s.nodes p = some node)
    (hslave : node.isMaster = false) (hnone : node.slaveof = none)
    (hmaster : (s.nodes master).isSome) : ∃ s', loadSlaveof s p master = .ok s' ∧ Inv s' := by
  obtain ⟨s', hadd, hinv⟩ := @linkTo_spec s p master node (fun q _ => h.linked q) h.masters
    ((h.linked p).notMem (by rw [slaveofOf_eq hp, hnone])) hp hslave hmaster
  refine ⟨s', ?_, hinv⟩
  simp only [loadSlaveof, State.deref, hp, bind, Except.bind, hadd]
  rfl

theorem leaveMaster_spec (h : Inv s) (hlast : LastSlave s s.myself)
    (hnode : s.nodes s.myself = some node) :
    ∃ s' node', leaveMaster s node = .ok s' ∧ s'.myself = s.myself ∧
      s'.nodes s.myself = some node' ∧ node'.isMaster = false ∧
      LinkedBut s' s.myself ∧ (∀ m, s.myself ∉ slavesOf s' m) ∧
      (∀ q, (s.nodes q).isSome → (s'.nodes q).isSome) ∧
      ∀ p node, s'.nodes p = some node → node.isMaster = true → node.slaveof = none := by
  rw [leaveMaster]
  cases hmaster : node.isMaster with
  | true =>
    have hnone := h.masters _ _ hnode hmaster
    have hnot := (h.linked s.myself).notMem (by rw [slaveofOf_eq hnode, hnone])
    have hstore := @Inv.of_store s s.myself node { node with isMaster := false, isSlave := true }
      (fun q _ => h.linked q) h.masters hnode rfl
      (fun m => by rw [h.linked s.myself m, slaveofOf_eq hnode]) (fun hf => by cases hf)
    refine ⟨_, _, rfl, rfl, by rw [nodes_store, if_pos rfl], rfl, fun q _ => hstore.linked q,
      notMem_store hnot hnode rfl, fun q hq => ?_, hstore.masters⟩
    rw [nodes_store]
    split_ifs
    · rfl
    · exact hq
  | false =>
    obtain ⟨s', hremove, hdetached⟩ := removeFromMaster_spec h.linked hlast
    rw [slaveofOf_eq hnode] at hremove
    refine ⟨s', _, hremove, hdetached.same.myself, hdetached.same.get hnode, hmaster,
      hdetached.but, hdetached.notMem, fun q hq => ?_, hdetached.same.masters h.masters⟩
    rwa [hdetached.same.nodes, isSome_map]

theorem clusterSetMaster_spec (h : Inv s) (hlast : LastSlave s s.myself) (hp : (s.nodes p).isSome)
    (numslots : ℕ) :
    Meets (clusterSetMaster s p numslots) Inv fun e => e = .noMyself ∨ e = .setMasterAssert := by
  rw [clusterSetMaster]
  split_ifs with hassert
  · exact .inr rfl
  cases hnode : s.nodes s.myself with
  | none =>
    simp only [State.derefMyself, hnode, bind, Except.bind, meets_error, true_or]
  | some node =>
    obtain ⟨s', node', hleave, hmyself, hnode', hslave, hbut, hnot, hpresent, hmasters⟩ :=
      leaveMaster_spec h hlast hnode
    obtain ⟨s'', hadd, hinv⟩ := linkTo_spec hbut hmasters hnot hnode' hslave (hpresent p hp)
    simp only [State.derefMyself, hnode, bind, Except.bind, hleave, hmyself, hnode', myself_store,
      hadd]
    exact hinv

theorem demote_spec (h : Inv s) (hp : s.nodes p = some node)
    (hslaves : node.isMaster = true → node.slaves = []) :
    ∃ node', Inv (demote s p node) ∧ (demote s p node).nodes p = some node' ∧
      node'.isMaster = false ∧ node'.slaveof = node.slaveof ∧
      (∀ m, slavesOf (demote s p node) m = slavesOf s m) ∧
      ∀ q, (s.nodes q).isSome → ((demote s p node).nodes q).isSome := by
  rw [demote]
  split_ifs with hmaster
  · have hsame : [] = node.slaves := (hslaves hmaster).symm
    have hstore := @Inv.of_store s p node ⟨false, true, [], node.slaveof⟩
      (fun q _ => h.linked q) h.masters hp hsame
      (fun m => by rw [h.linked p m, slaveofOf_eq hp]) (fun hf => by cases hf)
    refine ⟨⟨false, true, [], node.slaveof⟩, hstore, by rw [nodes_store, if_pos rfl], rfl, rfl,
      fun m => ?_, fun q hq => ?_⟩
    · rw [slavesOf_store]
      split_ifs with hm
      · rw [hm, slavesOf_eq hp, hslaves hmaster]
      · rfl
    · rw [nodes_store]
      split_ifs
      · rfl
      · exact hq
  · exact ⟨node, h, hp, by simpa using hmaster, rfl, fun _ => rfl, fun _ => id⟩

theorem changeMaster_spec (h : Inv s) {sender master : Address} (hp : s.nodes sender = some node)
    (hslave : node.isMaster = false) (hmaster : (s.nodes master).isSome)
    (hlast : slaveofOf s sender ≠ some master → LastSlave s sender) :
    ∃ s', changeMaster s sender master = .ok s' ∧ Inv s' := by
  simp only [changeMaster, State.deref, hp, bind, Except.bind]
  split_ifs with hsame
  · exact ⟨s, rfl, h⟩
  · obtain ⟨s', hremove, hdetached⟩ :=
      removeFromMaster_spec h.linked (hlast (by rwa [slaveofOf_eq hp]))
    rw [slaveofOf_eq hp] at hremove
    obtain ⟨s'', hadd, hattached⟩ := @clusterNodeAddSlave_spec s' sender master hdetached.but
      hdetached.notMem (by rwa [hdetached.same.nodes, isSome_map])
    have hnode := hattached.same.get (hdetached.same.get hp)
    simp only [hremove, hadd, hnode]
    refine ⟨_, rfl, Inv.of_store hattached.but
      (hattached.same.masters (hdetached.same.masters h.masters)) hnode rfl hattached.row ?_⟩
    intro hf
    rw [hslave] at hf
    cases hf

theorem createNode_spec (h : Inv s) (p : Address) (isMaster isSlave : Bool) :
    Inv (createNode s p isMaster isSlave) := by
  rw [createNode]
  split_ifs with hp
  · exact h
  have hnone : s.nodes p = none := by simpa using hp
  have hslaves : ∀ m, slavesOf (s.store p ⟨isMaster, isSlave, [], none⟩) m = slavesOf s m := by
    intro m
    rw [slavesOf_store]
    split_ifs with hm
    · rw [hm, slavesOf, hnone]
    · rfl
  have hslaveof : ∀ q, slaveofOf (s.store p ⟨isMaster, isSlave, [], none⟩) q = slaveofOf s q := by
    intro q
    rw [slaveofOf_store]
    split_ifs with hq
    · rw [hq, slaveofOf, hnone]
      rfl
    · rfl
  refine ⟨fun q m => by rw [hslaves, hslaveof, h.linked q m], fun q node hq hmaster => ?_⟩
  rw [nodes_store] at hq
  split_ifs at hq
  · rw [← some.inj hq]
  · exact h.masters q node hq hmaster

theorem removeFromMaster_absent {slaveof : Option Address} (hnot : ∀ m, p ∉ slavesOf s m)
    (hpresent : ∀ m, slaveof = some m → (s.nodes m).isSome) :
    removeFromMaster s p slaveof = .ok s := by
  cases slaveof with
  | none => rfl
  | some m =>
    obtain ⟨node, hnode⟩ := isSome_iff_exists.1 (hpresent m rfl)
    rw [removeFromMaster, clusterNodeRemoveSlave_absent hnode (slavesOf_eq hnode ▸ hnot m)]
    rfl

theorem LinkedAt.present (h : LinkedAt s p) (hm : slaveofOf s p = some m) : (s.nodes m).isSome := by
  have hcount := h m
  rw [if_pos hm, slavesOf] at hcount
  cases hnode : s.nodes m with
  | none => simp [hnode] at hcount
  | some node => rfl

theorem Detached.delete {s s' : State} (hinv : Inv s) (h : Detached s s' p)
    (hslaves : slavesOf s p = []) : Inv { s' with nodes := update s'.nodes p none } := by
  have hempty : slavesOf s' p = [] := sublist_nil.1 (hslaves ▸ h.sublist p)
  have hsame : ∀ m, slavesOf { s' with nodes := update s'.nodes p none } m =
      slavesOf s' m := by
    intro m
    rw [slavesOf]
    simp only [update_apply]
    split_ifs with hm
    · rw [hm, hempty]
    · rfl
  refine ⟨fun q m => ?_, fun q node hq hmaster => ?_⟩
  · rw [hsame, slaveofOf]
    simp only [update_apply]
    split_ifs with hq hm hm
    · cases hm
    · rw [hq]
      exact count_eq_zero.2 (h.notMem m)
    · rw [h.but q hq m, slaveofOf, if_pos hm]
    · rw [h.but q hq m, slaveofOf, if_neg hm]
  · simp only [update_apply] at hq
    split_ifs at hq
    exact h.same.masters hinv.masters q node hq hmaster

theorem clusterDelNode_spec (h : Inv s) (hp : (s.nodes p).isSome) (hslaves : slavesOf s p = [])
    (hlast : LastSlave s p) : ∃ s', clusterDelNode s p = .ok s' ∧ Inv s' := by
  obtain ⟨node, hnode⟩ := isSome_iff_exists.1 hp
  obtain ⟨s', hremove, hdetached⟩ := removeFromMaster_spec h.linked hlast
  refine ⟨_, ?_, hdetached.delete h hslaves⟩
  rw [slaveofOf_eq hnode] at hremove
  simp only [clusterDelNode, State.deref, hnode, bind, Except.bind, freeClusterNode]
  cases hslave : node.isSlave with
  | false =>
    have hfirst : removeFromMaster s p none = .ok s := rfl
    simp only [Bool.false_eq_true, if_false, hfirst, hnode, hremove]
    rfl
  | true =>
    -- the node has left its master when it is freed
    have hagain : removeFromMaster s' p node.slaveof = .ok s' := by
      refine removeFromMaster_absent hdetached.notMem fun m hm => ?_
      rw [hdetached.same.nodes, isSome_map]
      exact (h.linked p).present (by rw [slaveofOf_eq hnode, hm])
    simp only [if_true, hremove, hdetached.same.get hnode, hagain]
    rfl

/-! ## Runs -/

/-- The links of a state: no `slaveof` dangles, and both ends agree. -/
structure LinksOk (s : State) : Prop where
  slaveof : ∀ p node m, s.nodes p = some node → node.slaveof = some m →
    ∃ master, s.nodes m = some master ∧ master.slaves.count p = 1
  slaves : ∀ m master p, s.nodes m = some master → p ∈ master.slaves →
    ∃ node, s.nodes p = some node ∧ node.slaveof = some m

theorem Inv.linksOk (h : Inv s) : LinksOk s where
  slaveof p node m hp hm := by
    have hslaveof : slaveofOf s p = some m := by rw [slaveofOf_eq hp, hm]
    obtain ⟨master, hmaster⟩ := isSome_iff_exists.1 ((h.linked p).present hslaveof)
    exact ⟨master, hmaster, by rw [← slavesOf_eq hmaster, h.linked p m, if_pos hslaveof]⟩
  slaves m master p hm hp := by
    have hcount := h.linked p m
    rw [slavesOf_eq hm] at hcount
    split_ifs at hcount with hslaveof
    · obtain ⟨node, hnode, hm'⟩ := bind_eq_some_iff.1 hslaveof
      exact ⟨node, hnode, hm'⟩
    · exact absurd hp (count_eq_zero.1 hcount)

/-- The condition on the state before an operation: a node leaves its master as the last slave of
the array, a master that turns into a slave or is deleted has no slaves, and the configuration file
names the master of a node that is a slave and has none yet. -/
def StepClean (s : State) : Op → Prop
  | .createNode _ _ _ => True
  | .loadSlaveof p _ => ∀ node, s.nodes p = some node → node.isMaster = false ∧ node.slaveof = none
  | .setMaster _ _ => LastSlave s s.myself
  | .setNodeAsMaster p => LastSlave s p
  | .packet sender none => LastSlave s sender
  | .packet sender (some name) =>
    (∀ node, s.nodes sender = some node → node.isMaster = true → node.slaves = []) ∧
      ((s.nodes name).isSome → slaveofOf s sender ≠ some name → LastSlave s sender)
  | .promoteMyself => LastSlave s s.myself
  | .delNode p => slavesOf s p = [] ∧ LastSlave s p

/-- How a run can stop: this node is deleted or `clusterSetMaster` fails its assertion.  No dangling
pointer is dereferenced. -/
def Stops (e : Fault) : Prop := e = .noMyself ∨ e = .setMasterAssert

theorem isSome_clusterLookupNode : (clusterLookupNode s p).isSome ↔ (s.nodes p).isSome := by
  rw [clusterLookupNode]
  split_ifs with h <;> simp [h]

theorem checkRoleSwitch_spec (h : Inv s) {sender : Address} {slaveof : Option Address}
    (hp : (s.nodes sender).isSome) (hclean : StepClean s (.packet sender slaveof)) :
    ∃ s', checkRoleSwitch s sender slaveof = .ok s' ∧ Inv s' := by
  cases slaveof with
  | none => exact clusterSetNodeAsMaster_spec h hclean hp
  | some name =>
    obtain ⟨node, hnode⟩ := isSome_iff_exists.1 hp
    obtain ⟨node', hinv, hnode', hslave, hslaveof, hslaves, hpresent⟩ :=
      demote_spec h hnode (hclean.1 node hnode)
    simp only [checkRoleSwitch, State.deref, hnode, bind, Except.bind, clusterLookupNode]
    split_ifs with hname
    · refine changeMaster_spec hinv hnode' hslave (hpresent name hname) fun hne m hm => ?_
      rw [slaveofOf_eq hnode', hslaveof, ← slaveofOf_eq hnode] at hne hm
      rw [hslaves]
      exact hclean.2 hname hne m hm
    · exact ⟨_, rfl, hinv⟩

theorem step_inv {op : Op} (h : Inv s) (hclean : StepClean s op) : Meets (step s op) Inv Stops := by
  have hok : ∀ {x : Except Fault State}, (∃ s', x = .ok s' ∧ Inv s') → Meets x Inv Stops :=
    fun hx => (meets_false_iff.2 hx).mono (fun _ => id) fun _ => False.elim
  cases op with
  | createNode p isMaster isSlave => exact createNode_spec h p isMaster isSlave
  | loadSlaveof p master =>
    rw [step]
    split_ifs with hlookup
    · obtain ⟨node, hnode⟩ := isSome_iff_exists.1 (isSome_clusterLookupNode.1 hlookup.1)
      obtain ⟨hslave, hnone⟩ := hclean node hnode
      exact hok (loadSlaveof_spec h hnode hslave hnone (isSome_clusterLookupNode.1 hlookup.2))
    · exact h
  | setMaster p numslots =>
    rw [step]
    split_ifs with hlookup
    · exact clusterSetMaster_spec h hclean (isSome_clusterLookupNode.1 hlookup) numslots
    · exact h
  | setNodeAsMaster p =>
    rw [step]
    split_ifs with hlookup
    · exact hok (clusterSetNodeAsMaster_spec h hclean (isSome_clusterLookupNode.1 hlookup))
    · exact h
  | packet sender slaveof =>
    rw [step]
    split_ifs with hlookup
    · exact hok (checkRoleSwitch_spec h (isSome_clusterLookupNode.1 hlookup) hclean)
    · exact h
  | promoteMyself => exact (promoteMyself_spec h hclean).mono (fun _ => id) fun _ => .inl
  | delNode p =>
    rw [step]
    split_ifs with hlookup
    · exact hok (clusterDelNode_spec h (isSome_clusterLookupNode.1 hlookup) hclean.1 hclean.2)
    · exact h

def Unlinked (s : State) : Prop :=
  ∀ p node, s.nodes p = some node → node.slaves = [] ∧ node.slaveof = none

theorem Unlinked.inv (h : Unlinked s) : Inv s where
  linked p m := by
    have hslaves : slavesOf s m = [] := by
      rw [slavesOf]
      cases hm : s.nodes m with
      | none => rfl
      | some node => exact (h m node hm).1
    have hslaveof : slaveofOf s p = none := by
      rw [slaveofOf]
      cases hp : s.nodes p with
      | none => rfl
      | some node => exact (h p node hp).2
    rw [hslaves, hslaveof]
    rfl
  masters p node hp _ := (h p node hp).2

/-- In every run whose steps are clean the links are right in the state reached, and no dangling
pointer has been dereferenced. -/
theorem links_never_dangle {s : State} (h : Unlinked s) {ops : List Op}
    (hclean : AllSteps step StepClean s ops) : Meets (ops.foldlM step s) LinksOk Stops :=
  (Meets.foldlM_of_allSteps (fun _ _ => step_inv) h.inv hclean).mono (fun _ => Inv.linksOk)
    fun _ => id

/-! ## Broken links -/

def alone : State := ⟨1000, update (fun _ => none) 1000 (some ⟨true, false, [], none⟩)⟩

theorem unlinked_alone : Unlinked alone := by
  intro p node hp
  rw [alone] at hp
  simp only [update_apply] at hp
  split_ifs at hp
  rw [← some.inj hp]
  exact ⟨rfl, rfl⟩

theorem lastSlave_iff : LastSlave s p ↔
    (slaveofOf s p).all fun m => (slavesOf s m).getLast? = some p := by
  rw [LastSlave, Option.all_eq_true]
  simp only [decide_eq_true_eq]

instance (s : State) (p : Address) : Decidable (LastSlave s p) := decidable_of_iff _ lastSlave_iff.symm

instance (s : State) : DecidablePred (StepClean s)
  | .createNode _ _ _ => inferInstanceAs (Decidable True)
  | .loadSlaveof p _ => inferInstanceAs (Decidable (∀ node ∈ s.nodes p, _ ∧ _))
  | .setMaster _ _ => inferInstanceAs (Decidable (LastSlave s s.myself))
  | .setNodeAsMaster p => inferInstanceAs (Decidable (LastSlave s p))
  | .packet sender none => inferInstanceAs (Decidable (LastSlave s sender))
  | .packet sender (some _) =>
    inferInstanceAs (Decidable ((∀ node ∈ s.nodes sender, _ → _) ∧ (_ → _ → _)))
  | .promoteMyself => inferInstanceAs (Decidable (LastSlave s s.myself))
  | .delNode p => inferInstanceAs (Decidable (slavesOf s p = [] ∧ LastSlave s p))

/-- Two slaves of this node; the second one becomes a master and the first one its slave. -/
def failover : List Op :=
  [.createNode 2000 false true, .createNode 3000 false true, .loadSlaveof 2000 1000,
    .loadSlaveof 3000 1000, .packet 3000 none, .packet 2000 (some 3000), .delNode 2000]

theorem links_never_dangle_failover : Unlinked alone ∧ AllSteps step StepClean alone failover ∧
    Meets (failover.foldlM step alone) LinksOk Stops := by
  have hclean : AllSteps step StepClean alone failover := by decide +kernel
  exact ⟨unlinked_alone, hclean, links_never_dangle unlinked_alone hclean⟩

/-- The first of two slaves becomes a master; a byte of the second pointer is moved. -/
def firstSlaveLeaves : List Op :=
  [.createNode 2000 false true, .createNode 3000 false true, .loadSlaveof 2000 1000,
    .loadSlaveof 3000 1000, .packet 2000 none]

def masterDemoted : List Op :=
  [.createNode 2000 true false, .createNode 3000 false true, .loadSlaveof 3000 2000,
    .packet 2000 (some 1000)]

def masterDeleted : List Op :=
  [.createNode 2000 true false, .createNode 3000 false true, .loadSlaveof 3000 2000, .delNode 2000]

theorem not_linksOk {p m : Address} (hp : slaveofOf s p = some m)
    (hm : p ∉ slavesOf s m) : ¬ LinksOk s := by
  intro h
  obtain ⟨node, hnode, hslaveof⟩ := bind_eq_some_iff.1 hp
  obtain ⟨master, hmaster, hcount⟩ := h.slaveof p node m hnode hslaveof
  rw [slavesOf_eq hmaster] at hm
  rw [count_eq_zero.2 hm] at hcount
  cases hcount

theorem links_broken : Unlinked alone ∧
    (∃ s, firstSlaveLeaves.foldlM step alone = .ok s ∧ ¬ LinksOk s) ∧
    (∃ s, masterDemoted.foldlM step alone = .ok s ∧ ¬ LinksOk s) ∧
    (∃ s, masterDeleted.foldlM step alone = .ok s ∧ ¬ LinksOk s) := by
  refine ⟨unlinked_alone, ⟨_, rfl, ?_⟩, ⟨_, rfl, ?_⟩, ⟨_, rfl, ?_⟩⟩
  · exact @not_linksOk _ 3000 1000 rfl (by decide +kernel)
  · exact @not_linksOk _ 3000 2000 rfl (by decide +kernel)
  · exact @not_linksOk _ 3000 2000 rfl (by decide +kernel)

end ServerStack.Redis.Cluster.Links
