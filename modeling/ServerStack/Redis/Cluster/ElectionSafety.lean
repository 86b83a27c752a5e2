import ServerStack.Redis.Cluster.Election

/-!
# Agreement of slave elections

A master votes once in an epoch, and a slave asks for votes in increasing epochs.  As long as no
ACK of an earlier attempt is counted between the reset of the counter and the next request, the
counter is at most the number of masters that voted for the slave in its epoch, so two slaves
cannot win the same epoch.
-/

namespace ServerStack.Redis.Cluster.Election

open Outcome List Function

variable {ι : Type}

/-! ## What a step does -/

/-- The fields that the safety of elections rests on are unchanged. -/
structure SameVotes (n n' : Node ι) : Prop where
  currentEpoch_eq : n'.currentEpoch = n.currentEpoch
  lastVoteEpoch_eq : n'.lastVoteEpoch = n.lastVoteEpoch
  failoverAuthEpoch_eq : n'.failoverAuthEpoch = n.failoverAuthEpoch
  failoverAuthSent_eq : n'.failoverAuthSent = n.failoverAuthSent
  failoverAuthCount_eq : n'.failoverAuthCount = n.failoverAuthCount

/-- The possible effects of `clusterHandleSlaveFailover`. -/
inductive FailoverEffect (me : ι) (size : ℕ) (n : Node ι) (r : Effect ι) : Prop where
  | quiet (same : SameVotes n r.node) (sent : ∀ msg ∈ r.sent, msg.type = .other)
      (won : r.won = none)
  | scheduled (current : r.node.currentEpoch = n.currentEpoch)
      (vote : r.node.lastVoteEpoch = n.lastVoteEpoch)
      (epoch : r.node.failoverAuthEpoch = n.failoverAuthEpoch)
      (reset : r.node.failoverAuthCount = 0) (sent : ∀ msg ∈ r.sent, msg.type = .other)
      (won : r.won = none)
  | started (unsent : n.failoverAuthSent = false) (current : r.node.currentEpoch = n.currentEpoch + 1)
      (vote : r.node.lastVoteEpoch = n.lastVoteEpoch)
      (epoch : r.node.failoverAuthEpoch = n.currentEpoch + 1)
      (count : r.node.failoverAuthCount = n.failoverAuthCount)
      (sent : ∀ msg ∈ r.sent, msg.type = .authRequest ∧ msg.sender = me ∧
        msg.currentEpoch = n.currentEpoch + 1)
      (won : r.won = none)
  | promoted (asked : n.failoverAuthSent = true) (quorum : size / 2 + 1 ≤ n.failoverAuthCount)
      (same : SameVotes n r.node) (sent : ∀ msg ∈ r.sent, msg.type = .other)
      (won : r.won = some n.failoverAuthEpoch)

theorem updateRank_same (view : FailoverView ι) (n : Node ι) : SameVotes n (updateRank view n) := by
  rw [updateRank]
  split_ifs
  · exact ⟨rfl, rfl, rfl, rfl, rfl⟩
  · exact ⟨rfl, rfl, rfl, rfl, rfl⟩

theorem slaveHeader_type {me : ι} {n : Node ι} {master : MasterView} {type : MsgType} {peers : List ι}
    {msg : Msg ι} (h : msg ∈ peers.map (slaveHeader me n master type)) : msg.type = type := by
  obtain ⟨peer, -, rfl⟩ := mem_map.1 h
  rfl

theorem failover_effect (me : ι) (isMaster : Bool) (size : ℕ) (view : FailoverView ι) (n : Node ι) :
    FailoverEffect me size n (clusterHandleSlaveFailover me isMaster size view n) := by
  rw [clusterHandleSlaveFailover]
  simp only
  cases failoverMaster isMaster view with
  | none => exact .quiet ⟨rfl, rfl, rfl, rfl, rfl⟩ (fun msg hmsg => by cases hmsg) rfl
  | some master =>
    have hsame := updateRank_same view n
    have hnone : ∀ msg ∈ ([] : List (Msg ι)), msg.type = .other := fun msg hmsg => by cases hmsg
    split_ifs with hretry hearly hlate hunsent hquorum
    · exact .scheduled rfl rfl rfl rfl (fun msg => slaveHeader_type) rfl
    · exact .quiet hsame hnone rfl
    · exact .quiet hsame hnone rfl
    · refine .started (hsame.failoverAuthSent_eq.symm.trans hunsent) ?_ hsame.lastVoteEpoch_eq ?_
        hsame.failoverAuthCount_eq ?_ rfl
      · exact congrArg (· + 1) hsame.currentEpoch_eq
      · exact congrArg (· + 1) hsame.currentEpoch_eq
      · intro msg hmsg
        obtain ⟨peer, -, rfl⟩ := mem_map.1 hmsg
        exact ⟨rfl, rfl, congrArg (· + 1) hsame.currentEpoch_eq⟩
    · refine .promoted ?_ ?_ ?_ (fun msg => slaveHeader_type) ?_
      · rw [← hsame.failoverAuthSent_eq]
        simpa using hunsent
      · rw [← hsame.failoverAuthCount_eq]
        exact hquorum
      · exact ⟨hsame.currentEpoch_eq, hsame.lastVoteEpoch_eq, hsame.failoverAuthEpoch_eq,
          hsame.failoverAuthSent_eq, hsame.failoverAuthCount_eq⟩
      · exact congrArg some hsame.failoverAuthEpoch_eq
    · exact .quiet hsame hnone rfl

/-- What a message can do beyond the update of the epoch. -/
inductive PacketKind (masters : Finset ι) (hdr : Msg ι) (n : Node ι) (r : Node ι × List (Msg ι)) :
    Prop where
  | quiet (vote : r.1.lastVoteEpoch = n.lastVoteEpoch)
      (count : r.1.failoverAuthCount = n.failoverAuthCount) (sent : r.2 = [])
  | voted (request : hdr.type = .authRequest) (voter : hdr.receiver ∈ masters)
      (fresh : n.lastVoteEpoch ≠ hdr.currentEpoch) (newest : n.currentEpoch ≤ hdr.currentEpoch)
      (vote : r.1.lastVoteEpoch = hdr.currentEpoch)
      (count : r.1.failoverAuthCount = n.failoverAuthCount)
      (sent : r.2 = [] ∨ ∃ ack : Msg ι, r.2 = [ack] ∧ ack.type = .authAck ∧
        ack.sender = hdr.receiver ∧ ack.receiver = hdr.sender ∧
        ack.currentEpoch = hdr.currentEpoch)
  | counted (ack : hdr.type = .authAck) (voter : hdr.sender ∈ masters)
      (recent : n.failoverAuthEpoch ≤ hdr.currentEpoch)
      (vote : r.1.lastVoteEpoch = n.lastVoteEpoch)
      (count : r.1.failoverAuthCount = n.failoverAuthCount + 1) (sent : r.2 = [])

structure PacketEffect (masters : Finset ι) (hdr : Msg ι) (n : Node ι) (r : Node ι × List (Msg ι)) :
    Prop where
  current : r.1.currentEpoch = max n.currentEpoch hdr.currentEpoch
  epoch : r.1.failoverAuthEpoch = n.failoverAuthEpoch
  asked : r.1.failoverAuthSent = n.failoverAuthSent
  kind : PacketKind masters hdr n r

variable [DecidableEq ι] {hdr : Msg ι} {masters : Finset ι} {s : System ι} {i : ℕ}

theorem sendFailoverAuth_effect (view : VoteView ι) {n n₁ : Node ι}
    (htype : hdr.type = .authRequest) (hvoter : hdr.receiver ∈ masters)
    (hn₁ : n₁ = { n with currentEpoch := max n.currentEpoch hdr.currentEpoch }) :
    PacketEffect masters hdr n (clusterSendFailoverAuthIfNeeded view hdr n₁) := by
  have hquiet : PacketEffect masters hdr n (n₁, []) := by
    subst hn₁
    exact ⟨rfl, rfl, rfl, .quiet rfl rfl rfl⟩
  obtain ⟨r, hr⟩ : ∃ r, r = clusterSendFailoverAuthIfNeeded view hdr n₁ := ⟨_, rfl⟩
  rw [← hr]
  rw [clusterSendFailoverAuthIfNeeded] at hr
  by_cases hold : hdr.currentEpoch < n₁.currentEpoch
  · rw [hr, if_pos hold]
    exact hquiet
  rw [if_neg hold] at hr
  by_cases hvoted : n₁.lastVoteEpoch = n₁.currentEpoch
  · rw [hr, if_pos hvoted]
    exact hquiet
  rw [if_neg hvoted] at hr
  cases hslaveof : view.slaveof with
  | none =>
    rw [hr, hslaveof]
    exact hquiet
  | some master =>
    simp only [hslaveof] at hr
    split_ifs at hr with hrefused hrecent hclaim hlink
    · exact hr ▸ hquiet
    · exact hr ▸ hquiet
    · exact hr ▸ hquiet
    all_goals
      subst hr hn₁
      simp only at hold hvoted
      have hepoch : max n.currentEpoch hdr.currentEpoch = hdr.currentEpoch := by omega
      rw [hepoch] at hvoted
      refine ⟨rfl, rfl, rfl, .voted htype hvoter hvoted (by omega) hepoch rfl ?_⟩
    · exact .inr ⟨_, rfl, rfl, rfl, rfl, hepoch⟩
    · exact .inl rfl

theorem processPacket_effect (masters : Finset ι) (view : VoteView ι) (hdr : Msg ι) (n : Node ι) :
    PacketEffect masters hdr n (clusterProcessPacket masters view hdr n) := by
  have hseen : (if hdr.currentEpoch > n.currentEpoch then { n with currentEpoch := hdr.currentEpoch }
      else n) = { n with currentEpoch := max n.currentEpoch hdr.currentEpoch } := by
    split_ifs with hgt
    · rw [max_eq_right hgt.le]
    · rw [max_eq_left (by omega)]
  rw [clusterProcessPacket, hseen]
  cases htype : hdr.type with
  | authRequest =>
    simp only
    split_ifs with hvoter
    · exact sendFailoverAuth_effect view htype hvoter rfl
    · exact ⟨rfl, rfl, rfl, .quiet rfl rfl rfl⟩
  | authAck =>
    simp only
    split_ifs with hcounted
    · exact ⟨rfl, rfl, rfl, .counted htype hcounted.1 hcounted.2 rfl rfl rfl⟩
    · exact ⟨rfl, rfl, rfl, .quiet rfl rfl rfl⟩
  | other => exact ⟨rfl, rfl, rfl, .quiet rfl rfl rfl⟩

/-! ## The invariant -/

def System.acks (s : System ι) : List (Msg ι) :=
  s.inFlight.filter (fun msg => decide (msg.type = .authAck)) ++ s.processed

def System.votesFor (s : System ι) (slave : ι) (epoch : ℕ) : ℕ :=
  s.processed.countP fun msg => decide (msg.receiver = slave ∧ msg.currentEpoch = epoch)

structure ElectionInv (masters : Finset ι) (s : System ι) : Prop where
  vote_le : ∀ n, (s.node n).lastVoteEpoch ≤ (s.node n).currentEpoch
  auth_le : ∀ n, (s.node n).failoverAuthEpoch ≤ (s.node n).currentEpoch
  request_le : ∀ msg ∈ s.inFlight, msg.type = .authRequest →
    msg.currentEpoch ≤ (s.node msg.sender).failoverAuthEpoch
  ack_voter : ∀ msg ∈ s.acks, msg.sender ∈ masters
  ack_le_vote : ∀ msg ∈ s.acks, msg.currentEpoch ≤ (s.node msg.sender).lastVoteEpoch
  ack_le_auth : ∀ msg ∈ s.acks, msg.currentEpoch ≤ (s.node msg.receiver).failoverAuthEpoch
  /-- A master votes once in an epoch. -/
  ack_nodup : (s.acks.map fun msg => (msg.sender, msg.currentEpoch)).Nodup
  /-- The counter counts votes of the epoch of the election. -/
  count_le : ∀ n, (s.node n).failoverAuthCount ≤
    if (s.node n).failoverAuthSent then s.votesFor n (s.node n).failoverAuthEpoch else 0
  won_quorum : ∀ w ∈ s.won, masters.card / 2 + 1 ≤ s.votesFor w.1 w.2

theorem Initial.electionInv (h : Initial s) : ElectionInv masters s := by
  have hacks : s.acks = [] := by simp [System.acks, h.inFlight_eq, h.processed_eq]
  constructor
  · exact fun n => by rw [h.lastVoteEpoch_eq]; exact Nat.zero_le _
  · exact fun n => by rw [h.failoverAuthEpoch_eq]; exact Nat.zero_le _
  · simp [h.inFlight_eq]
  · simp [hacks]
  · simp [hacks]
  · simp [hacks]
  · simp [hacks]
  · exact fun n => by rw [h.failoverAuthCount_eq]; exact Nat.zero_le _
  · simp [h.won_eq]

theorem update_le {x : ι} {n' : Node ι} {f : Node ι → ℕ} (h : f (s.node x) ≤ f n') :
    ∀ y, f (s.node y) ≤ f (update s.node x n' y) :=
  (forall_update_iff s.node fun y n => f (s.node y) ≤ f n).2 ⟨h, fun _ _ => le_rfl⟩

theorem ElectionInv.replace (h : ElectionInv masters s) {me : ι} {n' : Node ι} {sent : List (Msg ι)}
    {won : List (ι × ℕ)} (hvote : n'.lastVoteEpoch = (s.node me).lastVoteEpoch)
    (hcurrent : (s.node me).currentEpoch ≤ n'.currentEpoch)
    (hepoch : (s.node me).failoverAuthEpoch ≤ n'.failoverAuthEpoch)
    (hauth : n'.failoverAuthEpoch ≤ n'.currentEpoch)
    (hsent : ∀ msg ∈ sent, msg.type = .other ∨ msg.type = .authRequest ∧ msg.sender = me ∧
      msg.currentEpoch = n'.failoverAuthEpoch)
    (hcount : n'.failoverAuthCount ≤
      if n'.failoverAuthSent then s.votesFor me n'.failoverAuthEpoch else 0)
    (hwon : ∀ w ∈ won, masters.card / 2 + 1 ≤ s.votesFor w.1 w.2) :
    ElectionInv masters { s with
      node := update s.node me n', inFlight := s.inFlight ++ sent, won := s.won ++ won } := by
  have hnoack : sent.filter (fun msg => decide (msg.type = .authAck)) = [] := by
    rw [filter_eq_nil_iff]
    intro msg hmsg
    rcases hsent msg hmsg with htype | ⟨htype, -⟩ <;> simp [htype]
  have hacks : System.acks { s with
      node := update s.node me n', inFlight := s.inFlight ++ sent, won := s.won ++ won } =
      s.acks := by
    simp only [System.acks, filter_append, hnoack, append_nil]
  have hvotes := update_le hvote.ge
  have hauths := update_le hepoch
  constructor
  · refine (forall_update_iff s.node fun _ n => n.lastVoteEpoch ≤ n.currentEpoch).2
      ⟨?_, fun n _ => h.vote_le n⟩
    rw [hvote]
    exact (h.vote_le me).trans hcurrent
  · exact (forall_update_iff s.node fun _ n => n.failoverAuthEpoch ≤ n.currentEpoch).2
      ⟨hauth, fun n _ => h.auth_le n⟩
  · intro msg hmsg htype
    rcases mem_append.1 hmsg with hmsg | hmsg
    · exact (h.request_le msg hmsg htype).trans (hauths _)
    · rcases hsent msg hmsg with hother | ⟨-, hsender, hmsg⟩
      · rw [htype] at hother
        cases hother
      · rw [hsender, hmsg]
        show _ ≤ (update s.node me n' me).failoverAuthEpoch
        rw [update_self]
  · rw [hacks]
    exact h.ack_voter
  · rw [hacks]
    exact fun msg hmsg => (h.ack_le_vote msg hmsg).trans (hvotes _)
  · rw [hacks]
    exact fun msg hmsg => (h.ack_le_auth msg hmsg).trans (hauths _)
  · rw [hacks]
    exact h.ack_nodup
  · exact (forall_update_iff s.node fun x n => n.failoverAuthCount ≤
      if n.failoverAuthSent then s.votesFor x n.failoverAuthEpoch else 0).2
      ⟨hcount, fun n _ => h.count_le n⟩
  · intro w hw
    rcases mem_append.1 hw with hw | hw
    · exact h.won_quorum w hw
    · exact hwon w hw

theorem ElectionInv.failover (h : ElectionInv masters s) (me : ι) (view : FailoverView ι) :
    ElectionInv masters (s.failover masters me view) := by
  have hauth := h.auth_le me
  have hcount := h.count_le me
  have heffect := failover_effect me (decide (me ∈ masters) || (s.node me).promoted) masters.card view
    (s.node me)
  cases heffect with
  | quiet same sent won =>
    apply h.replace same.lastVoteEpoch_eq same.currentEpoch_eq.ge same.failoverAuthEpoch_eq.ge
    · rwa [same.failoverAuthEpoch_eq, same.currentEpoch_eq]
    · exact fun msg hmsg => .inl (sent msg hmsg)
    · rwa [same.failoverAuthCount_eq, same.failoverAuthSent_eq, same.failoverAuthEpoch_eq]
    · simp [won]
  | scheduled current vote epoch reset sent won =>
    apply h.replace vote current.ge epoch.ge
    · rwa [epoch, current]
    · exact fun msg hmsg => .inl (sent msg hmsg)
    · rw [reset]
      exact Nat.zero_le _
    · simp [won]
  | started unsent current vote epoch count sent won =>
    apply h.replace vote (by omega) (by omega)
    · rw [epoch, current]
    · exact fun msg hmsg => .inr ⟨(sent msg hmsg).1, (sent msg hmsg).2.1,
        (sent msg hmsg).2.2.trans epoch.symm⟩
    · -- no ACK was counted since the reset, so the new election starts from zero
      rw [unsent] at hcount
      rw [count]
      exact hcount.trans (Nat.zero_le _)
    · simp [won]
  | promoted asked quorum same sent won =>
    apply h.replace same.lastVoteEpoch_eq same.currentEpoch_eq.ge same.failoverAuthEpoch_eq.ge
    · rwa [same.failoverAuthEpoch_eq, same.currentEpoch_eq]
    · exact fun msg hmsg => .inl (sent msg hmsg)
    · rwa [same.failoverAuthCount_eq, same.failoverAuthSent_eq, same.failoverAuthEpoch_eq]
    · rw [asked] at hcount
      simp only [won, Option.map_some, Option.toList_some, mem_singleton, forall_eq]
      exact quorum.trans hcount

theorem ElectionInv.ping (h : ElectionInv masters s) (sender receiver : ι) (configEpoch : ℕ)
    (myslots : Bitmap) : ElectionInv masters (s.ping sender receiver configEpoch myslots) := by
  have hsystem : s.ping sender receiver configEpoch myslots = { s with
        node := update s.node sender (s.node sender)
        inFlight := (s.ping sender receiver configEpoch myslots).inFlight
        won := s.won ++ [] } := by
    rw [update_eq_self, append_nil]
    rfl
  rw [hsystem]
  apply h.replace rfl le_rfl le_rfl (h.auth_le sender)
  · intro msg hmsg
    left
    rw [mem_singleton.1 hmsg]
  · exact h.count_le sender
  · intro w hw
    cases hw

/-! ## Delivery -/

theorem acks_deliver_perm (masters : Finset ι) (hi : s.inFlight[i]? = some hdr) (view : VoteView ι) :
    (s.deliver masters i hdr view).acks.Perm
      ((clusterProcessPacket masters view hdr (s.node hdr.receiver)).2.filter
        (fun msg => decide (msg.type = .authAck)) ++ s.acks) := by
  obtain ⟨hlt, rfl⟩ := List.getElem?_eq_some_iff.1 hi
  have hperm := (getElem_cons_eraseIdx_perm hlt).filter fun msg => decide (msg.type = .authAck)
  simp only [System.acks, System.deliver, filter_append]
  by_cases hack : (s.inFlight[i]).type = .authAck
  · rw [if_pos hack]
    rw [filter_cons_of_pos (by simpa using hack), ← singleton_append] at hperm
    refine List.Perm.trans ?_ ((hperm.append_right s.processed).append_left _)
    rw [← Multiset.coe_eq_coe]
    simp only [← Multiset.coe_add]
    abel
  · rw [if_neg hack]
    rw [filter_cons_of_neg (by simpa using hack)] at hperm
    refine List.Perm.trans ?_ ((hperm.append_right s.processed).append_left _)
    rw [← Multiset.coe_eq_coe]
    simp only [← Multiset.coe_add]
    abel

theorem votesFor_deliver_le (masters : Finset ι) (s : System ι) (i : ℕ) (hdr : Msg ι)
    (view : VoteView ι) (n : ι) (epoch : ℕ) :
    s.votesFor n epoch ≤ (s.deliver masters i hdr view).votesFor n epoch := by
  simp only [System.votesFor, System.deliver]
  split_ifs
  · rw [countP_append]
    exact Nat.le_add_right _ _
  · exact le_rfl

/-- An ACK just sent: its voter has not voted in that epoch, and its receiver has asked for it. -/
structure FreshAck (masters : Finset ι) (s : System ι) (votes : ι → ℕ) (ack : Msg ι) : Prop where
  voter : ack.sender ∈ masters
  fresh : (s.node ack.sender).lastVoteEpoch < ack.currentEpoch
  vote : ack.currentEpoch ≤ votes ack.sender
  asked : ack.currentEpoch ≤ (s.node ack.receiver).failoverAuthEpoch

theorem ElectionInv.acks_of_perm {s' : System ι} (h : ElectionInv masters s) {new : List (Msg ι)}
    (hperm : s'.acks.Perm (new ++ s.acks))
    (hnew : new = [] ∨ ∃ ack, new = [ack] ∧
      FreshAck masters s (fun n => (s'.node n).lastVoteEpoch) ack)
    (hvotes : ∀ n, (s.node n).lastVoteEpoch ≤ (s'.node n).lastVoteEpoch)
    (hauths : ∀ n, (s'.node n).failoverAuthEpoch = (s.node n).failoverAuthEpoch) :
    (∀ msg ∈ s'.acks, msg.sender ∈ masters ∧ msg.currentEpoch ≤ (s'.node msg.sender).lastVoteEpoch ∧
      msg.currentEpoch ≤ (s'.node msg.receiver).failoverAuthEpoch) ∧
      (s'.acks.map fun msg => (msg.sender, msg.currentEpoch)).Nodup := by
  have hold : ∀ msg ∈ s.acks, msg.sender ∈ masters ∧
      msg.currentEpoch ≤ (s'.node msg.sender).lastVoteEpoch ∧
      msg.currentEpoch ≤ (s'.node msg.receiver).failoverAuthEpoch := fun msg hmsg =>
    ⟨h.ack_voter msg hmsg, (h.ack_le_vote msg hmsg).trans (hvotes _),
      (h.ack_le_auth msg hmsg).trans (hauths _).ge⟩
  rcases hnew with rfl | ⟨ack, rfl, hack⟩
  · exact ⟨fun msg hmsg => hold msg (hperm.mem_iff.1 hmsg), (hperm.map _).nodup_iff.2 h.ack_nodup⟩
  · refine ⟨fun msg hmsg => ?_, (hperm.map _).nodup_iff.2 ?_⟩
    · rcases mem_cons.1 (hperm.mem_iff.1 hmsg) with rfl | hmsg
      · exact ⟨hack.voter, hack.vote, hack.asked.trans (hauths _).ge⟩
      · exact hold msg hmsg
    · rw [singleton_append, map_cons, nodup_cons]
      refine ⟨fun hmem => ?_, h.ack_nodup⟩
      obtain ⟨msg, hmsg, heq⟩ := mem_map.1 hmem
      obtain ⟨hsender, hepoch⟩ := Prod.mk.inj heq
      have hle := h.ack_le_vote msg hmsg
      have hlt := hack.fresh
      rw [hsender] at hle
      omega

/-- The ACK, if it is counted, reaches a slave that has asked for votes since its last reset. -/
def AckInTime (s : System ι) (hdr : Msg ι) : Prop :=
  hdr.type = .authAck → (s.node hdr.receiver).failoverAuthEpoch ≤ hdr.currentEpoch →
    (s.node hdr.receiver).failoverAuthSent = true

theorem ElectionInv.count_deliver (h : ElectionInv masters s) (hmem : hdr ∈ s.inFlight)
    (htime : AckInTime s hdr) (view : VoteView ι) {r : Node ι × List (Msg ι)}
    (heffect : PacketEffect masters hdr (s.node hdr.receiver) r) :
    r.1.failoverAuthCount ≤ if r.1.failoverAuthSent then
      (s.deliver masters i hdr view).votesFor hdr.receiver r.1.failoverAuthEpoch else 0 := by
  have hcount := h.count_le hdr.receiver
  have hle := votesFor_deliver_le masters s i hdr view hdr.receiver
    (s.node hdr.receiver).failoverAuthEpoch
  have hsame : r.1.failoverAuthCount = (s.node hdr.receiver).failoverAuthCount →
      r.1.failoverAuthCount ≤ if r.1.failoverAuthSent then
        (s.deliver masters i hdr view).votesFor hdr.receiver r.1.failoverAuthEpoch else 0 := by
    intro heq
    rw [heq, heffect.asked, heffect.epoch]
    split_ifs at hcount ⊢
    · exact hcount.trans hle
    · exact hcount
  cases heffect.kind with
  | quiet vote count sent | voted request voter fresh newest vote count sent => exact hsame count
  | counted ack voter recent vote count sent =>
    have hasked := htime ack recent
    have hacks : hdr ∈ s.acks :=
      mem_append_left _ (mem_filter.2 ⟨hmem, by simpa using ack⟩)
    have hepoch := le_antisymm (h.ack_le_auth hdr hacks) recent
    rw [hasked, if_pos rfl] at hcount
    rw [heffect.asked, hasked, if_pos rfl, heffect.epoch]
    have hvotes : (s.deliver masters i hdr view).votesFor hdr.receiver
        (s.node hdr.receiver).failoverAuthEpoch =
        s.votesFor hdr.receiver (s.node hdr.receiver).failoverAuthEpoch + 1 := by
      simp [System.votesFor, System.deliver, ack, hepoch]
    omega

theorem ElectionInv.newAcks (h : ElectionInv masters s) (hmem : hdr ∈ s.inFlight)
    {r : Node ι × List (Msg ι)} (heffect : PacketEffect masters hdr (s.node hdr.receiver) r) :
    (s.node hdr.receiver).lastVoteEpoch ≤ r.1.lastVoteEpoch ∧
      r.1.lastVoteEpoch ≤ r.1.currentEpoch ∧ (∀ msg ∈ r.2, msg.type = .authAck) ∧
      (r.2 = [] ∨ ∃ ack, r.2 = [ack] ∧ FreshAck masters s
        (fun n => (update s.node hdr.receiver r.1 n).lastVoteEpoch) ack) := by
  have hvote := h.vote_le hdr.receiver
  have hcurrent := heffect.current
  cases heffect.kind with
  | quiet vote count sent | counted ack voter recent vote count sent =>
    exact ⟨vote.ge, by omega, by simp [sent], .inl sent⟩
  | voted request voter fresh newest vote count sent =>
    refine ⟨by omega, by omega, ?_, ?_⟩
    · rcases sent with sent | ⟨ack, sent, htype, -⟩
      · simp [sent]
      · simpa [sent] using htype
    · rcases sent with sent | ⟨ack, sent, -, hsender, hreceiver, hepoch⟩
      · exact .inl sent
      · refine .inr ⟨ack, sent, hsender ▸ voter, ?_, ?_, ?_⟩
        · rw [hsender]
          omega
        · rw [hsender, hepoch, update_self, vote]
        · rw [hreceiver, hepoch]
          exact h.request_le hdr hmem request

theorem ElectionInv.deliver (h : ElectionInv masters s) (hi : s.inFlight[i]? = some hdr)
    (htime : AckInTime s hdr) (view : VoteView ι) :
    ElectionInv masters (s.deliver masters i hdr view) := by
  have hmem : hdr ∈ s.inFlight := mem_of_getElem? hi
  have heffect := processPacket_effect masters view hdr (s.node hdr.receiver)
  obtain ⟨hvote, hcurrent, hsent, hnew⟩ := h.newAcks hmem heffect
  have hperm := acks_deliver_perm masters hi view
  have hfilter : (clusterProcessPacket masters view hdr (s.node hdr.receiver)).2.filter
      (fun msg => decide (msg.type = .authAck)) =
      (clusterProcessPacket masters view hdr (s.node hdr.receiver)).2 :=
    filter_eq_self.2 fun msg hmsg => by simpa using hsent msg hmsg
  rw [hfilter] at hperm
  have hauths : ∀ n, ((s.deliver masters i hdr view).node n).failoverAuthEpoch =
      (s.node n).failoverAuthEpoch :=
    (forall_update_iff s.node fun x n =>
      n.failoverAuthEpoch = (s.node x).failoverAuthEpoch).2 ⟨heffect.epoch, fun _ _ => rfl⟩
  obtain ⟨hacks, hnodup⟩ := h.acks_of_perm hperm hnew (update_le hvote) hauths
  constructor
  · exact (forall_update_iff s.node fun _ n => n.lastVoteEpoch ≤ n.currentEpoch).2
      ⟨hcurrent, fun n _ => h.vote_le n⟩
  · refine (forall_update_iff s.node fun _ n => n.failoverAuthEpoch ≤ n.currentEpoch).2
      ⟨?_, fun n _ => h.auth_le n⟩
    rw [heffect.epoch, heffect.current]
    exact (h.auth_le hdr.receiver).trans (le_max_left _ _)
  · intro msg hmsg htype
    rw [hauths]
    rcases mem_append.1 hmsg with hmsg | hmsg
    · exact h.request_le msg (mem_of_mem_eraseIdx hmsg) htype
    · rw [hsent msg hmsg] at htype
      cases htype
  · exact fun msg hmsg => (hacks msg hmsg).1
  · exact fun msg hmsg => (hacks msg hmsg).2.1
  · exact fun msg hmsg => (hacks msg hmsg).2.2
  · exact hnodup
  · refine (forall_update_iff s.node fun x n => n.failoverAuthCount ≤
      if n.failoverAuthSent then
        (s.deliver masters i hdr view).votesFor x n.failoverAuthEpoch else 0).2
      ⟨h.count_deliver hmem htime view heffect, fun n _ => ?_⟩
    refine (h.count_le n).trans ?_
    split_ifs
    · exact votesFor_deliver_le masters s i hdr view n _
    · exact le_rfl
  · exact fun w hw => (h.won_quorum w hw).trans (votesFor_deliver_le masters s i hdr view _ _)

/-! ## Runs -/

/-- No ACK is counted by a slave between the reset of its counter and its next request. -/
def NoLateAck (s : System ι) : Event ι → Prop
  | .deliver i _ => ∀ hdr, s.inFlight[i]? = some hdr → AckInTime s hdr
  | .failover .. | .ping .. => True

instance (s : System ι) (hdr : Msg ι) : Decidable (AckInTime s hdr) :=
  inferInstanceAs (Decidable (_ → _ → _))

instance (s : System ι) : DecidablePred (NoLateAck s)
  | .deliver i _ =>
    match h : s.inFlight[i]? with
    | none => .isTrue (by simp [NoLateAck, h])
    | some hdr => decidable_of_iff (AckInTime s hdr) (by simp [NoLateAck, h])
  | .failover .. | .ping .. => .isTrue trivial

theorem step_electionInv (h : ElectionInv masters s) (e : Event ι) (hlate : NoLateAck s e) :
    Meets (step masters s e) (ElectionInv masters) (fun _ => True) := by
  cases e with
  | failover me view => exact h.failover me view
  | ping sender receiver configEpoch myslots => exact h.ping sender receiver configEpoch myslots
  | deliver i view =>
    rw [step]
    cases hi : s.inFlight[i]? with
    | none => trivial
    | some hdr => exact h.deliver hi (hlate hdr hi) view

def System.voters (s : System ι) (slave : ι) (epoch : ℕ) : Finset ι :=
  ((s.processed.filter fun msg =>
    decide (msg.receiver = slave ∧ msg.currentEpoch = epoch)).map Msg.sender).toFinset

theorem System.mem_voters {slave m : ι} {epoch : ℕ} :
    m ∈ s.voters slave epoch ↔ ∃ msg ∈ s.processed,
      msg.sender = m ∧ msg.receiver = slave ∧ msg.currentEpoch = epoch := by
  simp only [System.voters, mem_toFinset, mem_map, mem_filter, decide_eq_true_eq]
  constructor
  · rintro ⟨msg, ⟨hmsg, hreceiver, hepoch⟩, hsender⟩
    exact ⟨msg, hmsg, hsender, hreceiver, hepoch⟩
  · rintro ⟨msg, hmsg, hsender, hreceiver, hepoch⟩
    exact ⟨msg, ⟨hmsg, hreceiver, hepoch⟩, hsender⟩

/-- The ACKs of one epoch come from distinct masters. -/
theorem ElectionInv.card_voters (h : ElectionInv masters s) (slave : ι) (epoch : ℕ) :
    s.voters slave epoch ⊆ masters ∧ (s.voters slave epoch).card = s.votesFor slave epoch := by
  constructor
  · intro m hm
    obtain ⟨msg, hmsg, rfl, -⟩ := System.mem_voters.1 hm
    exact h.ack_voter msg (mem_append_right _ hmsg)
  · obtain ⟨votes, hvotes⟩ : ∃ votes, votes = s.processed.filter fun msg =>
        decide (msg.receiver = slave ∧ msg.currentEpoch = epoch) := ⟨_, rfl⟩
    have hsub : votes.Sublist s.acks :=
      hvotes ▸ filter_sublist.trans (sublist_append_right _ _)
    have hepoch : votes.map (fun msg => (msg.sender, msg.currentEpoch)) =
        (votes.map Msg.sender).map fun m => (m, epoch) := by
      rw [map_map]
      apply map_congr_left
      intro msg hmsg
      rw [hvotes, mem_filter] at hmsg
      simpa using (of_decide_eq_true hmsg.2).2
    have hnodup : (votes.map Msg.sender).Nodup := by
      apply List.Nodup.of_map fun m => (m, epoch)
      rw [← hepoch]
      exact (hsub.map _).nodup h.ack_nodup
    rw [System.voters, ← hvotes, toFinset_card_of_nodup hnodup, length_map, hvotes,
      System.votesFor, countP_eq_length_filter]

/-- Two slaves that won the same epoch share a voter, who voted once. -/
theorem ElectionInv.winner_unique (h : ElectionInv masters s) {a b : ι} {epoch : ℕ}
    (ha : (a, epoch) ∈ s.won) (hb : (b, epoch) ∈ s.won) : a = b := by
  obtain ⟨hsubA, hcardA⟩ := h.card_voters a epoch
  obtain ⟨hsubB, hcardB⟩ := h.card_voters b epoch
  have hquorumA := h.won_quorum _ ha
  have hquorumB := h.won_quorum _ hb
  simp only at hquorumA hquorumB
  obtain ⟨m, hm⟩ := Finset.inter_nonempty_of_card_lt_card_add_card hsubA hsubB (by omega)
  obtain ⟨hmA, hmB⟩ := Finset.mem_inter.1 hm
  obtain ⟨msgA, hmsgA, hsenderA, rfl, hepochA⟩ := System.mem_voters.1 hmA
  obtain ⟨msgB, hmsgB, hsenderB, rfl, hepochB⟩ := System.mem_voters.1 hmB
  have hsame : msgA = msgB := by
    apply inj_on_of_nodup_map h.ack_nodup (mem_append_right _ hmsgA) (mem_append_right _ hmsgB)
    rw [hsenderA, hsenderB, hepochA, hepochB]
  rw [hsame]

/-- In a run without late ACKs, a slave that won an epoch processed the ACKs of a majority of the
masters for it, and no other slave won the same epoch. -/
theorem election_agreement (masters : Finset ι) {s₀ s : System ι} (hinit : Initial s₀)
    (events : List (Event ι)) (hlate : AllSteps (step masters) NoLateAck s₀ events)
    (hrun : events.foldlM (step masters) s₀ = .ok s) :
    (∀ a b epoch, (a, epoch) ∈ s.won → (b, epoch) ∈ s.won → a = b) ∧
      ∀ a epoch, (a, epoch) ∈ s.won → ∃ voters ⊆ masters, masters.card / 2 + 1 ≤ voters.card ∧
        ∀ m ∈ voters, ∃ ack ∈ s.processed,
          ack.sender = m ∧ ack.receiver = a ∧ ack.currentEpoch = epoch := by
  have hinv : ElectionInv masters s :=
    (Meets.foldlM_of_allSteps (fun s e hs he => step_electionInv hs e he) hinit.electionInv
      hlate).post hrun
  refine ⟨fun a b epoch => hinv.winner_unique, fun a epoch hwon => ?_⟩
  obtain ⟨hsub, hcard⟩ := hinv.card_voters a epoch
  refine ⟨s.voters a epoch, hsub, ?_, fun m hm => System.mem_voters.1 hm⟩
  rw [hcard]
  exact hinv.won_quorum _ hwon

/-! ## Two elections -/

/-- A cluster of the masters 0, 1, 2 and of the slaves 3, 4 of master 0, before any election. -/
def freshCluster : System ℕ where
  node := fun _ =>
    { currentEpoch := 0, lastVoteEpoch := 0, failoverAuthTime := 0, failoverAuthCount := 0,
      failoverAuthSent := false, failoverAuthRank := 0, failoverAuthEpoch := 0, promoted := false,
      configEpoch := 0, votedTime := fun _ => 0 }
  inFlight := []
  processed := []
  won := []

/-- A slave of the failed master 0 whose data is recent. -/
def slaveView (mstime : ℤ) (peers : List ℕ) : FailoverView ℕ :=
  { mstime := mstime, random := 0, clusterNodeTimeout := 15000, mfEnd := 0, mfCanStart := false,
    slaveof := some { failed := true, numslots := 5461, configEpoch := 0, slots := fun _ => 0xFF },
    replConnected := false, unixtime := 0, lastinteraction := 0, replDownSince := 0,
    replPingSlavePeriod := 10, myoffset := 0, slaveOffsets := [], peers := peers, localSlaves := [] }

/-- A master that sees master 0 as failed and has no slot with a newer configuration. -/
def voterView (mstime : ℤ) : VoteView ℕ :=
  { mstime := mstime, clusterNodeTimeout := 15000, nodeIsMaster := false, slaveof := some 0,
    nodeFailed := fun _ => true, slotEpoch := fun _ => none, link := true, myslots := fun _ => 0 }

/-- Slave 3 asks the masters 1 and 2 for their votes and wins. -/
def oneElection : List (Event ℕ) :=
  [.failover 3 (slaveView 100000 []), .failover 3 (slaveView 100600 [1, 2]),
    .deliver 0 (voterView 100700), .deliver 0 (voterView 100700), .deliver 0 (voterView 100700),
    .deliver 0 (voterView 100700), .failover 3 (slaveView 100800 [])]

/-- The ACKs of the first attempt of slave 3 arrive after it has reset its counter, and slave 4 wins
the epoch of the second attempt with the votes of that epoch. -/
def lateAcks : List (Event ℕ) :=
  [.failover 3 (slaveView 100000 []), .failover 3 (slaveView 100600 [1, 2, 4]),
    .deliver 0 (voterView 100700), .deliver 0 (voterView 100700), .deliver 0 (voterView 100700),
    .failover 3 (slaveView 200000 []), .deliver 0 (voterView 200100), .deliver 0 (voterView 200100),
    .failover 3 (slaveView 200600 []), .failover 3 (slaveView 200700 []),
    .failover 4 (slaveView 200000 []), .failover 4 (slaveView 200600 [1, 2]),
    .deliver 0 (voterView 200700), .deliver 0 (voterView 200700), .deliver 0 (voterView 200700),
    .deliver 0 (voterView 200700), .failover 4 (slaveView 200800 [])]

theorem freshCluster_initial : Initial freshCluster :=
  ⟨fun _ => rfl, fun _ => rfl, fun _ => rfl, rfl, rfl, rfl⟩

theorem election_agreement_one :
    Initial freshCluster ∧ AllSteps (step {0, 1, 2}) NoLateAck freshCluster oneElection ∧
      ∃ s, oneElection.foldlM (step {0, 1, 2}) freshCluster = .ok s ∧ s.won = [(3, 1)] ∧
        (∀ a b epoch, (a, epoch) ∈ s.won → (b, epoch) ∈ s.won → a = b) ∧
        ∀ a epoch, (a, epoch) ∈ s.won →
          ∃ voters ⊆ ({0, 1, 2} : Finset ℕ), ({0, 1, 2} : Finset ℕ).card / 2 + 1 ≤ voters.card ∧
            ∀ m ∈ voters, ∃ ack ∈ s.processed,
              ack.sender = m ∧ ack.receiver = a ∧ ack.currentEpoch = epoch := by
  have hlate : AllSteps (step {0, 1, 2}) NoLateAck freshCluster oneElection := by decide +kernel
  have hwon : (oneElection.foldlM (step {0, 1, 2}) freshCluster).toOption.map System.won =
      some [(3, 1)] := by decide +kernel
  cases hrun : oneElection.foldlM (step {0, 1, 2}) freshCluster with
  | error e =>
    rw [hrun] at hwon
    cases hwon
  | ok s =>
    rw [hrun] at hwon
    exact ⟨freshCluster_initial, hlate, s, rfl, Option.some.inj hwon,
      election_agreement {0, 1, 2} freshCluster_initial oneElection hlate hrun⟩

/-- Both slaves win epoch 2, slave 3 without a single vote for it. -/
theorem late_acks_two_winners :
    Initial freshCluster ∧ ∃ s, lateAcks.foldlM (step {0, 1, 2}) freshCluster = .ok s ∧
      (3, 2) ∈ s.won ∧ (4, 2) ∈ s.won := by
  have hwon : (lateAcks.foldlM (step {0, 1, 2}) freshCluster).toOption.map System.won =
      some [(3, 2), (4, 2)] := by decide +kernel
  cases hrun : lateAcks.foldlM (step {0, 1, 2}) freshCluster with
  | error e =>
    rw [hrun] at hwon
    cases hwon
  | ok s =>
    rw [hrun] at hwon
    have hs : s.won = [(3, 2), (4, 2)] := Option.some.inj hwon
    refine ⟨freshCluster_initial, s, rfl, ?_, ?_⟩
    · rw [hs]
      decide
    · rw [hs]
      decide

end ServerStack.Redis.Cluster.Election
