import Mathlib

/-!
# Enumerating a collection that changes

The items of a collection are returned one after another while others are added and deleted.  The
enumeration holds the list of the items it has still to return.  Edits keep on that list the items
that stay in the collection, and put on it only items that were never seen before.  So no item is
returned twice or after its deletion (`Inv`), and one that stays is returned before the end
(`Covered`).
-/

namespace ServerStack.Enumeration

open List

variable {ι : Type}

inductive Event (ι : Type) where
  | returned (i : ι)
  | exhausted
  | deleted (i : ι)
  deriving DecidableEq

structure State (ι : Type) where
  live : Set ι
  /-- The items that are or were in the collection. -/
  seen : Set ι
  pending : List ι
  log : List (Event ι)

def Unstarted (log : List (Event ι)) : Prop := ∀ e ∈ log, ∃ i, e = .deleted i

inductive Next (s : State ι) : Option ι → State ι → Prop where
  | item {i : ι} {rest : List ι} (h : s.pending = i :: rest) :
      Next s (some i) { s with pending := rest, log := s.log ++ [.returned i] }
  | done (h : s.pending = []) : Next s none { s with log := s.log ++ [.exhausted] }

/-- An edit of the collection.  Items that were deleted are not added again. -/
structure Edits (s : State ι) (gone : List ι) (s' : State ι) : Prop where
  log_eq : s'.log = s.log ++ gone.map .deleted
  gone_live : ∀ i ∈ gone, i ∈ s.live
  gone_dead : ∀ i ∈ gone, i ∉ s'.live
  seen_mono : ∀ i ∈ s.seen, i ∈ s'.seen
  live_seen : ∀ i ∈ s'.live, i ∈ s'.seen
  live_old : ∀ i ∈ s'.live, i ∈ s.seen → i ∈ s.live
  pending_nodup : s'.pending.Nodup
  pending_live : ∀ i ∈ s'.pending, i ∈ s'.live
  pending_old : ∀ i ∈ s'.pending, i ∈ s.seen → i ∈ s.pending
  pending_kept : ∀ i ∈ s.pending, i ∈ s'.live → i ∈ s'.pending
  pending_all : Unstarted s.log → ∀ i ∈ s'.live, i ∈ s'.pending

/-! ## Nothing is returned twice or after its deletion -/

def NotAfterDeletion (log : List (Event ι)) : Prop :=
  log.Pairwise fun e e' => ∀ i, e = .deleted i → e' ≠ .returned i

structure Inv [DecidableEq ι] (s : State ι) : Prop where
  live_seen : ∀ i ∈ s.live, i ∈ s.seen
  pending_nodup : s.pending.Nodup
  pending_live : ∀ i ∈ s.pending, i ∈ s.live
  pending_all : Unstarted s.log → ∀ i ∈ s.live, i ∈ s.pending
  returned_once : ∀ i, s.log.count (.returned i) ≤ 1
  returned_seen : ∀ i, .returned i ∈ s.log → i ∈ s.seen
  returned_not_pending : ∀ i, .returned i ∈ s.log → i ∉ s.pending
  deleted_seen : ∀ i, .deleted i ∈ s.log → i ∈ s.seen
  deleted_dead : ∀ i, .deleted i ∈ s.log → i ∉ s.live
  not_after_deletion : NotAfterDeletion s.log

theorem unstarted_append {log log' : List (Event ι)} :
    Unstarted (log ++ log') ↔ Unstarted log ∧ Unstarted log' := forall_mem_append

theorem unstarted_deleted (gone : List ι) : Unstarted (gone.map Event.deleted) := by
  intro e he
  obtain ⟨i, -, rfl⟩ := mem_map.1 he
  exact ⟨i, rfl⟩

variable {gone : List ι} {i : ι} {s s' : State ι}

theorem returned_mem_append_deleted {log : List (Event ι)} :
    .returned i ∈ log ++ gone.map Event.deleted ↔ .returned i ∈ log := by
  simp

theorem Next.inv [DecidableEq ι] {r : Option ι} (h : Inv s) (hnext : Next s r s') : Inv s' := by
  cases hnext with
  | @item i rest hpending =>
    have hi : i ∈ s.pending := by rw [hpending]; exact mem_cons_self
    have hrest : ∀ j ∈ rest, j ∈ s.pending := fun j hj => by
      rw [hpending]
      exact mem_cons_of_mem _ hj
    have hnodup := h.pending_nodup
    rw [hpending, nodup_cons] at hnodup
    have hnew : Event.returned i ∉ s.log := fun hmem => h.returned_not_pending i hmem hi
    have hmem : ∀ j, Event.returned j ∈ s.log ++ [.returned i] → .returned j ∈ s.log ∨ j = i := by
      intro j hj
      simpa using hj
    refine ⟨h.live_seen, hnodup.2, fun j hj => h.pending_live j (hrest j hj), ?_, ?_, ?_, ?_, ?_, ?_,
      ?_⟩
    · intro hlog
      obtain ⟨j, hj⟩ := (unstarted_append.1 hlog).2 _ (mem_singleton_self _)
      cases hj
    · intro j
      rw [count_append, count_singleton]
      split_ifs with hj
      · have hij : i = j := by simpa using hj
        rw [← hij, count_eq_zero_of_not_mem hnew]
      · exact h.returned_once j
    · intro j hj
      rcases hmem j hj with hj | rfl
      · exact h.returned_seen j hj
      · exact h.live_seen _ (h.pending_live _ hi)
    · intro j hj hjrest
      rcases hmem j hj with hj | rfl
      · exact h.returned_not_pending j hj (hrest j hjrest)
      · exact hnodup.1 hjrest
    · exact fun j hj => h.deleted_seen j (by simpa using hj)
    · exact fun j hj => h.deleted_dead j (by simpa using hj)
    · refine pairwise_append.2 ⟨h.not_after_deletion, pairwise_singleton _ _, ?_⟩
      intro e he e' he' j hej hej'
      rw [mem_singleton.1 he', Event.returned.injEq] at hej'
      rw [hej] at he
      rw [← hej'] at he
      exact h.deleted_dead i he (h.pending_live i hi)
  | done hpending =>
    refine ⟨h.live_seen, h.pending_nodup, h.pending_live, ?_, ?_, ?_, ?_, ?_, ?_, ?_⟩
    · intro hlog
      obtain ⟨j, hj⟩ := (unstarted_append.1 hlog).2 _ (mem_singleton_self _)
      cases hj
    · intro j
      rw [count_append]
      exact h.returned_once j
    · exact fun j hj => h.returned_seen j (by simpa using hj)
    · exact fun j hj => h.returned_not_pending j (by simpa using hj)
    · exact fun j hj => h.deleted_seen j (by simpa using hj)
    · exact fun j hj => h.deleted_dead j (by simpa using hj)
    · refine pairwise_append.2 ⟨h.not_after_deletion, pairwise_singleton _ _, ?_⟩
      intro e he e' he' j hej hej'
      rw [mem_singleton.1 he'] at hej'
      cases hej'

theorem Edits.inv [DecidableEq ι] (h : Inv s) (hedit : Edits s gone s') : Inv s' := by
  have hreturned : ∀ i, Event.returned i ∈ s'.log ↔ .returned i ∈ s.log := fun i => by
    rw [hedit.log_eq, returned_mem_append_deleted]
  have hdeleted : ∀ i, Event.deleted i ∈ s'.log → .deleted i ∈ s.log ∨ i ∈ gone := fun i hi => by
    rw [hedit.log_eq] at hi
    simpa using hi
  refine ⟨hedit.live_seen, hedit.pending_nodup, hedit.pending_live, ?_, ?_, ?_, ?_, ?_, ?_, ?_⟩
  · intro hlog
    rw [hedit.log_eq] at hlog
    exact hedit.pending_all (unstarted_append.1 hlog).1
  · intro i
    rw [hedit.log_eq, count_append,
      count_eq_zero_of_not_mem (show Event.returned i ∉ gone.map .deleted by simp)]
    exact h.returned_once i
  · exact fun i hi => hedit.seen_mono i (h.returned_seen i ((hreturned i).1 hi))
  · intro i hi hpending
    have hlog := (hreturned i).1 hi
    exact h.returned_not_pending i hlog (hedit.pending_old i hpending (h.returned_seen i hlog))
  · intro i hi
    rcases hdeleted i hi with hi | hi
    · exact hedit.seen_mono i (h.deleted_seen i hi)
    · exact hedit.seen_mono i (h.live_seen i (hedit.gone_live i hi))
  · intro i hi hlive
    rcases hdeleted i hi with hi | hi
    · exact h.deleted_dead i hi (hedit.live_old i hlive (h.deleted_seen i hi))
    · exact hedit.gone_dead i hi hlive
  · rw [hedit.log_eq]
    refine pairwise_append.2 ⟨h.not_after_deletion, ?_, ?_⟩
    · exact pairwise_map.2 (pairwise_of_forall fun _ _ _ _ hne => by cases hne)
    · intro e _ e' he' i _ hei'
      obtain ⟨j, -, rfl⟩ := mem_map.1 he'
      cases hei'

/-! ## What stays is returned -/

/-- The item was returned, or the enumeration goes on and will return it if it stays. -/
def Covered (i : ι) (s : State ι) : Prop :=
  .returned i ∈ s.log ∨
    .exhausted ∉ s.log ∧ (Unstarted s.log ∨ i ∈ s.pending ∨ i ∈ s.seen ∧ i ∉ s.live)

theorem Next.covered [DecidableEq ι] {r : Option ι} (h : Inv s) (hnext : Next s r s')
    (hlive : .exhausted ∉ s.log → i ∈ s.live) (hcovered : Covered i s) : Covered i s' := by
  rcases hcovered with hreturned | ⟨hopen, hcase⟩
  · left
    cases hnext with
    | item | done => exact mem_append_left _ hreturned
  · have hpending : i ∈ s.pending := by
      rcases hcase with hstart | hpending | ⟨-, hdead⟩
      · exact h.pending_all hstart i (hlive hopen)
      · exact hpending
      · exact absurd (hlive hopen) hdead
    cases hnext with
    | @item j rest hlist =>
      rw [hlist] at hpending
      rcases mem_cons.1 hpending with rfl | hrest
      · exact .inl (by simp)
      · exact .inr ⟨by simpa using hopen, .inr (.inl hrest)⟩
    | done hnil =>
      rw [hnil] at hpending
      cases hpending

theorem Edits.covered [DecidableEq ι] (h : Inv s) (hedit : Edits s gone s')
    (hcovered : Covered i s) :
    Covered i s' := by
  rcases hcovered with hreturned | ⟨hopen, hcase⟩
  · left
    rw [hedit.log_eq, returned_mem_append_deleted]
    exact hreturned
  · refine .inr ⟨by rw [hedit.log_eq]; simpa using hopen, ?_⟩
    rcases hcase with hstart | hpending | ⟨hseen, hdead⟩
    · left
      rw [hedit.log_eq]
      exact unstarted_append.2 ⟨hstart, unstarted_deleted gone⟩
    · by_cases hlive : i ∈ s'.live
      · exact .inr (.inl (hedit.pending_kept i hpending hlive))
      · exact .inr (.inr ⟨hedit.seen_mono i (h.live_seen i (h.pending_live i hpending)), hlive⟩)
    · exact .inr (.inr ⟨hedit.seen_mono i hseen, fun hlive =>
        hdead (hedit.live_old i hlive hseen)⟩)

/-- Once the enumeration has ended, an item that stayed was returned exactly once. -/
theorem Covered.count_eq [DecidableEq ι] (h : Inv s) (hcovered : Covered i s)
    (hend : .exhausted ∈ s.log) : s.log.count (.returned i) = 1 := by
  rcases hcovered with hreturned | ⟨hopen, -⟩
  · exact le_antisymm (h.returned_once i) (count_pos_iff.2 hreturned)
  · exact absurd hend hopen

end ServerStack.Enumeration
