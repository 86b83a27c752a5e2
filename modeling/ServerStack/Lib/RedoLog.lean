import Mathlib

/-!
# A redo log of regions

A set of regions that do not overlap, with a log of the regions that were added to it and deleted
from it.  Redoing the log on top of a later state of the set leaves that state as it is, provided
that a region is only ever added as a part of the earlier ones that it overlaps.
-/

namespace ServerStack.RedoLog

open List

variable {β : Type*}

inductive Entry (β : Type*) where
  | add (b : β)
  | del (b : β)

section

variable (A : Set β)

def apply : Entry β → Set β
  | .add b => insert b A
  | .del b => A \ {b}

def replay (log : List (Entry β)) : Set β := log.foldl apply A

@[simp] theorem replay_nil : replay A [] = A := rfl

@[simp] theorem replay_cons (e : Entry β) (log : List (Entry β)) :
    replay A (e :: log) = replay (apply A e) log := rfl

theorem replay_append (log log' : List (Entry β)) :
    replay A (log ++ log') = replay (replay A log) log' := foldl_append

end

/-- Which regions overlap, and which are parts of which. -/
structure Regions (β : Type*) where
  overlaps : β → β → Prop
  part : β → β → Prop
  refl : ∀ a, overlaps a a
  symm : ∀ {a b}, overlaps a b → overlaps b a
  antisymm : ∀ {a b}, part a b → part b a → a = b
  trans : ∀ {a b c}, part a b → part b c → part a c
  overlaps_of_part : ∀ {a b c}, part a b → overlaps a c → overlaps b c

namespace Regions

variable (D : Regions β)

def Apart (A : Set β) : Prop := ∀ a ∈ A, ∀ b ∈ A, D.overlaps a b → a = b

/-- Regions are added apart from those of the set, and those deleted are in it. -/
def Valid : Set β → List (Entry β) → Prop
  | _, [] => True
  | A, .add b :: log => (∀ a ∈ A, ¬ D.overlaps b a) ∧ Valid (insert b A) log
  | A, .del b :: log => b ∈ A ∧ Valid (A \ {b}) log

/-- A region is added as a part of the earlier ones that it overlaps. -/
def Fine : Set β → List (Entry β) → Prop
  | _, [] => True
  | H, .add b :: log => (∀ x ∈ H, D.overlaps b x → D.part b x) ∧ Fine (insert b H) log
  | H, .del _ :: log => Fine H log

def history (H : Set β) : List (Entry β) → Set β
  | [] => H
  | .add b :: log => history (insert b H) log
  | .del _ :: log => history H log

open Classical in
/-- An entry is redone: a region that is not kept, or that overlaps one of the set, is not added. -/
noncomputable def redo (keep : β → Prop) (R : Set β) : Entry β → Set β
  | .add b => if keep b ∧ ∀ c ∈ R, ¬ D.overlaps b c then insert b R else R
  | .del b => R \ {b}

variable {D} {A H : Set β} {log log' : List (Entry β)}

theorem valid_append : D.Valid A (log ++ log') ↔ D.Valid A log ∧ D.Valid (replay A log) log' := by
  induction log generalizing A with
  | nil => exact ⟨fun h => ⟨trivial, h⟩, And.right⟩
  | cons e log ih =>
    cases e with
    | add b | del b => exact (and_congr_right fun _ => ih).trans and_assoc.symm

theorem fine_append : D.Fine H (log ++ log') ↔ D.Fine H log ∧ D.Fine (history H log) log' := by
  induction log generalizing H with
  | nil => exact ⟨fun h => ⟨trivial, h⟩, And.right⟩
  | cons e log ih =>
    cases e with
    | add b => exact (and_congr_right fun _ => ih).trans and_assoc.symm
    | del b => exact ih

theorem history_append : history H (log ++ log') = history (history H log) log' := by
  induction log generalizing H with
  | nil => rfl
  | cons e log ih => cases e <;> exact ih

theorem history_eq (H : Set β) (log : List (Entry β)) : history H log = H ∪ {b | .add b ∈ log} := by
  induction log generalizing H with
  | nil => simp [history]
  | cons e log ih =>
    ext c
    cases e <;> simp [history, ih, or_assoc, or_left_comm]

theorem mem_history {x : β} (h : x ∈ history H log) : x ∈ H ∨ .add x ∈ log := by
  rwa [history_eq] at h

theorem history_adds (H : Set β) (bs : List β) : history H (bs.map .add) = {b | b ∈ bs} ∪ H := by
  ext c
  simp [history_eq, or_comm]

theorem replay_subset_history (hA : A ⊆ H) : replay A log ⊆ history H log := by
  induction log generalizing A H with
  | nil => exact hA
  | cons e log ih =>
    cases e with
    | add b => exact ih (Set.insert_subset_insert hA)
    | del b => exact ih (Set.sdiff_subset.trans hA)

theorem replay_adds (A : Set β) (bs : List β) : replay A (bs.map .add) = {b | b ∈ bs} ∪ A := by
  induction bs generalizing A with
  | nil =>
    ext c
    exact ⟨.inr, fun h => h.resolve_left not_mem_nil⟩
  | cons b bs ih =>
    rw [map_cons, replay_cons, ih]
    ext c
    change c ∈ bs ∨ c = b ∨ c ∈ A ↔ c ∈ b :: bs ∨ c ∈ A
    rw [mem_cons]
    tauto

theorem valid_adds {bs : List β} (hA : ∀ b ∈ bs, ∀ a ∈ A, ¬ D.overlaps b a)
    (hbs : bs.Pairwise fun a b => ¬ D.overlaps a b) : D.Valid A (bs.map .add) := by
  induction bs generalizing A with
  | nil => trivial
  | cons b bs ih =>
    obtain ⟨hb, hbs⟩ := pairwise_cons.1 hbs
    refine ⟨hA b mem_cons_self, ih ?_ hbs⟩
    rintro c hc a (rfl | ha) ho
    · exact hb c hc (D.symm ho)
    · exact hA c (mem_cons_of_mem _ hc) a ha ho

theorem fine_adds {bs : List β} (hH : ∀ b ∈ bs, ∀ x ∈ H, D.overlaps b x → D.part b x)
    (hbs : bs.Pairwise fun a b => ¬ D.overlaps a b) : D.Fine H (bs.map .add) := by
  induction bs generalizing H with
  | nil => trivial
  | cons b bs ih =>
    obtain ⟨hb, hbs⟩ := pairwise_cons.1 hbs
    refine ⟨hH b mem_cons_self, ih ?_ hbs⟩
    rintro c hc x (rfl | hx) ho
    · exact absurd (D.symm ho) (hb c hc)
    · exact hH c (mem_cons_of_mem _ hc) x hx ho

theorem Apart.insert {b : β} (h : D.Apart A) (hb : ∀ a ∈ A, ¬ D.overlaps b a) :
    D.Apart (insert b A) := by
  rintro a (rfl | ha) c (rfl | hc) ho
  · rfl
  · exact absurd ho (hb c hc)
  · exact absurd (D.symm ho) (hb a ha)
  · exact h a ha c hc ho

theorem Valid.apart (h : D.Valid A log) (hA : D.Apart A) : D.Apart (replay A log) := by
  induction log generalizing A with
  | nil => exact hA
  | cons e log ih =>
    cases e with
    | add b => exact ih h.2 (hA.insert h.1)
    | del b => exact ih h.2 fun a ha c hc => hA a ha.1 c hc.1

/-- A region that comes into the set is a part of the earlier ones that it overlaps. -/
theorem Fine.part_of_mem_replay (h : D.Fine H log) {b x : β} (hx : x ∈ H) (hb : b ∉ A)
    (hmem : b ∈ replay A log) (ho : D.overlaps b x) : D.part b x := by
  induction log generalizing A H with
  | nil => exact absurd hmem hb
  | cons e log ih =>
    cases e with
    | add c =>
      by_cases hbc : b = c
      · subst hbc
        exact h.1 x hx ho
      · exact ih h.2 (.inr hx) (fun hin => hin.elim hbc hb) hmem
    | del c => exact ih h hx (fun hin => hb hin.1) hmem

section

variable {keep : β → Prop} {b : β}

theorem redo_add {R : Set β} (hkeep : keep b) (hapart : ∀ c ∈ R, ¬ D.overlaps b c) :
    D.redo keep R (.add b) = insert b R := if_pos ⟨hkeep, hapart⟩

theorem redo_add_of_not {R : Set β} (h : keep b → ∃ c ∈ R, D.overlaps b c) :
    D.redo keep R (.add b) = R := by
  refine if_neg fun hand => ?_
  obtain ⟨c, hc, ho⟩ := h hand.1
  exact hand.2 c hc ho

theorem Valid.foldl_redo (h : D.Valid A log) :
    log.foldl (D.redo keep) {b ∈ A | keep b} = {b ∈ replay A log | keep b} := by
  induction log generalizing A with
  | nil => rfl
  | cons e log ih =>
    cases e with
    | add b =>
      have hredo : D.redo keep {b ∈ A | keep b} (.add b) = {c ∈ insert b A | keep c} := by
        by_cases hkeep : keep b
        · rw [redo_add hkeep fun c hc => h.1 c hc.1]
          ext c
          constructor
          · rintro (rfl | hc)
            · exact ⟨.inl rfl, hkeep⟩
            · exact ⟨.inr hc.1, hc.2⟩
          · rintro ⟨rfl | hc, hk⟩
            · exact .inl rfl
            · exact .inr ⟨hc, hk⟩
        · rw [redo_add_of_not fun hk => absurd hk hkeep]
          ext c
          constructor
          · exact fun hc => ⟨.inr hc.1, hc.2⟩
          · rintro ⟨rfl | hc, hk⟩
            · exact absurd hk hkeep
            · exact ⟨hc, hk⟩
      rw [foldl_cons, hredo]
      exact ih h.2
    | del b =>
      have hredo : D.redo keep {b ∈ A | keep b} (.del b) = {c ∈ A \ {b} | keep c} := by
        ext c
        exact ⟨fun hc => ⟨⟨hc.1.1, hc.2⟩, hc.1.2⟩, fun hc => ⟨⟨hc.1.1, hc.2⟩, hc.1.2⟩⟩
      rw [foldl_cons, hredo]
      exact ih h.2

/-- What is there while a log is redone on top of its last state `L`: a region that an entry was
about, if it is in the set at that time and no other one of `L` overlaps it, and any other region,
if it is in `L`. -/
def Redone (D : Regions β) (keep : β → Prop) (L A T : Set β) : Set β :=
  {b | keep b ∧ ((b ∈ T ∧ b ∈ A ∧ ∀ c ∈ L, keep c → D.overlaps b c → c = b) ∨ b ∉ T ∧ b ∈ L)}

theorem redo_redone_del {L T : Set β} :
    D.redo keep (D.Redone keep L A T) (.del b) = D.Redone keep L (A \ {b}) (insert b T) := by
  ext c
  by_cases hcb : c = b
  · subst hcb
    constructor
    · exact fun h => absurd rfl h.2
    · rintro ⟨-, ⟨-, hA, -⟩ | ⟨hT, -⟩⟩
      · exact absurd rfl hA.2
      · exact absurd (.inl rfl) hT
  · constructor
    · rintro ⟨⟨hk, ⟨hT, hA, hc⟩ | ⟨hT, hL⟩⟩, -⟩
      · exact ⟨hk, .inl ⟨.inr hT, ⟨hA, hcb⟩, hc⟩⟩
      · exact ⟨hk, .inr ⟨fun hin => hin.elim hcb hT, hL⟩⟩
    · rintro ⟨hk, ⟨hT, hA, hc⟩ | ⟨hT, hL⟩⟩
      · exact ⟨⟨hk, .inl ⟨hT.resolve_left hcb, hA.1, hc⟩⟩, hcb⟩
      · exact ⟨⟨hk, .inr ⟨fun hin => hT (.inr hin), hL⟩⟩, hcb⟩

theorem redo_redone_add {L T : Set β} (hT : T ⊆ H) (hL : D.Apart L)
    (hvalid : ∀ a ∈ A, ¬ D.overlaps b a) (hfine : ∀ x ∈ H, D.overlaps b x → D.part b x)
    (hlater : ∀ c ∈ L, c ∉ insert b A → D.overlaps c b → D.part c b) :
    D.redo keep (D.Redone keep L A T) (.add b) = D.Redone keep L (insert b A) (insert b T) := by
  have hbA : b ∉ A := fun hb => hvalid b hb (D.refl b)
  have hother : ∀ c ≠ b, (c ∈ D.Redone keep L (insert b A) (insert b T) ↔
      c ∈ D.Redone keep L A T) := by
    intro c hcb
    have hA : c ∈ insert b A ↔ c ∈ A := or_iff_right hcb
    have hT' : c ∈ insert b T ↔ c ∈ T := or_iff_right hcb
    unfold Redone
    rw [Set.mem_ofPred_eq, Set.mem_ofPred_eq, hA, hT']
  -- a region that is there and overlaps the new one is in the last state
  have hmem : ∀ c ∈ D.Redone keep L A T, D.overlaps b c → keep c ∧ c ∈ L := by
    rintro c ⟨hk, ⟨-, hA, -⟩ | ⟨-, hcL⟩⟩ ho
    · exact absurd ho (hvalid c hA)
    · exact ⟨hk, hcL⟩
  by_cases hblocked : keep b ∧ ∀ c ∈ D.Redone keep L A T, ¬ D.overlaps b c
  · rw [redo_add hblocked.1 hblocked.2]
    ext c
    by_cases hcb : c = b
    · subst hcb
      refine ⟨fun _ => ⟨hblocked.1, .inl ⟨.inl rfl, .inl rfl, fun c' hc' hk ho => ?_⟩⟩,
        fun _ => .inl rfl⟩
      by_contra hne
      have hA : c' ∉ A := fun hin => hvalid c' hin ho
      have hT' : c' ∈ T := by
        by_contra hnot
        exact hblocked.2 c' ⟨hk, .inr ⟨hnot, hc'⟩⟩ ho
      exact hne (D.antisymm (hlater c' hc' (fun hin => hin.elim hne hA) (D.symm ho))
        (hfine c' (hT hT') ho))
    · rw [Set.mem_insert_iff, or_iff_right hcb, hother c hcb]
  · have hnot : keep b → ∃ c ∈ D.Redone keep L A T, D.overlaps b c := by
      intro hk
      by_contra hnone
      exact hblocked ⟨hk, fun c hc ho => hnone ⟨c, hc, ho⟩⟩
    rw [redo_add_of_not hnot]
    ext c
    by_cases hcb : c = b
    · subst hcb
      constructor
      · rintro ⟨hk, ⟨-, hA, -⟩ | ⟨-, hcL⟩⟩
        · exact absurd hA hbA
        · exact ⟨hk, .inl ⟨.inl rfl, .inl rfl, fun c' hc' _ ho => (hL _ hcL c' hc' ho).symm⟩⟩
      · rintro ⟨hk, ⟨-, -, hall⟩ | ⟨hnotT, -⟩⟩
        · obtain ⟨c', hc', ho⟩ := hnot hk
          obtain ⟨hk', hL'⟩ := hmem c' hc' ho
          exact hall c' hL' hk' ho ▸ hc'
        · exact absurd (.inl rfl) hnotT
    · exact (hother c hcb).symm

/-- The whole log, redone on top of its last state. -/
theorem foldl_redo_redone {L T : Set β} (hA : A ⊆ H) (hT : T ⊆ H) (hL : D.Apart L)
    (hvalid : D.Valid A log) (hfine : D.Fine H log) (hreplay : replay A log = L) :
    ∃ T', log.foldl (D.redo keep) (D.Redone keep L A T) = D.Redone keep L L T' := by
  induction log generalizing A H T with
  | nil => exact ⟨T, by rw [← hreplay]; rfl⟩
  | cons e log ih =>
    rw [foldl_cons]
    cases e with
    | add b =>
      rw [redo_redone_add hT hL hvalid.1 hfine.1 fun c hc hnot ho =>
        hfine.2.part_of_mem_replay (.inl rfl) hnot (hreplay.symm ▸ hc) ho]
      exact ih (Set.insert_subset_insert hA) (Set.insert_subset_insert hT) hvalid.2 hfine.2 hreplay
    | del b =>
      rw [redo_redone_del]
      exact ih (Set.sdiff_subset.trans hA) (Set.insert_subset (hA hvalid.1) hT) hvalid.2 hfine
        hreplay

/-- Redoing a log on top of its last state changes nothing. -/
theorem Valid.foldl_redo_last (hvalid : D.Valid A log) (hapart : D.Apart A) (hA : A ⊆ H)
    (hfine : D.Fine H log) :
    log.foldl (D.redo keep) {b ∈ replay A log | keep b} = {b ∈ replay A log | keep b} := by
  have hL := hvalid.apart hapart
  have hstart : D.Redone keep (replay A log) A ∅ = {b ∈ replay A log | keep b} := by
    ext b
    constructor
    · rintro ⟨hk, ⟨hT, -⟩ | ⟨-, hb⟩⟩
      · cases hT
      · exact ⟨hb, hk⟩
    · exact fun hb => ⟨hb.2, .inr ⟨Set.notMem_empty b, hb.1⟩⟩
  obtain ⟨T, hend⟩ := @foldl_redo_redone β D A H log keep (replay A log) ∅ hA
    (Set.empty_subset H) hL hvalid hfine rfl
  rw [← hstart, hend, hstart]
  ext b
  constructor
  · rintro ⟨hk, ⟨-, hb, -⟩ | ⟨-, hb⟩⟩ <;> exact ⟨hb, hk⟩
  · rintro ⟨hb, hk⟩
    by_cases hT : b ∈ T
    · exact ⟨hk, .inl ⟨hT, hb, fun c hc _ ho => (hL b hb c hc ho).symm⟩⟩
    · exact ⟨hk, .inr ⟨hT, hb⟩⟩

/-- A log whose first part is redone on top of the state that it leads to. -/
theorem Valid.foldl_redo_append (hvalid : D.Valid A (log ++ log')) (hapart : D.Apart A)
    (hA : A ⊆ H) (hfine : D.Fine H log) :
    (log ++ log').foldl (D.redo keep) {b ∈ replay A log | keep b} =
      {b ∈ replay A (log ++ log') | keep b} := by
  obtain ⟨hlog, hlog'⟩ := valid_append.1 hvalid
  rw [foldl_append, hlog.foldl_redo_last hapart hA hfine, hlog'.foldl_redo, replay_append]

/-- A snapshot was taken when the first part of the log was flushed and the second one was not: both
the second part and what follows are redone on top of it. -/
theorem foldl_redo_snapshot {flushed pending later : List (Entry β)}
    (hvalid : D.Valid ∅ (flushed ++ (pending ++ later)))
    (hfine : D.Fine ∅ (flushed ++ (pending ++ later))) :
    (pending ++ later).foldl (D.redo keep) {b ∈ replay ∅ (flushed ++ pending) | keep b} =
      {b ∈ replay ∅ (flushed ++ (pending ++ later)) | keep b} := by
  obtain ⟨hflushed, hrest⟩ := valid_append.1 hvalid
  have hfine' := (fine_append.1 (fine_append.1 hfine).2).1
  rw [replay_append, replay_append]
  exact hrest.foldl_redo_append (hflushed.apart fun _ => nofun)
    (replay_subset_history (Set.Subset.refl ∅)) hfine'

end

/-! ## Logs of regions that are split -/

/-- The log of a set `A` of regions.  The regions of `U` were taken out of it and may come back, and
regions are only ever split. -/
structure Ledger (D : Regions β) (A U : Set β) (log : List (Entry β)) : Prop where
  valid : D.Valid ∅ log
  fine : D.Fine ∅ log
  replay_eq : replay ∅ log = A
  apart : ∀ a ∈ A, ∀ u ∈ U, ¬ D.overlaps a u
  apart_used : D.Apart U
  part : ∀ a ∈ A ∪ U, ∀ x ∈ history ∅ log, D.overlaps a x → D.part a x

namespace Ledger

theorem nil (D : Regions β) : Ledger D ∅ ∅ [] where
  valid := trivial
  fine := trivial
  replay_eq := rfl
  apart _ := nofun
  apart_used _ := nofun
  part _ h := by rcases h with h | h <;> cases h

variable {U : Set β} {b : β} (h : Ledger D A U log)

include h

theorem apart_free : D.Apart A := by
  have happart := h.valid.apart fun _ => nofun
  rwa [h.replay_eq] at happart

theorem subset_history : A ⊆ history ∅ log := by
  rw [← h.replay_eq]
  exact replay_subset_history (Set.Subset.refl ∅)

theorem mono_used {U' : Set β} (hU : U' ⊆ U) : Ledger D A U' log where
  valid := h.valid
  fine := h.fine
  replay_eq := h.replay_eq
  apart a ha u hu := h.apart a ha u (hU hu)
  apart_used a ha c hc := h.apart_used a (hU ha) c (hU hc)
  part a ha := h.part a (Set.union_subset_union_right A hU ha)

theorem add {U' : Set β} (hU : U' ⊆ U) (hfree : ∀ a ∈ A, ¬ D.overlaps b a)
    (hused : ∀ u ∈ U', ¬ D.overlaps b u)
    (hpart : ∀ x ∈ history ∅ log, D.overlaps b x → D.part b x) (hself : D.part b b) :
    Ledger D (insert b A) U' (log ++ [.add b]) where
  valid := valid_append.2 ⟨h.valid, by
    rw [h.replay_eq]
    exact ⟨hfree, trivial⟩⟩
  fine := fine_append.2 ⟨h.fine, hpart, trivial⟩
  replay_eq := by
    rw [replay_append, h.replay_eq]
    rfl
  apart := by
    rintro a (rfl | ha) u hu
    · exact hused u hu
    · exact h.apart a ha u (hU hu)
  apart_used a ha c hc := h.apart_used a (hU ha) c (hU hc)
  part := by
    rw [history_append]
    rintro a ((rfl | ha) | ha) x (rfl | hx) ho
    · exact hself
    · exact hpart x hx ho
    · exact absurd (D.symm ho) (hfree a ha)
    · exact h.part a (.inl ha) x hx ho
    · exact absurd (D.symm ho) (hused a ha)
    · exact h.part a (.inr (hU ha)) x hx ho

theorem create (hnew : ∀ x ∈ history ∅ log, ¬ D.overlaps b x) (hused : ∀ u ∈ U, ¬ D.overlaps b u)
    (hself : D.part b b) : Ledger D (insert b A) U (log ++ [.add b]) :=
  h.add (Set.Subset.refl U) (fun a ha => hnew a (h.subset_history ha)) hused
    (fun x hx ho => absurd ho (hnew x hx)) hself

theorem give (hb : b ∈ U) (hself : D.part b b) :
    Ledger D (insert b A) (U \ {b}) (log ++ [.add b]) :=
  h.add Set.sdiff_subset (fun a ha ho => h.apart a ha b hb (D.symm ho))
    (fun u hu ho => hu.2 (h.apart_used b hb u hu.1 ho).symm) (h.part b (.inr hb)) hself

theorem split (hb : b ∈ A) {ps : List β} (hps : ∀ p ∈ ps, D.part p b) (hself : ∀ p ∈ ps, D.part p p)
    (hpairwise : ps.Pairwise fun p q => ¬ D.overlaps p q) :
    Ledger D ({p | p ∈ ps} ∪ A \ {b}) U (log ++ .del b :: ps.map .add) := by
  have hother : ∀ p ∈ ps, ∀ a ∈ A \ {b}, ¬ D.overlaps p a := fun p hp a ha ho =>
    ha.2 (h.apart_free b hb a ha.1 (D.overlaps_of_part (hps p hp) ho)).symm
  have hused : ∀ p ∈ ps, ∀ u ∈ U, ¬ D.overlaps p u := fun p hp u hu ho =>
    h.apart b hb u hu (D.overlaps_of_part (hps p hp) ho)
  have hpart : ∀ p ∈ ps, ∀ x ∈ history ∅ log, D.overlaps p x → D.part p x := fun p hp x hx ho =>
    D.trans (hps p hp) (h.part b (.inl hb) x hx (D.overlaps_of_part (hps p hp) ho))
  have hsymm : Std.Symm fun p q => ¬ D.overlaps p q := ⟨fun _ _ hnot ho => hnot (D.symm ho)⟩
  refine ⟨valid_append.2 ⟨h.valid, ?_⟩, fine_append.2 ⟨h.fine, fine_adds hpart hpairwise⟩, ?_, ?_,
    h.apart_used, ?_⟩
  · rw [h.replay_eq]
    exact ⟨hb, valid_adds hother hpairwise⟩
  · rw [replay_append, h.replay_eq, replay_cons, replay_adds]
    rfl
  · rintro a (ha | ha) u hu
    · exact hused a ha u hu
    · exact h.apart a ha.1 u hu
  · rw [history_append, history, history_adds]
    rintro a ((ha | ha) | ha) x (hx | hx) ho
    · by_cases hax : a = x
      · exact hax ▸ hself a ha
      · exact absurd ho (hpairwise.forall ha hx hax)
    · exact hpart a ha x hx ho
    · exact absurd (D.symm ho) (hother x hx a ha)
    · exact h.part a (.inl ha.1) x hx ho
    · exact absurd (D.symm ho) (hused x hx a ha)
    · exact h.part a (.inr ha) x hx ho

theorem take (hb : b ∈ A) : Ledger D (A \ {b}) (insert b U) (log ++ [.del b]) where
  valid := valid_append.2 ⟨h.valid, by
    rw [h.replay_eq]
    exact ⟨hb, trivial⟩⟩
  fine := fine_append.2 ⟨h.fine, trivial⟩
  replay_eq := by
    rw [replay_append, h.replay_eq]
    rfl
  apart := by
    rintro a ha u (rfl | hu) ho
    · exact ha.2 (h.apart_free a ha.1 u hb ho)
    · exact h.apart a ha.1 u hu ho
  apart_used := h.apart_used.insert fun u hu => h.apart b hb u hu
  part := by
    rw [history_append]
    rintro a (ha | rfl | ha) x hx ho
    · exact h.part a (.inl ha.1) x hx ho
    · exact h.part a (.inl hb) x hx ho
    · exact h.part a (.inr ha) x hx ho

end Ledger

end Regions

end ServerStack.RedoLog
