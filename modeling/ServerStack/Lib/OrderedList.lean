import Mathlib

/-!
# Lists in the order of a comparison function

A comparison function returns a negative number, zero or a positive number, as `strcmp` does.  The
data of a sorted list are pairwise different for it; a datum is put into the list, or removed from
it, at its place.
-/

namespace ServerStack.OrderedList

open List

variable {α : Type*}

/-- A comparison function of a total order; data that compare equal need not be the same. -/
structure TotalCompare (compare : α → α → ℤ) : Prop where
  swap : ∀ a b, 0 < compare a b ↔ compare b a < 0
  trans : ∀ {a b c}, compare a b ≤ 0 → compare b c ≤ 0 → compare a c ≤ 0

variable {compare : α → α → ℤ}

namespace TotalCompare

variable (h : TotalCompare compare) {a b c : α}

include h

theorem refl (a : α) : compare a a = 0 := by
  have := h.swap a a
  omega

theorem eq_zero_comm : compare a b = 0 ↔ compare b a = 0 := by
  have hab := h.swap a b
  have hba := h.swap b a
  omega

theorem lt_of_lt_of_le (hab : compare a b < 0) (hbc : compare b c ≤ 0) : compare a c < 0 := by
  have hca := h.swap c a
  have hba := h.swap b a
  by_contra hnot
  have hle := h.trans hbc (show compare c a ≤ 0 by omega)
  omega

theorem lt_of_le_of_lt (hab : compare a b ≤ 0) (hbc : compare b c < 0) : compare a c < 0 := by
  have hca := h.swap c a
  have hcb := h.swap c b
  by_contra hnot
  have hle := h.trans (show compare c a ≤ 0 by omega) hab
  omega

theorem congr_left (hab : compare a b = 0) : (compare a c < 0 ↔ compare b c < 0) ∧
    (compare a c = 0 ↔ compare b c = 0) := by
  have hba := h.eq_zero_comm.1 hab
  have h₁ : compare a c < 0 → compare b c < 0 := h.lt_of_le_of_lt hba.le
  have h₂ : compare b c < 0 → compare a c < 0 := h.lt_of_le_of_lt hab.le
  have h₃ : compare c a < 0 → compare c b < 0 := fun hlt => h.lt_of_lt_of_le hlt hab.le
  have h₄ : compare c b < 0 → compare c a < 0 := fun hlt => h.lt_of_lt_of_le hlt hba.le
  have hca := h.swap a c
  have hcb := h.swap b c
  omega

omit h in
theorem comap (h : TotalCompare compare) {β : Type*} (f : β → α) :
    TotalCompare fun a b => compare (f a) (f b) :=
  ⟨fun a b => h.swap (f a) (f b), fun hab hbc => h.trans hab hbc⟩

omit h in
theorem sub {f : α → ℤ} : TotalCompare fun a b => f a - f b := by
  constructor <;> intros <;> omega

omit h in
theorem lex (h : TotalCompare compare) {compare' : α → α → ℤ} (h' : TotalCompare compare') :
    TotalCompare fun a b => if compare a b ≠ 0 then compare a b else compare' a b where
  swap a b := by
    have hab := h.swap a b
    have hba := h.swap b a
    have := h'.swap a b
    split_ifs <;> omega
  trans := by
    intro a b c hab hbc
    by_cases hzero : compare a b = 0
    · have hcongr := @congr_left α compare h a b c hzero
      rw [if_neg (not_not.2 hzero)] at hab
      by_cases hzero' : compare b c = 0
      · rw [if_neg (not_not.2 hzero')] at hbc
        rw [if_neg (not_not.2 (hcongr.2.2 hzero'))]
        exact h'.trans hab hbc
      · rw [if_pos hzero'] at hbc
        have hlt := hcongr.1.2 (by omega)
        rw [if_pos hlt.ne]
        exact hlt.le
    · rw [if_pos hzero] at hab
      have hle : compare b c ≤ 0 := by
        split_ifs at hbc <;> omega
      have hlt := h.lt_of_lt_of_le (lt_of_le_of_ne hab hzero) hle
      rw [if_pos hlt.ne]
      exact hlt.le

end TotalCompare

def Sorted (compare : α → α → ℤ) (l : List α) : Prop := l.Pairwise fun a b => compare a b < 0

theorem sorted_append {l r : List α} {d : α} :
    Sorted compare (l ++ d :: r) ↔ Sorted compare l ∧ Sorted compare r ∧
      (∀ a ∈ l, compare a d < 0) ∧ (∀ b ∈ r, compare d b < 0) ∧
      ∀ a ∈ l, ∀ b ∈ r, compare a b < 0 := by
  unfold Sorted
  rw [pairwise_append, pairwise_cons]
  constructor
  · rintro ⟨hl, ⟨hd, hr⟩, hlr⟩
    exact ⟨hl, hr, fun a ha => hlr a ha d mem_cons_self, hd,
      fun a ha b hb => hlr a ha b (mem_cons_of_mem _ hb)⟩
  · rintro ⟨hl, hr, hld, hd, hlr⟩
    refine ⟨hl, ⟨hd, hr⟩, fun a ha b hb => ?_⟩
    rcases mem_cons.1 hb with rfl | hb
    · exact hld a ha
    · exact hlr a ha b hb

/-! ## Putting a datum in its place -/

section

variable (equal : α → α) (target : α)

/-- Put a datum in its place; `equal` says what becomes of a datum that compares equal. -/
def put (compare : α → α → ℤ) : List α → List α
  | [] => [target]
  | d :: l =>
    if 0 < compare d target then target :: d :: l
    else if compare d target < 0 then d :: put compare l
    else equal d :: l

variable {equal target}

theorem put_append_of_pos {d : α} (hd : 0 < compare d target) (l r : List α) :
    put equal target compare (l ++ d :: r) = put equal target compare l ++ d :: r := by
  induction l with
  | nil => exact if_pos hd
  | cons e l ih =>
    rw [cons_append, put, put, ih]
    split_ifs <;> rfl

theorem put_append_of_neg {l : List α} (hl : ∀ a ∈ l, compare a target < 0) (r : List α) :
    put equal target compare (l ++ r) = l ++ put equal target compare r := by
  induction l with
  | nil => rfl
  | cons e l ih =>
    have he := hl e mem_cons_self
    rw [cons_append, put, if_neg (by omega), if_pos he, ih fun a ha => hl a (mem_cons_of_mem _ ha)]
    rfl

end

section

variable {equal : α → α} {target : α} {l : List α}

theorem mem_put {a : α} (ha : a ∈ put equal target compare l) :
    a = target ∨ a ∈ l ∨ ∃ d ∈ l, compare d target = 0 ∧ a = equal d := by
  induction l with
  | nil => exact .inl (mem_singleton.1 ha)
  | cons d l ih =>
    rw [put] at ha
    split_ifs at ha with hpos hneg
    · exact (mem_cons.1 ha).imp_right .inl
    · rcases mem_cons.1 ha with rfl | ha
      · exact .inr (.inl mem_cons_self)
      · rcases ih ha with heq | hmem | ⟨d', hd', hzero⟩
        · exact .inl heq
        · exact .inr (.inl (mem_cons_of_mem _ hmem))
        · exact .inr (.inr ⟨d', mem_cons_of_mem _ hd', hzero⟩)
    · rcases mem_cons.1 ha with rfl | ha
      · exact .inr (.inr ⟨d, mem_cons_self, by omega, rfl⟩)
      · exact .inr (.inl (mem_cons_of_mem _ ha))

theorem Sorted.put (hcompare : TotalCompare compare) (hl : Sorted compare l)
    (hequal : ∀ d, compare d target = 0 → compare (equal d) target = 0) :
    Sorted compare (put equal target compare l) := by
  induction l with
  | nil => exact pairwise_singleton _ _
  | cons d l ih =>
    have hd := pairwise_cons.1 hl
    have hswap := hcompare.swap d target
    rw [OrderedList.put]
    split_ifs with hpos hneg
    · refine pairwise_cons.2 ⟨fun a ha => ?_, hl⟩
      rcases mem_cons.1 ha with rfl | ha
      · omega
      · exact hcompare.lt_of_lt_of_le (hswap.1 hpos) (hd.1 a ha).le
    · refine pairwise_cons.2 ⟨fun a ha => ?_, ih hd.2⟩
      rcases mem_put ha with rfl | hmem | ⟨d', hd', hzero, rfl⟩
      · exact hneg
      · exact hd.1 a hmem
      · exact hcompare.lt_of_lt_of_le hneg (hcompare.eq_zero_comm.1 (hequal d' hzero)).le
    · refine pairwise_cons.2 ⟨fun a ha => ?_, hd.2⟩
      have hzero := hequal d (by omega)
      have htarget := hcompare.eq_zero_comm.1 (show compare d target = 0 by omega)
      have hle := hcompare.trans hzero.le htarget.le
      exact hcompare.lt_of_le_of_lt hle (hd.1 a ha)

theorem Sorted.eq_of_zero (hcompare : TotalCompare compare) (hl : Sorted compare l) {a b : α}
    (ha : a ∈ l) (hb : b ∈ l) (hzero : compare a b = 0) : a = b := by
  induction l with
  | nil => cases ha
  | cons d l ih =>
    have hd := pairwise_cons.1 hl
    have hzero' := hcompare.eq_zero_comm.1 hzero
    rcases mem_cons.1 ha with had | ha' <;> rcases mem_cons.1 hb with hbd | hb'
    · rw [had, hbd]
    · have := hd.1 b hb'
      rw [had] at hzero
      omega
    · have := hd.1 a ha'
      rw [hbd] at hzero'
      omega
    · exact ih hd.2 ha' hb'

end

def remove (compare : α → α → ℤ) (target : α) : List α → List α
  | [] => []
  | d :: l =>
    if 0 < compare d target then d :: l
    else if compare d target < 0 then d :: remove compare target l
    else l

theorem remove_append_of_pos {target d : α} (hd : 0 < compare d target) (l r : List α) :
    remove compare target (l ++ d :: r) = remove compare target l ++ d :: r := by
  induction l with
  | nil => exact if_pos hd
  | cons e l ih =>
    rw [cons_append, remove, remove, ih]
    split_ifs <;> rfl

theorem remove_append_of_neg {target : α} {l : List α} (hl : ∀ a ∈ l, compare a target < 0)
    (r : List α) : remove compare target (l ++ r) = l ++ remove compare target r := by
  induction l with
  | nil => rfl
  | cons e l ih =>
    have he := hl e mem_cons_self
    rw [cons_append, remove, if_neg (by omega), if_pos he,
      ih fun a ha => hl a (mem_cons_of_mem _ ha)]
    rfl

/-! ## The data as a set

What the operations do to the data, without regard to their order. -/

section

variable (compare) (l : List α) (target : α)

def insertAbs : List α :=
  if l.any fun d => decide (compare d target = 0) then l else target :: l

def deleteAbs : List α := l.filter fun d => decide (compare d target ≠ 0)

def replaceAbs : List α := target :: deleteAbs compare l target

def equalAbs : List α := l.filter fun d => decide (compare d target = 0)

variable {compare l target}

theorem insertAbs_perm {l' : List α} (h : l.Perm l') :
    (insertAbs compare l target).Perm (insertAbs compare l' target) := by
  unfold insertAbs
  rw [h.any_eq]
  split_ifs
  · exact h
  · exact h.cons _

theorem filter_of_ne_zero (h : ∀ d ∈ l, compare d target ≠ 0) :
    l.filter (fun d => decide (compare d target ≠ 0)) = l :=
  filter_eq_self.2 fun d hd => decide_eq_true (h d hd)

theorem equalAbs_of_ne_zero (h : ∀ d ∈ l, compare d target ≠ 0) : equalAbs compare l target = [] :=
  filter_eq_nil_iff.2 fun d hd => by simpa using h d hd

variable (hcompare : TotalCompare compare)

include hcompare

theorem Sorted.pos_of_nonneg {d : α}
    (hl : Sorted compare (d :: l)) (hd : 0 ≤ compare d target) : ∀ a ∈ l, 0 < compare a target := by
  intro a ha
  have hlt := (pairwise_cons.1 hl).1 a ha
  have hswap := hcompare.swap target d
  have hlt' := hcompare.lt_of_le_of_lt (show compare target d ≤ 0 by omega) hlt
  exact (hcompare.swap a target).2 hlt'

theorem put_perm_insertAbs (hl : Sorted compare l) :
    (put id target compare l).Perm (insertAbs compare l target) := by
  induction l with
  | nil => rfl
  | cons d l ih =>
    have hd := pairwise_cons.1 hl
    rw [put]
    unfold insertAbs at ih ⊢
    rw [any_cons]
    split_ifs with hpos hany hneg hany hany
    · rw [Bool.or_eq_true, any_eq_true] at hany
      rcases hany with hany | ⟨a, ha, hany⟩
      · exact absurd (of_decide_eq_true hany) (by omega)
      · have := hl.pos_of_nonneg hcompare hpos.le a ha
        exact absurd (of_decide_eq_true hany) (by omega)
    · rfl
    · have hne : decide (compare d target = 0) = false := decide_eq_false (by omega)
      rw [hne, Bool.false_or] at hany
      rw [if_pos hany] at ih
      exact (ih hd.2).cons d
    · have hne : decide (compare d target = 0) = false := decide_eq_false (by omega)
      rw [hne, Bool.false_or] at hany
      rw [if_neg hany] at ih
      exact ((ih hd.2).cons d).trans (List.Perm.swap target d l)
    · rfl
    · have heq : decide (compare d target = 0) = true := decide_eq_true (by omega)
      rw [heq] at hany
      exact absurd rfl hany

theorem remove_eq_deleteAbs (hl : Sorted compare l) :
    remove compare target l = deleteAbs compare l target := by
  induction l with
  | nil => rfl
  | cons d l ih =>
    have hd := pairwise_cons.1 hl
    unfold deleteAbs at ih ⊢
    rw [remove, filter_cons]
    split_ifs with hpos hne hneg hne hne
    · rw [filter_of_ne_zero fun a ha => (hl.pos_of_nonneg hcompare hpos.le a ha).ne']
    · simp only [ne_eq, decide_not, Bool.not_eq_true', decide_eq_false_iff_not, not_not] at hne
      omega
    · rw [ih hd.2]
    · simp only [ne_eq, decide_not, Bool.not_eq_true', decide_eq_false_iff_not, not_not] at hne
      omega
    · have := of_decide_eq_true hne
      omega
    · rw [filter_of_ne_zero fun a ha => (hl.pos_of_nonneg hcompare (not_lt.1 hneg) a ha).ne']

theorem put_perm_replaceAbs (hl : Sorted compare l) :
    (put (fun _ => target) target compare l).Perm (replaceAbs compare l target) := by
  unfold replaceAbs
  rw [← remove_eq_deleteAbs hcompare hl]
  clear hl
  induction l with
  | nil => rfl
  | cons d l ih =>
    rw [put, remove]
    split_ifs with hpos hneg
    · rfl
    · exact (ih.cons d).trans (List.Perm.swap target d _)
    · rfl

end

/-! ## Byte strings -/

/-- `memcmp`, with the shorter one of two strings first. -/
def memcmp : List UInt8 → List UInt8 → ℤ
  | [], [] => 0
  | [], _ :: _ => -1
  | _ :: _, [] => 1
  | a :: s, b :: t => if a = b then memcmp s t else (a.toNat : ℤ) - b.toNat

theorem memcmp_eq_zero : ∀ {s t : List UInt8}, memcmp s t = 0 ↔ s = t
  | [], [] | [], _ :: _ | _ :: _, [] => by simp [memcmp]
  | a :: s, b :: t => by
    rw [memcmp, List.cons.injEq]
    split_ifs with hab
    · rw [memcmp_eq_zero]
      exact ⟨fun h => ⟨hab, h⟩, fun h => h.2⟩
    · have hne : a.toNat ≠ b.toNat := fun h => hab (UInt8.toNat_inj.1 h)
      constructor
      · intro h
        omega
      · exact fun h => absurd h.1 hab

theorem totalCompare_memcmp : TotalCompare memcmp where
  swap s t := by
    induction s generalizing t with
    | nil => cases t <;> simp [memcmp]
    | cons a s ih =>
      cases t with
      | nil => simp [memcmp]
      | cons b t =>
        rw [memcmp, memcmp]
        by_cases hab : a = b
        · rw [if_pos hab, if_pos hab.symm]
          exact ih t
        · rw [if_neg hab, if_neg (Ne.symm hab)]
          omega
  trans := by
    intro s t u
    induction s generalizing t u with
    | nil => cases t <;> cases u <;> simp [memcmp]
    | cons a s ih =>
      cases t with
      | nil => simp [memcmp]
      | cons b t =>
        cases u with
        | nil => simp [memcmp]
        | cons c u =>
          rw [memcmp, memcmp, memcmp]
          have hlt : ∀ {x y : UInt8}, x ≠ y → x.toNat ≠ y.toNat := fun h heq =>
            h (UInt8.toNat_inj.1 heq)
          by_cases hab : a = b
          · subst hab
            rw [if_pos rfl]
            by_cases hac : a = c
            · rw [if_pos hac, if_pos hac]
              exact ih
            · rw [if_neg hac, if_neg hac]
              exact fun _ h => h
          · rw [if_neg hab]
            have hne := hlt hab
            by_cases hbc : b = c
            · subst hbc
              rw [if_neg hab]
              exact fun h _ => h
            · rw [if_neg hbc]
              intro h h'
              rw [if_neg]
              · omega
              · rintro rfl
                omega

end ServerStack.OrderedList
