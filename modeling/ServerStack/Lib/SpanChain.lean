import Mathlib

/-!
# Chains with spans

A list of elements, some of which stand on a chain: each of these has a pointer to the next one and
the number of steps along the list to it, or to the end of the list if it is the last.  The levels
of a skip list are such chains over one list.  Inserting and removing an element changes the pointer
and the span of one element per chain, the last one before the place (`LastIn`), where a search
stops.
-/

namespace ServerStack.SpanChain

open List

variable {α : Type} {p : α → Bool} {next next' : α → Option α} {span span' : α → ℕ}
  {A B P R : List α} {u x y : α} {n : ℕ}

def steps (p : α → Bool) : List α → ℕ
  | [] => 0
  | y :: l => if p y then 1 else steps p l + 1

/-- Pointers and spans describe the chain of the elements with `p`. -/
def Linked (p : α → Bool) (next : α → Option α) (span : α → ℕ) (l : List α) : Prop :=
  ∀ P x R, l = P ++ x :: R → p x = true → next x = R.find? p ∧ span x = steps p R

def LastIn (p : α → Bool) (A : List α) (u : α) (n : ℕ) : Prop :=
  ∃ P R, A = P ++ u :: R ∧ P.length = n ∧ p u = true ∧ ∀ y ∈ R, p y = false

theorem steps_le_length (p : α → Bool) (l : List α) : steps p l ≤ l.length := by
  induction l with
  | nil => rfl
  | cons y l ih =>
    rw [steps, length_cons]
    split_ifs <;> omega

theorem steps_append_of_none (hA : ∀ y ∈ A, p y = false) :
    steps p (A ++ B) = A.length + steps p B := by
  induction A with
  | nil => simp
  | cons y A ih =>
    rw [cons_append, steps, hA y mem_cons_self,
      ih fun z hz => hA z (mem_cons_of_mem y hz), length_cons, if_neg (by simp)]
    omega

theorem steps_append_of_mem (hy : y ∈ A) (hp : p y = true) : steps p (A ++ B) = steps p A := by
  induction A with
  | nil => cases hy
  | cons z A ih =>
    rw [cons_append, steps, steps]
    rcases mem_cons.1 hy with rfl | hy
    · rw [if_pos hp, if_pos hp]
    · rw [ih hy]

theorem find?_append_of_none (hA : ∀ y ∈ A, p y = false) : (A ++ B).find? p = B.find? p := by
  rw [find?_append, find?_eq_none.2 fun y hy => by simp [hA y hy], Option.none_or]

theorem find?_append_of_mem (hy : y ∈ A) (hp : p y = true) : (A ++ B).find? p = A.find? p := by
  obtain ⟨z, hz⟩ := Option.isSome_iff_exists.1 (find?_isSome.2 ⟨y, hy, hp⟩)
  rw [find?_append, hz, Option.some_or]

theorem linked_first (hA : ∀ y ∈ A, p y = false) (hnext : next x = none)
    (hspan : span x = A.length) : Linked p next span (x :: A) := by
  intro P y R hsplit hy
  cases P with
  | nil =>
    obtain ⟨rfl, rfl⟩ := List.cons.inj hsplit
    have hsteps := steps_append_of_none hA (B := [])
    rw [append_nil] at hsteps
    rw [hnext, hspan, hsteps, find?_eq_none.2 fun y hy => by simp [hA y hy]]
    exact ⟨rfl, rfl⟩
  | cons z P =>
    obtain ⟨rfl, rfl⟩ := List.cons.inj hsplit
    simp [hA y (by simp)] at hy

theorem split_unique {P' R' : List α} (hnd : (P ++ x :: R).Nodup)
    (h : P ++ x :: R = P' ++ x :: R') : P = P' ∧ R = R' := by
  induction P generalizing P' with
  | nil =>
    cases P' with
    | nil => exact ⟨rfl, (List.cons.inj h).2⟩
    | cons y P' =>
      obtain ⟨rfl, rfl⟩ := List.cons.inj h
      simp at hnd
  | cons y P ih =>
    cases P' with
    | nil =>
      obtain ⟨rfl, -⟩ := List.cons.inj h
      simp at hnd
    | cons z P' =>
      obtain ⟨rfl, htail⟩ := List.cons.inj h
      obtain ⟨rfl, rfl⟩ := ih (nodup_cons.1 hnd).2 htail
      exact ⟨rfl, rfl⟩

theorem LastIn.mem (h : LastIn p A u n) : u ∈ A := by
  obtain ⟨P, R, rfl, -⟩ := h
  simp

theorem LastIn.lt_length (h : LastIn p A u n) : n < A.length := by
  obtain ⟨P, R, rfl, rfl, -⟩ := h
  simp

theorem LastIn.after (h : LastIn p A u n) (hA : A = P ++ y :: R) (hy : p y = true) :
    (y = u ∧ P.length = n ∧ ∀ z ∈ R, p z = false) ∨ u ∈ R := by
  obtain ⟨P', R', rfl, rfl, hu, hR'⟩ := h
  rcases append_eq_append_iff.1 hA with ⟨as, rfl, has⟩ | ⟨as, rfl, has⟩
  · cases as with
    | nil =>
      obtain ⟨rfl, rfl⟩ := List.cons.inj has
      exact .inl ⟨rfl, by simp, hR'⟩
    | cons z as =>
      obtain ⟨rfl, rfl⟩ := List.cons.inj has
      have := hR' y (by simp)
      simp [hy] at this
  · cases as with
    | nil =>
      obtain ⟨rfl, rfl⟩ := List.cons.inj has
      exact .inl ⟨rfl, by simp, hR'⟩
    | cons z as =>
      obtain ⟨rfl, rfl⟩ := List.cons.inj has
      exact .inr (by simp)

variable {p' : α → Bool}

theorem steps_congr (hp : ∀ y ∈ A, p' y = p y) : steps p' A = steps p A := by
  induction A with
  | nil => rfl
  | cons y A ih =>
    rw [steps, steps, hp y mem_cons_self, ih fun z hz => hp z (mem_cons_of_mem y hz)]

theorem find?_congr (hp : ∀ y ∈ A, p' y = p y) : A.find? p' = A.find? p := by
  induction A with
  | nil => rfl
  | cons y A ih =>
    rw [find?_cons, find?_cons, hp y mem_cons_self, ih fun z hz => hp z (mem_cons_of_mem y hz)]

theorem Linked.congr (h : Linked p next span A) (hp : ∀ y ∈ A, p' y = p y)
    (hnext : ∀ y ∈ A, next' y = next y) (hspan : ∀ y ∈ A, span' y = span y) :
    Linked p' next' span' A := by
  rintro P x R rfl hx
  have hR : ∀ y ∈ R, p' y = p y := fun y hy => hp y (by simp [hy])
  have hmem : x ∈ P ++ x :: R := by simp
  rw [hp x hmem] at hx
  rw [hnext x hmem, hspan x hmem, steps_congr hR, find?_congr hR]
  exact h P x R rfl hx

theorem LastIn.congr (h : LastIn p A u n) (hp : ∀ y ∈ A, p' y = p y) : LastIn p' A u n := by
  obtain ⟨P, R, rfl, hn, hu, hR⟩ := h
  refine ⟨P, R, rfl, hn, ?_, fun y hy => ?_⟩
  · rw [hp u (by simp), hu]
  · rw [hp y (by simp [hy]), hR y hy]

/-! ## Insertion and removal -/

theorem Linked.at_last (h : Linked p next span (A ++ B)) (hu : LastIn p A u n) :
    next u = B.find? p ∧ span u + n + 1 = A.length + steps p B := by
  obtain ⟨P, R, rfl, rfl, hpu, hR⟩ := hu
  obtain ⟨hnext, hspan⟩ := h P u (R ++ B) (by simp) hpu
  rw [hnext, hspan, find?_append_of_none hR, steps_append_of_none hR]
  refine ⟨rfl, ?_⟩
  rw [length_append, length_cons]
  omega

theorem find?_steps_of_before (Q Q' : List α) (hu : u ∈ R) (hpu : p u = true) :
    (R ++ Q).find? p = (R ++ Q').find? p ∧ steps p (R ++ Q) = steps p (R ++ Q') := by
  rw [find?_append_of_mem hu hpu, find?_append_of_mem hu hpu, steps_append_of_mem hu hpu,
    steps_append_of_mem hu hpu]
  exact ⟨rfl, rfl⟩

section

variable (h : Linked p next span (A ++ B))

include h

theorem Linked.right : Linked p next span B := by
  rintro P x R rfl hx
  exact h (A ++ P) x R (by simp) hx

/-- Change what follows a place: of the elements before it only the last one of the chain is
concerned. -/
theorem Linked.replace {B' : List α} (hnd : A.Nodup)
    (hu : LastIn p A u n) (hA : ∀ y ∈ A, y ≠ u → next' y = next y ∧ span' y = span y)
    (hlast : next' u = B'.find? p ∧ span' u + n + 1 = A.length + steps p B')
    (hB : Linked p next' span' B') : Linked p next' span' (A ++ B') := by
  intro P y R hsplit hpy
  rcases append_eq_append_iff.1 hsplit with ⟨as, rfl, has⟩ | ⟨as, rfl, has⟩
  · exact hB as y R has hpy
  · cases as with
    | nil => exact hB [] y R has.symm hpy
    | cons z as =>
      rw [cons_append] at has
      obtain ⟨rfl, rfl⟩ := List.cons.inj has
      rcases hu.after rfl hpy with ⟨rfl, hn, hnone⟩ | hmem
      · rw [hlast.1, find?_append_of_none hnone, steps_append_of_none hnone]
        refine ⟨rfl, ?_⟩
        have := hlast.2
        rw [length_append, length_cons] at this
        omega
      · have hpu : p u = true := by
          obtain ⟨P', R', -, -, hpu, -⟩ := hu
          exact hpu
        have hne : y ≠ u := by
          rintro rfl
          exact (nodup_cons.1 (nodup_append.1 hnd).2.1).1 hmem
        have hold := h P y (as ++ B) (by simp) hpy
        have hsame := find?_steps_of_before B B' hmem hpu
        rw [(hA y (by simp) hne).1, (hA y (by simp) hne).2, hold.1, hold.2]
        exact hsame

/-- Insert an element: on the chain it goes between the last element before the place and the next
one, otherwise the span over the place grows by one. -/
theorem Linked.insert (hnd : (A ++ B).Nodup) (hu : LastIn p A u n)
    (hother : ∀ y ∈ A ++ B, y ≠ u → next' y = next y ∧ span' y = span y)
    (hlast : next' u = (if p x then some x else next u) ∧
      span' u = if p x then A.length - 1 - n + 1 else span u + 1)
    (hnew : p x = true → next' x = next u ∧ span' x = span u - (A.length - 1 - n)) :
    Linked p next' span' (A ++ x :: B) := by
  obtain ⟨hnext, hspan⟩ := h.at_last hu
  have hn := hu.lt_length
  obtain ⟨hndA, -, hdisj⟩ := nodup_append.1 hnd
  refine h.replace hndA hu (fun y hy => hother y (mem_append_left B hy)) ?_ ?_
  · rw [hlast.1, hlast.2, find?_cons, steps]
    cases hpx : p x with
    | true =>
      refine ⟨rfl, ?_⟩
      simp only [if_true]
      omega
    | false =>
      refine ⟨hnext, ?_⟩
      simp only [Bool.false_eq_true, if_false]
      omega
  · intro P y R hsplit hpy
    cases P with
    | nil =>
      obtain ⟨rfl, rfl⟩ := List.cons.inj hsplit
      rw [(hnew hpy).1, (hnew hpy).2]
      exact ⟨hnext, by omega⟩
    | cons z P =>
      obtain ⟨rfl, rfl⟩ := List.cons.inj hsplit
      have hne : y ≠ u := fun heq => hdisj u hu.mem y (by simp) heq.symm
      have hy := hother y (by simp) hne
      rw [hy.1, hy.2]
      exact h.right P y R rfl hpy

end

/-- Remove an element: on the chain the last element before it takes over its pointer, otherwise
the span over its place shrinks by one. -/
theorem Linked.remove [DecidableEq α] (h : Linked p next span (A ++ x :: B))
    (hnd : (A ++ x :: B).Nodup) (hu : LastIn p A u n)
    (hother : ∀ y ∈ A ++ x :: B, y ≠ u → next' y = next y ∧ span' y = span y)
    (hlast : next' u = (if next u = some x then next x else next u) ∧
      span' u = if next u = some x then span u + span x - 1 else span u - 1) :
    Linked p next' span' (A ++ B) := by
  obtain ⟨hnext, hspan⟩ := h.at_last hu
  have hn := hu.lt_length
  obtain ⟨hndA, hndB, hdisj⟩ := nodup_append.1 hnd
  refine h.replace hndA hu (fun y hy => hother y (mem_append_left _ hy)) ?_ ?_
  · rw [hlast.1, hlast.2]
    rw [find?_cons] at hnext
    rw [steps] at hspan
    cases hpx : p x with
    | true =>
      rw [hpx] at hnext hspan
      obtain ⟨hnext', hspan'⟩ := h A x B rfl hpx
      rw [if_pos hnext, if_pos hnext]
      refine ⟨hnext', ?_⟩
      simp only [if_true] at hspan
      omega
    | false =>
      rw [hpx] at hnext hspan
      have hne : next u ≠ some x := by
        intro heq
        exact (nodup_cons.1 hndB).1 (mem_of_find?_eq_some (hnext.symm.trans heq))
      rw [if_neg hne, if_neg hne]
      refine ⟨hnext, ?_⟩
      simp only [Bool.false_eq_true, if_false] at hspan
      omega
  · rintro P y R rfl hpy
    have hne : y ≠ u := fun heq => hdisj u hu.mem y (by simp) heq.symm
    have hy := hother y (by simp) hne
    rw [hy.1, hy.2]
    exact h.right (x :: P) y R rfl hpy

/-! ## Searching -/

/-- Go along the chain as long as the position and the element reached pass the test. -/
def walk (next : α → Option α) (span : α → ℕ) (go : ℕ → α → Bool) : ℕ → α → ℕ → α × ℕ
  | 0, x, t => (x, t)
  | fuel + 1, x, t =>
    match next x with
    | some y => if go (t + span x) y then walk next span go fuel y (t + span x) else (x, t)
    | none => (x, t)

/-- The test holds of the elements before the place `A.length`, the first one apart. -/
def Cut (go : ℕ → α → Bool) (A B : List α) : Prop :=
  ∀ P y R, A ++ B = P ++ y :: R → P ≠ [] → (go P.length y = true ↔ P.length < A.length)

theorem cut_takeWhile {test : α → Bool} {l : List α} (first : α)
    (hmono : l.Pairwise fun a b => test b = true → test a = true) :
    Cut (fun _ y => test y) (first :: l.takeWhile test) (l.dropWhile test) := by
  intro P y R hsplit hP
  obtain ⟨w, P, rfl⟩ := exists_cons_of_ne_nil hP
  rw [cons_append, takeWhile_append_dropWhile, cons_append] at hsplit
  obtain ⟨rfl, rfl⟩ := List.cons.inj hsplit
  simp only [length_cons, Nat.add_lt_add_iff_right]
  have hbefore := (pairwise_append.1 hmono).2.2
  constructor
  · -- everything before `y` passes the test, too
    intro hy
    have hP' : ∀ z ∈ P, test z = true := fun z hz => hbefore z hz y mem_cons_self hy
    rw [takeWhile_append_of_pos hP', takeWhile_cons_of_pos hy, length_append, length_cons]
    omega
  · intro hlen
    by_contra hy
    have hle : ((P ++ y :: R).takeWhile test).length ≤ P.length := by
      rw [takeWhile_append]
      split_ifs
      · rw [takeWhile_cons_of_neg hy, append_nil]
      · exact ( takeWhile_prefix test).length_le
    omega

theorem cut_take {test : ℕ → Bool} {l : List α} (first : α) {k : ℕ}
    (htest : ∀ n, 0 < n → (test n = true ↔ n ≤ k)) :
    Cut (fun n _ => test n) (first :: l.take k) (l.drop k) := by
  intro P y R hsplit hP
  have hlen := congrArg List.length hsplit
  rw [cons_append, take_append_drop, length_cons, length_append, length_cons] at hlen
  rw [htest P.length (length_pos_iff.2 hP), length_cons, length_take]
  omega

theorem exists_first (hy : y ∈ R) (hp : p y = true) :
    ∃ R₁ z R₂, R = R₁ ++ z :: R₂ ∧ (∀ w ∈ R₁, p w = false) ∧ p z = true := by
  induction R with
  | nil => cases hy
  | cons w R ih =>
    cases hw : p w with
    | true => exact ⟨[], w, R, rfl, by simp, hw⟩
    | false =>
      rcases mem_cons.1 hy with rfl | hy
      · simp [hp] at hw
      · obtain ⟨R₁, z, R₂, rfl, hR₁, hz⟩ := ih hy
        refine ⟨w :: R₁, z, R₂, rfl, ?_, hz⟩
        simp only [mem_cons, forall_eq_or_imp]
        exact ⟨hw, hR₁⟩

theorem find?_steps_first {R₁ Q : List α} (hR₁ : ∀ w ∈ R₁, p w = false) (hx : p x = true) :
    (R₁ ++ x :: Q).find? p = some x ∧ steps p (R₁ ++ x :: Q) = R₁.length + 1 := by
  rw [find?_append_of_none hR₁, steps_append_of_none hR₁, find?_cons, steps, hx]
  exact ⟨rfl, rfl⟩

theorem Linked.walk {go : ℕ → α → Bool} (h : Linked p next span (A ++ B)) (hcut : Cut go A B)
    {fuel : ℕ} (hA : A = P ++ x :: R) (hx : p x = true) (hfuel : R.length < fuel) :
    LastIn p A (SpanChain.walk next span go fuel x P.length).1
      (SpanChain.walk next span go fuel x P.length).2 := by
  induction fuel generalizing P x R with
  | zero => cases hfuel
  | succ fuel ih =>
    obtain ⟨hnext, hspan⟩ := h P x (R ++ B) (by simp [hA]) hx
    rw [SpanChain.walk, hnext, hspan]
    by_cases hR : ∀ y ∈ R, p y = false
    · have hstop : LastIn p A x P.length := ⟨P, R, hA, rfl, hx, hR⟩
      by_cases hB : ∃ y ∈ B, p y = true
      · obtain ⟨w, hw, hpw⟩ := hB
        obtain ⟨B₁, z, B₂, rfl, hB₁, hz⟩ := exists_first hw hpw
        obtain ⟨hfind, hsteps⟩ := find?_steps_first hB₁ hz (Q := B₂)
        rw [find?_append_of_none hR, steps_append_of_none hR, hfind, hsteps]
        -- the next element of the chain is behind the place
        have hgo := hcut (A ++ B₁) z B₂ (by simp) (by simp [hA])
        rw [show (A ++ B₁).length = P.length + (R.length + (B₁.length + 1)) by
          simp [hA]; omega] at hgo
        have hlen : A.length = P.length + (R.length + 1) := by simp [hA]
        have hfalse : ¬ go (P.length + (R.length + (B₁.length + 1))) z = true := by
          rw [hgo]
          omega
        simp only [if_neg hfalse]
        exact hstop
      · have hnone : B.find? p = none := find?_eq_none.2 fun y hy hpy => hB ⟨y, hy, hpy⟩
        rw [find?_append_of_none hR, hnone]
        exact hstop
    · push Not at hR
      obtain ⟨w, hw, hpw⟩ := hR
      obtain ⟨R₁, z, R₂, rfl, hR₁, hz⟩ := exists_first hw (eq_true_of_ne_false hpw)
      obtain ⟨hfind, hsteps⟩ := find?_steps_first hR₁ hz (Q := R₂ ++ B)
      rw [append_assoc, cons_append, hfind, hsteps]
      have hpos : P.length + (R₁.length + 1) = (P ++ x :: R₁).length := by simp
      have hA' : A = (P ++ x :: R₁) ++ z :: R₂ := by simp [hA]
      have hgo : go (P ++ x :: R₁).length z = true := by
        rw [hcut (P ++ x :: R₁) z (R₂ ++ B) (by simp [hA]) (by simp), hA']
        simp
      rw [hpos]
      simp only [hgo, if_true]
      rw [length_append, length_cons] at hfuel
      exact ih hA' hz (by omega)

/-! ## Pointers back -/

def Mirrored (back : α → Option α) (l : List α) : Prop :=
  ∀ P x R, l = P ++ x :: R → back x = P.getLast?

variable {back back' : α → Option α}

theorem Mirrored.behind (A' : List α) (h : Mirrored back (A ++ B))
    (hhead : ∀ y, B.head? = some y → back' y = A'.getLast?)
    (hother : ∀ y ∈ B.tail, back' y = back y) (hP : B = P ++ y :: R) :
    back' y = (A' ++ P).getLast? := by
  cases P with
  | nil => rw [append_nil, hhead y (by rw [hP]; rfl)]
  | cons z P =>
    rw [hother y (by simp [hP]), h (A ++ z :: P) y R (by simp [hP]), getLast?_append_cons,
      getLast?_append_cons]

theorem Mirrored.insert (h : Mirrored back (A ++ B))
    (hbefore : ∀ y ∈ A, back' y = back y) (hx : back' x = A.getLast?)
    (hhead : ∀ y, B.head? = some y → back' y = some x)
    (hother : ∀ y ∈ B.tail, back' y = back y) : Mirrored back' (A ++ x :: B) := by
  intro P y R hsplit
  rcases append_eq_append_iff.1 hsplit with ⟨as, rfl, has⟩ | ⟨as, rfl, has⟩
  · cases as with
    | nil =>
      obtain ⟨rfl, rfl⟩ := List.cons.inj has
      rw [hx, append_nil]
    | cons z as =>
      obtain ⟨rfl, hB⟩ := List.cons.inj has
      have := h.behind (A ++ [x]) (by simpa using hhead) hother hB
      simpa using this
  · cases as with
    | nil =>
      obtain ⟨rfl, rfl⟩ := List.cons.inj has
      rw [hx, append_nil]
    | cons z as =>
      obtain ⟨rfl, -⟩ := List.cons.inj has
      rw [hbefore y (by simp)]
      exact h P y (as ++ B) (by simp)

theorem Mirrored.remove (h : Mirrored back (A ++ x :: B))
    (hbefore : ∀ y ∈ A, back' y = back y) (hhead : ∀ y, B.head? = some y → back' y = back x)
    (hother : ∀ y ∈ B.tail, back' y = back y) : Mirrored back' (A ++ B) := by
  have hx : back x = A.getLast? := h A x B rfl
  intro P y R hsplit
  rcases append_eq_append_iff.1 hsplit with ⟨as, rfl, has⟩ | ⟨as, rfl, has⟩
  · exact Mirrored.behind A (A := A ++ [x]) (by simpa using h) (by simpa [hx] using hhead) hother has
  · cases as with
    | nil =>
      have := Mirrored.behind P (A := P ++ [x]) (by simpa using h)
        (by simpa [hx] using hhead) hother (P := []) has.symm
      simpa using this
    | cons z as =>
      obtain ⟨rfl, -⟩ := List.cons.inj has
      rw [hbefore y (by simp)]
      exact h P y (as ++ x :: B) (by simp)

end ServerStack.SpanChain
