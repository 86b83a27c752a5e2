import ServerStack.Lib.Outcome

/-!
# Cursors over sorted lists

A cursor over a list of pairs that is sorted by key is a position in the list, or no position.  Each
of its moves goes to the nearest pair whose key lies in some range, so a machine that goes to these
pairs agrees with the cursor along every sequence of moves.
-/

namespace ServerStack.SortedCursor

open Outcome List Option

variable {K V σ : Type}

inductive Move (K : Type) where
  | seekToFirst
  | seekToLast
  | seek (target : K)
  | next
  | prev

def Move.Relative : Move K → Prop
  | .next | .prev => True
  | _ => False

inductive CursorError where
  | notValid
  deriving DecidableEq, Repr

/-! ## The cursor -/

def position (l : List (K × V)) (i : ℕ) : Option ℕ := if i < l.length then some i else none

def move [LinearOrder K] (l : List (K × V)) (pos : Option ℕ) : Move K → Except CursorError (Option ℕ)
  | .seekToFirst => .ok (position l 0)
  | .seekToLast => .ok (if l = [] then none else some (l.length - 1))
  | .seek target => .ok (position l (l.findIdx fun e => target ≤ e.1))
  | .next =>
    match pos with
    | none => .error .notValid
    | some i => .ok (position l (i + 1))
  | .prev =>
    match pos with
    | none => .error .notValid
    | some 0 => .ok none
    | some (i + 1) => .ok (some i)

section

variable (l : List (K × V))

def get (pos : Option ℕ) : Option (K × V) := pos.bind fun i => l[i]?

def InRange (pos : Option ℕ) : Prop := ∀ i, pos = some i → i < l.length

theorem inRange_none : InRange l none := fun _ hi => by cases hi

theorem inRange_position (i : ℕ) : InRange l (position l i) := by
  intro j hj
  rw [position] at hj
  split_ifs at hj with hi
  rwa [← some.inj hj]

theorem get_position (i : ℕ) : get l (position l i) = l[i]? := by
  rw [position]
  split_ifs with hi
  · rfl
  · exact (getElem?_eq_none (Nat.not_lt.1 hi)).symm

end

variable {l : List (K × V)} {pos : Option ℕ} {a b : K × V} {j : ℕ}

theorem get_eq_none_iff (hpos : InRange l pos) : get l pos = none ↔ pos = none := by
  cases pos with
  | none => exact iff_of_true rfl rfl
  | some i =>
    refine iff_of_false ?_ (some_ne_none i)
    rw [show get l (some i) = l[i]? from rfl, getElem?_eq_getElem (hpos i rfl)]
    exact some_ne_none _

/-! ## The nearest pair in a range of keys -/

variable [LinearOrder K]

section

variable (l : List (K × V))

def IsFirst (range : K → Prop) : Option (K × V) → Prop
  | none => ∀ e ∈ l, ¬ range e.1
  | some e => e ∈ l ∧ range e.1 ∧ ∀ e' ∈ l, range e'.1 → e.1 ≤ e'.1

def IsLast (range : K → Prop) : Option (K × V) → Prop
  | none => ∀ e ∈ l, ¬ range e.1
  | some e => e ∈ l ∧ range e.1 ∧ ∀ e' ∈ l, range e'.1 → e'.1 ≤ e.1

def Reaches (current : Option (K × V)) : Move K → Option (K × V) → Prop
  | .seekToFirst, r => IsFirst l (fun _ => True) r
  | .seekToLast, r => IsLast l (fun _ => True) r
  | .seek target, r => IsFirst l (fun k => target ≤ k) r
  | .next, r => ∃ e, current = some e ∧ IsFirst l (fun k => e.1 < k) r
  | .prev, r => ∃ e, current = some e ∧ IsLast l (fun k => k < e.1) r

def Sorted : Prop := l.Pairwise fun a b => a.1 < b.1

end

theorem Sorted.lt (h : Sorted l) {i : ℕ} (hij : i < j) (ha : l[i]? = some a) (hb : l[j]? = some b) :
    a.1 < b.1 := by
  obtain ⟨hi, rfl⟩ := List.getElem?_eq_some_iff.1 ha
  obtain ⟨hj, rfl⟩ := List.getElem?_eq_some_iff.1 hb
  exact pairwise_iff_getElem.1 h i j hi hj hij

theorem Sorted.le (h : Sorted l) {i : ℕ} (hij : i ≤ j) (ha : l[i]? = some a) (hb : l[j]? = some b) :
    a.1 ≤ b.1 := by
  rcases hij.lt_or_eq with hlt | rfl
  · exact (h.lt hlt ha hb).le
  · rw [some.inj (ha.symm.trans hb)]

theorem Sorted.eq_of_key_eq (h : Sorted l) (ha : a ∈ l) (hb : b ∈ l) (hkey : a.1 = b.1) :
    a = b := by
  obtain ⟨i, hi⟩ := mem_iff_getElem?.1 ha
  obtain ⟨j, hj⟩ := mem_iff_getElem?.1 hb
  rcases lt_trichotomy i j with hlt | rfl | hlt
  · exact absurd hkey (h.lt hlt hi hj).ne
  · exact some.inj (hi.symm.trans hj)
  · exact absurd hkey.symm (h.lt hlt hj hi).ne

variable {l : List (K × V)}

theorem IsFirst.unique (hl : Set.InjOn Prod.fst {e | e ∈ l}) {range : K → Prop}
    {r r' : Option (K × V)} (h : IsFirst l range r) (h' : IsFirst l range r') : r = r' := by
  cases r with
  | none =>
    cases r' with
    | none => rfl
    | some e => exact absurd h'.2.1 (h e h'.1)
  | some e =>
    cases r' with
    | none => exact absurd h.2.1 (h' e h.1)
    | some e' =>
      have hkey := le_antisymm (h.2.2 e' h'.1 h'.2.1) (h'.2.2 e h.1 h.2.1)
      rw [hl h.1 h'.1 hkey]

theorem IsLast.unique (hl : Set.InjOn Prod.fst {e | e ∈ l}) {range : K → Prop}
    {r r' : Option (K × V)} (h : IsLast l range r) (h' : IsLast l range r') : r = r' :=
  @IsFirst.unique Kᵒᵈ V _ l hl range r r' h h'

section

variable (hl : Sorted l)

include hl

theorem Reaches.unique {current : Option (K × V)} {m : Move K}
    {r r' : Option (K × V)} (h : Reaches l current m r) (h' : Reaches l current m r') : r = r' := by
  have hinj : Set.InjOn Prod.fst {e | e ∈ l} := fun _ ha _ hb => hl.eq_of_key_eq ha hb
  cases m with
  | seekToFirst => exact @IsFirst.unique K V _ l hinj (fun _ => True) r r' h h'
  | seekToLast => exact @IsLast.unique K V _ l hinj (fun _ => True) r r' h h'
  | seek target => exact IsFirst.unique hinj h h'
  | next =>
    obtain ⟨e, he, h⟩ := h
    obtain ⟨e', he', h'⟩ := h'
    obtain rfl := some.inj (he.symm.trans he')
    exact IsFirst.unique hinj h h'
  | prev =>
    obtain ⟨e, he, h⟩ := h
    obtain ⟨e', he', h'⟩ := h'
    obtain rfl := some.inj (he.symm.trans he')
    exact IsLast.unique hinj h h'

theorem Sorted.isFirst_getElem {range : K → Prop} {i : ℕ}
    (hbelow : ∀ j e, j < i → l[j]? = some e → ¬ range e.1)
    (hat : ∀ e, l[i]? = some e → range e.1) : IsFirst l range l[i]? := by
  cases hi : l[i]? with
  | none =>
    intro e he
    obtain ⟨j, hj⟩ := mem_iff_getElem?.1 he
    have hlength := List.getElem?_eq_none_iff.1 hi
    obtain ⟨hj', -⟩ := List.getElem?_eq_some_iff.1 hj
    exact hbelow j e (by omega) hj
  | some e =>
    refine ⟨mem_of_getElem? hi, hat e hi, fun e' he' hrange => ?_⟩
    obtain ⟨j, hj⟩ := mem_iff_getElem?.1 he'
    rcases Nat.lt_or_ge j i with hlt | hle
    · exact absurd hrange (hbelow j e' hlt hj)
    · exact hl.le hle hi hj

theorem Sorted.isLast_getElem {range : K → Prop} {i : ℕ}
    {e : K × V} (hi : l[i]? = some e) (hrange : range e.1)
    (habove : ∀ j e', i < j → l[j]? = some e' → ¬ range e'.1) : IsLast l range (some e) := by
  refine ⟨mem_of_getElem? hi, hrange, fun e' he' hrange' => ?_⟩
  obtain ⟨j, hj⟩ := mem_iff_getElem?.1 he'
  rcases Nat.lt_or_ge i j with hlt | hle
  · exact absurd hrange' (habove j e' hlt hj)
  · exact hl.le hle hj hi

theorem move_reaches (hpos : InRange l pos) {m : Move K} (hm : m.Relative → get l pos ≠ none) :
    ∃ pos', move l pos m = .ok pos' ∧ InRange l pos' ∧ Reaches l (get l pos) m (get l pos') := by
  cases m with
  | seekToFirst =>
    refine ⟨_, rfl, inRange_position l 0, ?_⟩
    rw [get_position]
    exact @Sorted.isFirst_getElem K V _ l hl (fun _ => True) 0
      (fun j e hj => absurd hj (Nat.not_lt_zero j)) fun _ _ => trivial
  | seekToLast =>
    refine ⟨_, rfl, ?_⟩
    split_ifs with hnil
    · refine ⟨inRange_none l, ?_⟩
      rw [hnil]
      exact fun e he => by cases he
    · have hlast : l.length - 1 < l.length := by
        have := length_pos_iff.2 hnil
        omega
      refine ⟨fun i hi => by rwa [← some.inj hi], ?_⟩
      obtain ⟨e, he⟩ : ∃ e, l[l.length - 1]? = some e := ⟨_, getElem?_eq_getElem hlast⟩
      rw [show get l (some (l.length - 1)) = some e from he]
      refine @Sorted.isLast_getElem K V _ l hl (fun _ => True) _ e he trivial fun j e' hj he' => ?_
      obtain ⟨hj', -⟩ := List.getElem?_eq_some_iff.1 he'
      omega
  | seek target =>
    refine ⟨_, rfl, inRange_position l _, ?_⟩
    rw [get_position]
    refine hl.isFirst_getElem (fun j e hj he => ?_) fun e he => ?_
    · obtain ⟨hj', rfl⟩ := List.getElem?_eq_some_iff.1 he
      simpa using not_of_lt_findIdx hj
    · obtain ⟨hi, rfl⟩ := List.getElem?_eq_some_iff.1 he
      simpa using findIdx_getElem (w := hi)
  | next =>
    cases pos with
    | none => exact absurd rfl (hm trivial)
    | some i =>
      obtain ⟨e, he⟩ : ∃ e, l[i]? = some e := ⟨_, getElem?_eq_getElem (hpos i rfl)⟩
      refine ⟨_, rfl, inRange_position l _, e, he, ?_⟩
      rw [get_position]
      refine hl.isFirst_getElem (fun j e' hj he' => ?_) fun e' he' => hl.lt i.lt_succ_self he he'
      exact (hl.le (Nat.le_of_lt_succ hj) he' he).not_gt
  | prev =>
    cases pos with
    | none => exact absurd rfl (hm trivial)
    | some i =>
      obtain ⟨e, he⟩ : ∃ e, l[i]? = some e := ⟨_, getElem?_eq_getElem (hpos i rfl)⟩
      cases i with
      | zero =>
        refine ⟨none, rfl, inRange_none l, e, he, fun e' he' => ?_⟩
        obtain ⟨j, hj⟩ := mem_iff_getElem?.1 he'
        exact (hl.le (Nat.zero_le j) he hj).not_gt
      | succ i =>
        have hi : i < l.length := (Nat.lt_succ_self i).trans (hpos _ rfl)
        obtain ⟨e', he'⟩ : ∃ e', l[i]? = some e' := ⟨_, getElem?_eq_getElem hi⟩
        refine ⟨some i, rfl, fun j hj => by rwa [← some.inj hj], e, he, ?_⟩
        rw [show get l (some i) = some e' from he']
        exact hl.isLast_getElem he' (hl.lt i.lt_succ_self he' he) fun j e'' hj he'' =>
          (hl.le hj he he'').not_gt

end

theorem move_error {m : Move K} (hm : m.Relative) : move l none m = .error .notValid := by
  cases m with
  | next => rfl
  | prev => rfl
  | _ => exact hm.elim

theorem move_prev_next (hpos : InRange l pos) (h : move l pos .prev = .ok (some j)) :
    move l (some j) .next = .ok pos := by
  cases pos with
  | none => cases h
  | some i =>
    cases i with
    | zero => cases h
    | succ i =>
      obtain rfl : i = j := some.inj (Except.ok.inj h)
      exact congrArg Except.ok (if_pos (hpos _ rfl))

theorem move_next_prev (h : move l pos .next = .ok (some j)) : move l (some j) .prev = .ok pos := by
  cases pos with
  | none => cases h
  | some i =>
    have hposition := Except.ok.inj h
    rw [position] at hposition
    split_ifs at hposition
    rw [← some.inj hposition]
    rfl

/-! ## Machines that move like the cursor -/

/-- A machine whose moves go to the nearest pairs, as long as the invariant holds. -/
structure Implements (l : List (K × V)) (step : σ → Move K → Except CursorError σ)
    (current : σ → Option (K × V)) (inv : σ → Prop) : Prop where
  fails : ∀ s m, inv s → m.Relative → current s = none → step s m = .error .notValid
  reaches : ∀ s m, inv s → (m.Relative → current s ≠ none) →
    ∃ s', step s m = .ok s' ∧ inv s' ∧ Reaches l (current s) m (current s')

variable {l : List (K × V)} {step : σ → Move K → Except CursorError σ}
  {current : σ → Option (K × V)} {inv : σ → Prop}

def Tracks (l : List (K × V)) (current : σ → Option (K × V)) (inv : σ → Prop) (s : σ)
    (pos : Option ℕ) : Prop :=
  inv s ∧ InRange l pos ∧ current s = get l pos

variable (h : Implements l step current inv)

include h

theorem Implements.agree_move (hl : Sorted l) (s : σ)
    (pos : Option ℕ) (m : Move K) (ht : Tracks l current inv s pos) :
    Agree (Tracks l current inv) (step s m) (move l pos m) := by
  obtain ⟨hinv, hpos, hcurrent⟩ := ht
  by_cases hm : m.Relative ∧ current s = none
  · have hnone : pos = none := (get_eq_none_iff hpos).1 (hcurrent ▸ hm.2)
    rw [h.fails s m hinv hm.1 hm.2, hnone, move_error hm.1]
    rfl
  · have hvalid : m.Relative → current s ≠ none := fun hrel hnone => hm ⟨hrel, hnone⟩
    obtain ⟨s', hstep, hinv', hreach⟩ := h.reaches s m hinv hvalid
    obtain ⟨pos', hmove, hpos', hreach'⟩ := move_reaches hl hpos (hcurrent ▸ hvalid)
    rw [hstep, hmove]
    rw [hcurrent] at hreach
    exact ⟨hinv', hpos', hreach.unique hl hreach'⟩

theorem Implements.agree_moves (hl : Sorted l) {s : σ}
    (hs : inv s) (hnone : current s = none) (ms : List (Move K)) :
    Agree (Tracks l current inv) (ms.foldlM step s) (ms.foldlM (move l) none) :=
  Agree.foldlM (h.agree_move hl) ms s none ⟨hs, inRange_none l, hnone⟩

theorem Implements.back (hl : Sorted l) {s s₁ : σ}
    {pos : Option ℕ} (ht : Tracks l current inv s pos) {m m' : Move K}
    (hback : ∀ j, move l pos m = .ok (some j) → move l (some j) m' = .ok pos)
    (hstep : step s m = .ok s₁) (hvalid : current s₁ ≠ none) :
    ∃ s₂, step s₁ m' = .ok s₂ ∧ current s₂ = current s := by
  obtain ⟨pos₁, hmove, ht₁⟩ := (h.agree_move hl s pos m ht).exists_of_ok hstep
  cases pos₁ with
  | none => exact absurd ht₁.2.2 hvalid
  | some j =>
    obtain ⟨s₂, hstep', ht₂⟩ := (h.agree_move hl s₁ (some j) m' ht₁).exists_of_ok_right
      (hback j hmove)
    exact ⟨s₂, hstep', ht₂.2.2.trans ht.2.2.symm⟩

end ServerStack.SortedCursor
