import Mathlib

/-!
# Three-way binary search

The loop over `left` and `right` that compares a key with the element in the middle and stops at one
that is equal, with 32-bit indices; reading an element may fail.
-/

namespace ServerStack.BinarySearch

/-- On which side of an element the key lies. -/
inductive Side where
  | before
  | here
  | after
  deriving DecidableEq

/-- `(left + right) / 2` of two `int`s. -/
def middle (left right : ℤ) : ℤ := ((left + right).bmod (2 ^ 32)).tdiv 2

theorem middle_eq {left right : ℤ} (hleft : 0 ≤ left) (hright : right < 2 ^ 30)
    (hle : left ≤ right) : middle left right = (left + right) / 2 := by
  unfold middle
  rw [Int.bmod_eq_of_le (by norm_num; omega) (by norm_num; omega),
    Int.tdiv_eq_ediv_of_nonneg (by omega)]

variable {ε : Type*}

/-- `while (left <= right)`: whether the loop stopped at an element, and the last middle. -/
def searchLoop (side : ℤ → Except ε Side) : ℕ → ℤ → ℤ → ℤ → Except ε (Bool × ℤ)
  | 0, _, _, mid => .ok (false, mid)
  | fuel + 1, left, right, mid =>
    if left ≤ right then do
      let mid := middle left right
      match ← side mid with
      | .before => searchLoop side fuel left (mid - 1) mid
      | .here => return (true, mid)
      | .after => searchLoop side fuel (mid + 1) right mid
    else .ok (false, mid)

def search (side : ℤ → Except ε Side) (count : ℕ) : Except ε (Bool × ℤ) :=
  searchLoop side (count + 1) 0 (count - 1) 0

/-- The key lies after the first `cut` elements and before all others; the last middle is next to
the cut. -/
structure CutAt (side : ℕ → Side) (count cut : ℕ) (mid : ℤ) : Prop where
  le : cut ≤ count
  after : ∀ i < cut, side i = .after
  before : ∀ i, cut ≤ i → i < count → side i = .before
  near : mid = cut ∧ cut < count ∨ mid + 1 = cut ∨ count = 0

variable {side : ℤ → Except ε Side} {f : ℕ → Side} {n : ℕ}
  (hside : ∀ i < n, side i = .ok (f i)) (hn : n ≤ 2 ^ 30)
  (hbefore : ∀ i j, i ≤ j → j < n → f i = .before → f j = .before)
  (hafter : ∀ i j, i ≤ j → j < n → f j = .after → f i = .after)

include hside hn hbefore hafter

theorem searchLoop_spec {fuel left : ℕ} {right mid : ℤ} (hfuel : right - left + 1 < fuel)
    (hle : left ≤ right + 1) (hright : right < n) (ha : ∀ i < left, f i = .after)
    (hb : ∀ i : ℕ, right < i → i < n → f i = .before)
    (hmid : left ≤ right ∨ mid = left ∧ left < n ∨ mid + 1 = left ∨ n = 0) :
    (∃ i < n, f i = .here ∧ searchLoop side fuel left right mid = .ok (true, ↑i)) ∨
      ∃ cut mid', CutAt f n cut mid' ∧ searchLoop side fuel left right mid = .ok (false, mid') := by
  induction fuel generalizing left right mid with
  | zero => omega
  | succ fuel ih =>
    rw [searchLoop]
    by_cases hlr : left ≤ right
    · have heq : middle left right = (left + right) / 2 := middle_eq (by omega) (by omega) hlr
      obtain ⟨m, hm⟩ := Int.eq_ofNat_of_zero_le (by omega : 0 ≤ middle left right)
      rw [if_pos hlr]
      dsimp only
      rw [hm, hside m (by omega)]
      cases hf : f m with
      | before =>
        apply @ih left (m - 1) m (by omega) (by omega) (by omega) ha _ (by omega)
        intro i hi hin
        exact hbefore m i (by omega) hin hf
      | here => exact .inl ⟨m, by omega, hf, rfl⟩
      | after =>
        apply @ih (m + 1) right m (by omega) (by omega) hright _ hb (by omega)
        intro i hi
        exact hafter i m (by omega) (by omega) hf
    · rw [if_neg hlr]
      refine .inr ⟨left, mid, ⟨by omega, ha, fun i hi => hb i (by omega), ?_⟩, rfl⟩
      omega

theorem search_spec : (∃ i < n, f i = .here ∧ search side n = .ok (true, ↑i)) ∨
      ∃ cut mid, CutAt f n cut mid ∧ search side n = .ok (false, mid) := by
  apply @searchLoop_spec _ side f n hside hn hbefore hafter (n + 1) 0 (n - 1) 0 <;> intros <;> omega

end ServerStack.BinarySearch
