import Mathlib

/-!
# Binary search

The loop that looks for the first index at which a test fails, for a test that holds on an initial
part of the indices.
-/

namespace ServerStack.LowerBound

/-- `while (left < right)`: the test holds before `left` and fails from `right` on. -/
def lowerBoundLoop (test : ℕ → Bool) : ℕ → ℕ → ℕ → ℕ
  | 0, _, right => right
  | fuel + 1, left, right =>
    if left < right then
      let mid := (left + right) / 2
      if test mid then lowerBoundLoop test fuel (mid + 1) right
      else lowerBoundLoop test fuel left mid
    else right

/-- The first of `n` indices at which the test fails; `n` if there is none. -/
def lowerBound (test : ℕ → Bool) (n : ℕ) : ℕ := lowerBoundLoop test n 0 n

variable {test : ℕ → Bool} {n : ℕ}

theorem lowerBoundLoop_spec (hmono : ∀ i j, i ≤ j → j < n → test j = true → test i = true)
    {fuel left right : ℕ} (hfuel : right ≤ left + fuel) (hle : left ≤ right) (hn : right ≤ n)
    (hleft : ∀ i < left, test i = true) (hright : ∀ i, right ≤ i → i < n → test i = false) :
    lowerBoundLoop test fuel left right ≤ n ∧
      (∀ i < lowerBoundLoop test fuel left right, test i = true) ∧
      ∀ i, lowerBoundLoop test fuel left right ≤ i → i < n → test i = false := by
  induction fuel generalizing left right with
  | zero =>
    have heq : left = right := by omega
    exact ⟨hn, heq ▸ hleft, hright⟩
  | succ fuel ih =>
    rw [lowerBoundLoop]
    by_cases hlt : left < right
    · rw [if_pos hlt]
      simp only
      have hmid : (left + right) / 2 < right := by omega
      by_cases htest : test ((left + right) / 2) = true
      · rw [if_pos htest]
        apply ih (by omega) (by omega) hn _ hright
        intro i hi
        exact hmono i _ (by omega) (by omega) htest
      · rw [if_neg htest]
        apply ih (by omega) (by omega) (by omega) hleft
        intro i hi hin
        by_contra hne
        exact htest (hmono _ i hi hin (by simpa using hne))
    · rw [if_neg hlt]
      have heq : left = right := by omega
      exact ⟨hn, heq ▸ hleft, hright⟩

theorem lowerBound_spec (hmono : ∀ i j, i ≤ j → j < n → test j = true → test i = true) :
    lowerBound test n ≤ n ∧ (∀ i < lowerBound test n, test i = true) ∧
      ∀ i, lowerBound test n ≤ i → i < n → test i = false :=
  lowerBoundLoop_spec hmono (by omega) (Nat.zero_le n) le_rfl (fun i hi => absurd hi (by omega))
    fun i hi hin => absurd hin (by omega)

end ServerStack.LowerBound
