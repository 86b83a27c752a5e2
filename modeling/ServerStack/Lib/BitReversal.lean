import Mathlib

/-!
# The bit-reversed order of machine words

`revNat v` reads a word with its bits in the opposite order.  Words that agree on their low `p`
bits are neighbours in the order of `revNat`, so a cursor that counts from the high bits down
(`next`) passes all words of such a class at once.
-/

namespace ServerStack.BitReversal

open BitVec Nat

variable {w : ℕ}

/-- The word read from its highest bit to its lowest. -/
def revNat (v : BitVec w) : ℕ := v.reverse.toNat

/-- The mask of the low `p` bits. -/
def lowMask (w p : ℕ) : BitVec w := BitVec.ofNat w (2 ^ p - 1)

/-- Increment the reversed word, ignoring the bits outside the mask of `p` bits. -/
def next (p : ℕ) (v : BitVec w) : BitVec w := ((v ||| ~~~(lowMask w p)).reverse + 1).reverse

theorem revNat_lt (v : BitVec w) : revNat v < 2 ^ w := v.reverse.isLt

theorem testBit_revNat (v : BitVec w) (i : ℕ) :
    (revNat v).testBit i = (decide (i < w) && v.toNat.testBit (w - 1 - i)) := by
  rw [revNat, testBit_toNat, getLsbD_reverse, getMsbD_eq_getLsbD, testBit_toNat]

theorem revNat_zero : revNat (0 : BitVec w) = 0 := by
  apply eq_of_testBit_eq
  intro i
  rw [testBit_revNat]
  simp

@[simp] theorem revNat_reverse (v : BitVec w) : revNat v.reverse = v.toNat := by
  have hrev : v.reverse.reverse = v := by
    apply eq_of_getLsbD_eq
    intro i hi
    rw [getLsbD_reverse, getMsbD_reverse]
  rw [revNat, hrev]

variable {p : ℕ}

section

variable (hp : p ≤ w)

include hp

@[simp] theorem toNat_lowMask : (lowMask w p).toNat = 2 ^ p - 1 := by
  have := Nat.pow_le_pow_right (show 0 < 2 by decide) hp
  have := Nat.two_pow_pos p
  rw [lowMask, toNat_ofNat, mod_eq_of_lt (by omega)]

theorem toNat_and_lowMask (v : BitVec w) : (v &&& lowMask w p).toNat = v.toNat % 2 ^ p := by
  rw [toNat_and, toNat_lowMask hp, and_two_pow_sub_one_eq_mod]

/-! ## Classes of words with the same low bits -/

/-- The high part of the reversed word is given by the low bits of the word. -/
theorem prefix_eq_iff (u v : BitVec w) :
    revNat u / 2 ^ (w - p) = revNat v / 2 ^ (w - p) ↔ u.toNat % 2 ^ p = v.toNat % 2 ^ p := by
  constructor
  · intro h
    apply eq_of_testBit_eq
    intro i
    by_cases hi : i < p
    · have hbit := congrArg (fun n => n.testBit (p - 1 - i)) h
      simp only [testBit_div_two_pow, testBit_revNat] at hbit
      rw [show w - 1 - (p - 1 - i + (w - p)) = i by omega] at hbit
      simpa [hi, show p - 1 - i + (w - p) < w by omega] using hbit
    · simp [hi]
  · intro h
    apply eq_of_testBit_eq
    intro i
    rw [testBit_div_two_pow, testBit_div_two_pow, testBit_revNat, testBit_revNat]
    by_cases hi : i + (w - p) < w
    · have hbit := congrArg (fun n => n.testBit (w - 1 - (i + (w - p)))) h
      have hlow : w - 1 - (i + (w - p)) < p := by omega
      simp only [testBit_mod_two_pow, hlow, decide_true, Bool.true_and] at hbit
      rw [hbit]
    · simp only [hi, decide_false, Bool.false_and]

/-- Setting the bits outside the mask fills the low part of the reversed word. -/
theorem revNat_or_not_lowMask (v : BitVec w) : revNat (v ||| ~~~(lowMask w p)) =
      2 ^ (w - p) * (revNat v / 2 ^ (w - p)) + (2 ^ (w - p) - 1) := by
  have hpos := Nat.two_pow_pos (w - p)
  apply Nat.eq_of_testBit_eq
  intro i
  rw [testBit_two_pow_mul_add _ (by omega), testBit_revNat, testBit_div_two_pow,
    testBit_revNat, testBit_toNat, testBit_toNat]
  simp only [getLsbD_or, getLsbD_not, lowMask, getLsbD_ofNat, testBit_two_pow_sub_one]
  by_cases hi : i < w - p
  · simp [hi, show i < w by omega, show w - 1 - i < w by omega, show ¬ w - 1 - i < p by omega]
  · by_cases hw : i < w
    · simp [hi, hw, show w - 1 - i < w by omega, show w - 1 - i < p by omega,
        show i - (w - p) + (w - p) = i by omega]
    · simp [hi, hw, show ¬ i - (w - p) + (w - p) < w by omega]

theorem revNat_next (v : BitVec w) :
    revNat (next p v) = 2 ^ (w - p) * (revNat v / 2 ^ (w - p) + 1) % 2 ^ w := by
  have hpos := Nat.two_pow_pos (w - p)
  have hfill := revNat_or_not_lowMask hp v
  rw [next, revNat_reverse, toNat_add, ← revNat, hfill]
  rcases Nat.eq_zero_or_pos w with rfl | hw
  · simp [mod_one]
  · have hone : (1 : BitVec w).toNat = 1 := by
      exact Nat.mod_eq_of_lt (Nat.one_lt_two_pow hw.ne')
    rw [hone, Nat.mul_add, Nat.add_assoc, Nat.sub_add_cancel hpos, Nat.mul_one]

/-- A word that the cursor has not passed is in the class of the cursor or comes after the next
cursor. -/
theorem same_class_or_next_le {u v : BitVec w} (h : revNat v ≤ revNat u) :
    u.toNat % 2 ^ p = v.toNat % 2 ^ p ∨ (next p v ≠ 0 ∧ revNat (next p v) ≤ revNat u) := by
  rcases Nat.eq_or_lt_of_le (Nat.div_le_div_right h : revNat v / 2 ^ (w - p) ≤ _) with heq | hlt
  · exact .inl ((prefix_eq_iff hp u v).1 heq.symm)
  · right
    have hle : 2 ^ (w - p) * (revNat v / 2 ^ (w - p) + 1) ≤ revNat u :=
      (mul_le_mul_left _ hlt).trans (mul_div_le _ _)
    have hnext : revNat (next p v) = 2 ^ (w - p) * (revNat v / 2 ^ (w - p) + 1) := by
      rw [revNat_next hp, mod_eq_of_lt (hle.trans_lt (revNat_lt u))]
    refine ⟨?_, by rw [hnext]; exact hle⟩
    intro hzero
    rw [hzero, revNat_zero] at hnext
    exact (Nat.mul_pos (Nat.two_pow_pos (w - p)) (Nat.succ_pos _)).ne hnext

/-! ## Counting -/

theorem high_lt {i : ℕ} (hi : i < 2 ^ p) : 2 ^ (w - p) * i < 2 ^ w := calc
  _ < 2 ^ (w - p) * 2 ^ p := Nat.mul_lt_mul_of_pos_left hi (Nat.two_pow_pos _)
  _ = 2 ^ w := by rw [← Nat.pow_add, Nat.sub_add_cancel hp]

/-- In the reversed order the cursor counts up from 0. -/
theorem revNat_iterate_next {i : ℕ} (hi : i ≤ 2 ^ p) :
    revNat ((next p)^[i] (0 : BitVec w)) = 2 ^ (w - p) * i % 2 ^ w := by
  induction i with
  | zero => rw [Function.iterate_zero, id, revNat_zero, Nat.mul_zero, Nat.zero_mod]
  | succ i ih =>
    rw [Function.iterate_succ_apply', revNat_next hp, ih (by omega),
      Nat.mod_eq_of_lt (high_lt hp hi), Nat.mul_div_cancel_left _ (Nat.two_pow_pos _)]

theorem iterate_next_eq_zero_iff {i : ℕ} (hi : i ≤ 2 ^ p) :
    (next p)^[i] (0 : BitVec w) = 0 ↔ i = 0 ∨ i = 2 ^ p := by
  have hrev := revNat_iterate_next hp hi
  constructor
  · intro hzero
    rw [hzero, revNat_zero] at hrev
    rcases Nat.lt_or_eq_of_le hi with hlt | rfl
    · rw [Nat.mod_eq_of_lt (high_lt hp hlt)] at hrev
      exact .inl ((Nat.mul_eq_zero.1 hrev.symm).resolve_left (Nat.two_pow_pos _).ne')
    · exact .inr rfl
  · rintro (rfl | rfl)
    · rfl
    · rw [← Nat.pow_add, Nat.sub_add_cancel hp, Nat.mod_self] at hrev
      have hreverse : ((next p)^[2 ^ p] (0 : BitVec w)).reverse = 0 := eq_of_toNat_eq hrev
      apply eq_of_toNat_eq
      rw [← revNat_reverse, hreverse, revNat_zero]
      rfl

/-! ## Words with a block of ones -/

end

/-- Bits that are all set leave no room above in the reversed order: a later word of the same class
has them too. -/
theorem mod_eq_of_ones {j : ℕ} (hpj : p ≤ j) (hj : j ≤ w) {u v : BitVec w}
    (hones : ∀ i, p ≤ i → i < j → v.toNat.testBit i = true) (h : revNat v ≤ revNat u)
    (hclass : u.toNat % 2 ^ p = v.toNat % 2 ^ p) : u.toNat % 2 ^ j = v.toNat % 2 ^ j := by
  rw [← prefix_eq_iff hj]
  have hsplit : 2 ^ (w - p) = 2 ^ (w - j) * 2 ^ (j - p) := by
    rw [← pow_add]
    congr 1
    omega
  have htop := (prefix_eq_iff (hpj.trans hj) u v).2 hclass
  rw [hsplit, ← Nat.div_div_eq_div_mul, ← Nat.div_div_eq_div_mul] at htop
  have hfull : revNat v / 2 ^ (w - j) % 2 ^ (j - p) = 2 ^ (j - p) - 1 := by
    apply eq_of_testBit_eq
    intro i
    rw [testBit_mod_two_pow, testBit_div_two_pow,
      testBit_revNat]
    by_cases hi : i < j - p
    · simp [hi, show i + (w - j) < w by omega, hones (w - 1 - (i + (w - j))) (by omega) (by omega)]
    · simp [hi]
  have hle : revNat v / 2 ^ (w - j) ≤ revNat u / 2 ^ (w - j) := Nat.div_le_div_right h
  have hu := div_add_mod (revNat u / 2 ^ (w - j)) (2 ^ (j - p))
  have hv := div_add_mod (revNat v / 2 ^ (w - j)) (2 ^ (j - p))
  rw [htop] at hu
  omega

/-! ## Counting above the mask -/

/-- Increment the bits above the mask of `p` bits. -/
def bump (p : ℕ) (v : BitVec w) : BitVec w :=
  (((v ||| lowMask w p) + 1) &&& ~~~(lowMask w p)) ||| (v &&& lowMask w p)

theorem toNat_or_lowMask (hp : p ≤ w) (v : BitVec w) :
    (v ||| lowMask w p).toNat = 2 ^ p * (v.toNat / 2 ^ p) + (2 ^ p - 1) := by
  have hpos := Nat.two_pow_pos p
  apply Nat.eq_of_testBit_eq
  intro i
  rw [testBit_two_pow_mul_add _ (by omega), toNat_or, testBit_or, toNat_lowMask hp,
    testBit_div_two_pow]
  by_cases hi : i < p
  · simp [hi]
  · simp [hi, show i - p + p = i by omega]

theorem toNat_merge (hp : p ≤ w) (x v : BitVec w) :
    ((x &&& ~~~(lowMask w p)) ||| (v &&& lowMask w p)).toNat =
      2 ^ p * (x.toNat / 2 ^ p) + v.toNat % 2 ^ p := by
  apply Nat.eq_of_testBit_eq
  intro i
  rw [Nat.testBit_two_pow_mul_add _ (Nat.mod_lt _ (Nat.two_pow_pos p))]
  simp only [getLsbD_or, getLsbD_and, getLsbD_not, lowMask,
    getLsbD_ofNat, testBit_two_pow_sub_one, testBit_div_two_pow,
    testBit_mod_two_pow, testBit_toNat]
  by_cases hi : i < p
  · simp [hi, show i < w by omega]
  · by_cases hw : i < w
    · simp [hi, hw, show i - p + p = i by omega]
    · simp [hi, hw, show i - p + p = i by omega, getLsbD_of_ge x i (by omega)]

theorem toNat_bump (hp : p ≤ w) (hw : 0 < w) (v : BitVec w) :
    (bump p v).toNat = 2 ^ p * ((v.toNat / 2 ^ p + 1) % 2 ^ (w - p)) + v.toNat % 2 ^ p := by
  have hpos := Nat.two_pow_pos p
  have hone : (1 : BitVec w).toNat = 1 := by
    exact Nat.mod_eq_of_lt (Nat.one_lt_two_pow hw.ne')
  have hsplit : 2 ^ w = 2 ^ p * 2 ^ (w - p) := by
    rw [← pow_add]
    congr 1
    omega
  have hadd : ((v ||| lowMask w p) + 1).toNat = 2 ^ p * ((v.toNat / 2 ^ p + 1) % 2 ^ (w - p)) := by
    rw [toNat_add, toNat_or_lowMask hp, hone, Nat.add_assoc, Nat.sub_add_cancel hpos,
      ← Nat.mul_succ, hsplit, Nat.mul_mod_mul_left]
  rw [bump, toNat_merge hp, hadd, Nat.mul_div_cancel_left _ hpos]

theorem bump_mod (hp : p ≤ w) (hw : 0 < w) (v : BitVec w) :
    (bump p v).toNat % 2 ^ p = v.toNat % 2 ^ p := by
  rw [toNat_bump hp hw, mul_add_mod, mod_mod]

theorem bump_div {n : ℕ} (hn : p + n ≤ w) (hw : 0 < w) (v : BitVec w) :
    (bump p v).toNat / 2 ^ p % 2 ^ n = (v.toNat / 2 ^ p + 1) % 2 ^ n := by
  have hlt := Nat.mod_lt v.toNat (Nat.two_pow_pos p)
  rw [toNat_bump (by omega) hw, Nat.mul_add_div (Nat.two_pow_pos p), Nat.div_eq_of_lt hlt,
    add_zero, mod_mod_of_dvd _ (pow_dvd_pow 2 (by omega))]

theorem and_xor_lowMask_eq_zero {n : ℕ} (hn : p + n ≤ w) (v : BitVec w) :
    v &&& (lowMask w p ^^^ lowMask w (p + n)) = 0 ↔ v.toNat / 2 ^ p % 2 ^ n = 0 := by
  have hmul : (v &&& (lowMask w p ^^^ lowMask w (p + n))).toNat =
      2 ^ p * (v.toNat / 2 ^ p % 2 ^ n) := by
    apply eq_of_testBit_eq
    intro i
    have hpow := Nat.testBit_two_pow_mul_add (v.toNat / 2 ^ p % 2 ^ n) (Nat.two_pow_pos p) i
    rw [add_zero] at hpow
    rw [hpow, toNat_and, toNat_xor, testBit_and, testBit_xor,
      toNat_lowMask (by omega), toNat_lowMask hn, testBit_two_pow_sub_one,
      testBit_two_pow_sub_one, testBit_mod_two_pow, testBit_div_two_pow]
    by_cases hi : i < p
    · simp [hi, show i < p + n by omega]
    · by_cases hin : i < p + n
      · simp [hi, hin, show i - p < n by omega, show i - p + p = i by omega]
      · simp [hi, hin, show ¬ i - p < n by omega]
  rw [← toNat_inj, hmul]
  simp

end ServerStack.BitReversal
