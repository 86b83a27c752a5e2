import Mathlib

/-!
# Decimal strings

The decimal representation of a natural number and of an integer as a list of ASCII bytes, the
value of a list of digits, and that the two determine each other on strings without leading zeros.
-/

namespace ServerStack.Decimal

variable (v : ℕ)

def digit (d : ℕ) : UInt8 := UInt8.ofNat (48 + d)

def IsDigit (b : UInt8) : Prop := 48 ≤ b.toNat ∧ b.toNat ≤ 57

instance (b : UInt8) : Decidable (IsDigit b) := inferInstanceAs (Decidable (_ ∧ _))

def decimal (n : ℕ) : List UInt8 :=
  if n < 10 then [digit n] else decimal (n / 10) ++ [digit (n % 10)]

def decimalInt (n : ℤ) : List UInt8 := if n < 0 then 45 :: decimal n.natAbs else decimal n.natAbs

/-- The value of a list of digits that follow a number already read. -/
def value (s : List UInt8) : ℕ := s.foldl (fun v b => v * 10 + (b.toNat - 48)) v

@[simp] theorem toNat_digit {d : ℕ} (h : d < 10) : (digit d).toNat = 48 + d := by
  rw [digit, UInt8.toNat_ofNat', Nat.mod_eq_of_lt (by omega)]

theorem isDigit_digit {d : ℕ} (h : d < 10) : IsDigit (digit d) := by
  rw [IsDigit, toNat_digit h]
  omega

variable {b : UInt8} {n : ℕ}

theorem decimal_of_lt (h : n < 10) : decimal n = [digit n] := by
  rw [decimal, if_pos h]

theorem decimal_of_ge (h : 10 ≤ n) : decimal n = decimal (n / 10) ++ [digit (n % 10)] := by
  rw [decimal, if_neg (by omega)]

@[simp] theorem value_nil : value v [] = v := List.foldl_nil

@[simp] theorem value_cons (b : UInt8) (s : List UInt8) :
    value v (b :: s) = value (v * 10 + (b.toNat - 48)) s := List.foldl_cons ..

theorem value_append (s t : List UInt8) : value v (s ++ t) = value (value v s) t :=
  List.foldl_append

theorem le_value (s : List UInt8) : v ≤ value v s := by
  induction s generalizing v with
  | nil => exact le_rfl
  | cons b s ih =>
    rw [value_cons]
    exact le_trans (by omega) (ih _)

theorem decimal_ne_nil (n : ℕ) : decimal n ≠ [] := by
  rw [decimal]
  split_ifs <;> simp

theorem isDigit_of_mem_decimal (h : b ∈ decimal n) : IsDigit b := by
  induction n using Nat.strongRecOn with
  | ind n ih =>
    rcases Nat.lt_or_ge n 10 with hn | hn
    · rw [decimal_of_lt hn, List.mem_singleton] at h
      rw [h]
      exact isDigit_digit hn
    · rw [decimal_of_ge hn, List.mem_append, List.mem_singleton] at h
      rcases h with h | rfl
      · exact ih (n / 10) (by omega) h
      · exact isDigit_digit (Nat.mod_lt n (by decide))

theorem value_decimal (n : ℕ) : value 0 (decimal n) = n := by
  induction n using Nat.strongRecOn with
  | ind n ih =>
    rcases Nat.lt_or_ge n 10 with hn | hn
    · rw [decimal_of_lt hn, value_cons, value_nil, toNat_digit hn]
      omega
    · rw [decimal_of_ge hn, value_append, ih (n / 10) (by omega), value_cons, value_nil,
        toNat_digit (Nat.mod_lt n (by decide))]
      omega

theorem decimal_eq_cons (h : 0 < n) : ∃ b s, decimal n = b :: s ∧ 49 ≤ b.toNat ∧ b.toNat ≤ 57 := by
  induction n using Nat.strongRecOn with
  | ind n ih =>
    rcases Nat.lt_or_ge n 10 with hn | hn
    · refine ⟨digit n, [], decimal_of_lt hn, ?_⟩
      rw [toNat_digit hn]
      omega
    · obtain ⟨b, s, hs, hb⟩ := ih (n / 10) (by omega) (by omega)
      refine ⟨b, s ++ [digit (n % 10)], ?_, hb⟩
      rw [decimal_of_ge hn, hs, List.cons_append]

theorem digit_toNat_sub (h : IsDigit b) : digit (b.toNat - 48) = b := by
  obtain ⟨h1, h2⟩ := h
  apply UInt8.toNat_inj.1
  rw [toNat_digit (by omega)]
  omega

theorem decimal_value (hb : 49 ≤ b.toNat ∧ b.toNat ≤ 57) {s : List UInt8}
    (hs : ∀ c ∈ s, IsDigit c) : decimal (value 0 (b :: s)) = b :: s := by
  induction s using List.reverseRecOn with
  | nil =>
    rw [value_cons, value_nil, decimal_of_lt (by omega), Nat.zero_add,
      digit_toNat_sub ⟨by omega, hb.2⟩]
  | append_singleton s c ih =>
    have hc : IsDigit c := hs c (by simp)
    have hlt : c.toNat - 48 < 10 := by
      have := hc.2
      omega
    have hpos : 0 * 10 + (b.toNat - 48) ≤ value 0 (b :: s) := le_value _ s
    rw [← List.cons_append, value_append, value_cons, value_nil, decimal_of_ge (by omega),
      show (value 0 (b :: s) * 10 + (c.toNat - 48)) / 10 = value 0 (b :: s) by omega,
      show (value 0 (b :: s) * 10 + (c.toNat - 48)) % 10 = c.toNat - 48 by omega,
      ih fun c' hc' => hs c' (by simp [hc']), digit_toNat_sub hc]

theorem length_decimal_le {n k : ℕ} (h : n < 10 ^ (k + 1)) : (decimal n).length ≤ k + 1 := by
  induction k generalizing n with
  | zero =>
    rw [decimal_of_lt (by simpa using h)]
    simp
  | succ k ih =>
    rcases Nat.lt_or_ge n 10 with hn | hn
    · rw [decimal_of_lt hn]
      simp
    · have hdiv : n / 10 < 10 ^ (k + 1) := Nat.div_lt_of_lt_mul (by rw [pow_succ] at h; omega)
      rw [decimal_of_ge hn, List.length_append, List.length_singleton]
      have := ih hdiv
      omega

end ServerStack.Decimal
