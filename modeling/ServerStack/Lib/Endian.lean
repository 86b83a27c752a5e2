import Mathlib

/-!
# Integers as bytes

Unsigned integers of a fixed number of bytes, in little and in big endian order, and signed ones in
two's complement.
-/

namespace ServerStack.Endian

/-! ## Unsigned integers -/

/-- The `w` bytes of `n`, least significant first. -/
def littleEndian : ℕ → ℕ → List UInt8
  | 0, _ => []
  | w + 1, n => UInt8.ofNat n :: littleEndian w (n / 256)

def ofLittleEndian : List UInt8 → ℕ
  | [] => 0
  | b :: bs => b.toNat + 256 * ofLittleEndian bs

/-- The `w` bytes of `n`, most significant first. -/
def bigEndian (w n : ℕ) : List UInt8 := (littleEndian w n).reverse

def ofBigEndian (bs : List UInt8) : ℕ := ofLittleEndian bs.reverse

@[simp] theorem length_littleEndian (w n : ℕ) : (littleEndian w n).length = w := by
  induction w generalizing n with
  | zero => rfl
  | succ w ih => rw [littleEndian, List.length_cons, ih]

@[simp] theorem length_bigEndian (w n : ℕ) : (bigEndian w n).length = w := by
  rw [bigEndian, List.length_reverse, length_littleEndian]

theorem ofLittleEndian_littleEndian_mod (w n : ℕ) :
    ofLittleEndian (littleEndian w n) = n % 256 ^ w := by
  induction w generalizing n with
  | zero => rw [littleEndian, ofLittleEndian, pow_zero, Nat.mod_one]
  | succ w ih =>
    have hbyte : (UInt8.ofNat n).toNat = n % 256 := UInt8.toNat_ofNat'
    rw [littleEndian, ofLittleEndian, ih, hbyte, pow_succ', Nat.mod_mul]

variable {w : ℕ}

theorem ofLittleEndian_littleEndian {n : ℕ} (h : n < 256 ^ w) :
    ofLittleEndian (littleEndian w n) = n := by
  rw [ofLittleEndian_littleEndian_mod, Nat.mod_eq_of_lt h]

theorem ofBigEndian_bigEndian {n : ℕ} (h : n < 256 ^ w) : ofBigEndian (bigEndian w n) = n := by
  rw [ofBigEndian, bigEndian, List.reverse_reverse, ofLittleEndian_littleEndian h]

/-! ## Signed integers -/

/-- The value fits `w` bytes in two's complement. -/
def FitsSigned (w : ℕ) (v : ℤ) : Prop := -(256 ^ w / 2 : ℕ) ≤ v ∧ v < (256 ^ w / 2 : ℕ)

instance (w : ℕ) (v : ℤ) : Decidable (FitsSigned w v) := inferInstanceAs (Decidable (_ ∧ _))

theorem FitsSigned.mono {w' : ℕ} {v : ℤ} (h : FitsSigned w v) (hw : w ≤ w') : FitsSigned w' v := by
  have hpow : 256 ^ w / 2 ≤ 256 ^ w' / 2 := Nat.div_le_div_right (Nat.pow_le_pow_right (by decide) hw)
  obtain ⟨hlow, hhigh⟩ := h
  exact ⟨by omega, by omega⟩

/-- The `w` bytes of a signed value; high bits are cut off. -/
def littleEndianInt (w : ℕ) (v : ℤ) : List UInt8 := littleEndian w (v % (256 ^ w : ℕ)).toNat

def ofLittleEndianInt (bs : List UInt8) : ℤ := (ofLittleEndian bs : ℤ).bmod (256 ^ bs.length)

@[simp] theorem length_littleEndianInt (w : ℕ) (v : ℤ) : (littleEndianInt w v).length = w :=
  length_littleEndian _ _

theorem ofLittleEndianInt_littleEndianInt {v : ℤ} (h : FitsSigned w v) :
    ofLittleEndianInt (littleEndianInt w v) = v := by
  have hpos : (0 : ℤ) < (256 ^ w : ℕ) := by positivity
  have hnonneg := Int.emod_nonneg v hpos.ne'
  have hread : (ofLittleEndian (littleEndian w (v % (256 ^ w : ℕ)).toNat) : ℤ) =
      v % (256 ^ w : ℕ) := by
    rw [ofLittleEndian_littleEndian (by omega), Int.toNat_of_nonneg hnonneg]
  obtain ⟨hlow, hhigh⟩ := h
  rw [ofLittleEndianInt, length_littleEndianInt, littleEndianInt, hread, Int.emod_bmod]
  exact Int.bmod_eq_of_le (by omega) (by omega)

end ServerStack.Endian
