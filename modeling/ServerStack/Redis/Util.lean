import ServerStack.Lib.Decimal

/-!
# Integers and strings of `util.c`

`string2ll` accepts exactly the decimal strings that `ll2string` prints, so an integer-looking
string can be stored as its value and read back.
-/

namespace ServerStack.Redis.Util

open Decimal List

/-- A C string or an `sds` payload. -/
abbrev Bytes := List UInt8

def ullongMax : ℕ := 2 ^ 64 - 1

def llongMax : ℕ := 2 ^ 63 - 1

/-- The value fits a `long long`. -/
def IsLongLong (v : ℤ) : Prop := -(2 ^ 63) ≤ v ∧ v ≤ 2 ^ 63 - 1

instance (v : ℤ) : Decidable (IsLongLong v) := inferInstanceAs (Decidable (_ ∧ _))

/-! ## Printing -/

def digitLoop : ℕ → ℕ → Bytes → Bytes
  | 0, _, buf => buf
  | fuel + 1, v, buf =>
    if v / 10 = 0 then digit (v % 10) :: buf else digitLoop fuel (v / 10) (digit (v % 10) :: buf)

/-- `ll2string`, into a buffer of `len` bytes.  The local buffer has room for 32 digits. -/
def ll2string (len : ℕ) (value : ℤ) : Bytes :=
  if len = 0 then []
  else
    let digits := digitLoop 32 value.natAbs []
    let p := if value < 0 then 45 :: digits else digits
    if p.length + 1 > len then p.take (len - 1) else p

theorem digitLoop_eq : ∀ (fuel v : ℕ) (buf : Bytes), v < 10 ^ fuel → 0 < fuel →
    digitLoop fuel v buf = decimal v ++ buf
  | 0, _, _, _, hfuel => absurd hfuel (Nat.lt_irrefl 0)
  | fuel + 1, v, buf, hv, _ => by
      rw [digitLoop]
      split_ifs with hlast
      · have hlt : v < 10 := by omega
        rw [decimal_of_lt hlt, Nat.mod_eq_of_lt hlt, singleton_append]
      · have hdiv : v / 10 < 10 ^ fuel := Nat.div_lt_of_lt_mul (by rw [pow_succ] at hv; omega)
        have hfuel : 0 < fuel := by
          rcases Nat.eq_zero_or_pos fuel with rfl | hpos
          · omega
          · exact hpos
        rw [digitLoop_eq fuel (v / 10) _ hdiv hfuel, decimal_of_ge (show 10 ≤ v by omega),
          append_assoc, singleton_append]

variable {v : ℤ} {s : Bytes} {n : ℕ}

theorem ll2string_eq {len : ℕ} (hv : IsLongLong v) (hlen : 21 ≤ len) :
    ll2string len v = decimalInt v := by
  obtain ⟨hmin, hmax⟩ := hv
  have hloop : digitLoop 32 v.natAbs [] = decimal v.natAbs := by
    rw [digitLoop_eq 32 _ _ (by omega) (by decide), append_nil]
  have hdigits : (decimal v.natAbs).length ≤ 18 + 1 := length_decimal_le (by omega)
  rw [ll2string, if_neg (by omega), hloop, decimalInt]
  simp only
  split_ifs with hneg hlong hlong
  · rw [length_cons] at hlong
    omega
  · rfl
  · omega
  · rfl

theorem length_ll2string_lt {len : ℕ} (h : 0 < len) (v : ℤ) : (ll2string len v).length < len := by
  rw [ll2string, if_neg h.ne']
  simp only
  split_ifs with hneg hlong hlong
  · rw [length_take]
    omega
  · omega
  · rw [length_take]
    omega
  · omega

/-! ## Parsing -/

/-- `while (plen < slen && p[0] >= '0' && p[0] <= '9')`: the number read and the bytes left, or
`none` on overflow. -/
def readDigits : ℕ → Bytes → Option (ℕ × Bytes)
  | v, [] => some (v, [])
  | v, b :: s =>
    if 48 ≤ b.toNat ∧ b.toNat ≤ 57 then
      if v > ullongMax / 10 then none
      else if v * 10 > ullongMax - (b.toNat - 48) then none
      else readDigits (v * 10 + (b.toNat - 48)) s
    else some (v, b :: s)

def readUnsigned (s : Bytes) : Option ℕ :=
  match s with
  | [] => none
  | b :: rest =>
    if 49 ≤ b.toNat ∧ b.toNat ≤ 57 then
      match readDigits (b.toNat - 48) rest with
      | some (v, []) => some v
      | _ => none
    else none

def string2ll (s : Bytes) : Option ℤ :=
  if s = [48] then some 0
  else if s.head? = some 45 then
    match readUnsigned s.tail with
    | some v => if v > llongMax + 1 then none else some (-v)
    | none => none
  else
    match readUnsigned s with
    | some v => if v > llongMax then none else some v
    | none => none

theorem readDigits_eq {v : ℕ} (hs : ∀ b ∈ s, IsDigit b) (hv : value v s ≤ ullongMax) :
    readDigits v s = some (value v s, []) := by
  induction s generalizing v with
  | nil => rw [readDigits, value_nil]
  | cons b s ih =>
    have hb : 48 ≤ b.toNat ∧ b.toNat ≤ 57 := hs b mem_cons_self
    have hle := (le_value (v * 10 + (b.toNat - 48)) s).trans hv
    rw [readDigits, if_pos hb, if_neg (by omega), if_neg (by omega),
      ih (fun c hc => hs c (mem_cons_of_mem b hc)) hv, value_cons]

theorem readUnsigned_decimal (hpos : 0 < n) (hn : n ≤ ullongMax) :
    readUnsigned (decimal n) = some n := by
  obtain ⟨b, s, hs, hb⟩ := decimal_eq_cons hpos
  have hvalue := value_decimal n
  have hdigits : ∀ c ∈ s, IsDigit c := fun c hc =>
    isDigit_of_mem_decimal (by rw [hs]; exact mem_cons_of_mem b hc)
  rw [hs, value_cons, Nat.zero_add] at hvalue
  rw [hs, readUnsigned, if_pos hb, readDigits_eq hdigits (by rw [hvalue]; exact hn), hvalue]

theorem string2ll_decimalInt (hv : IsLongLong v) : string2ll (decimalInt v) = some v := by
  obtain ⟨hmin, hmax⟩ := hv
  have hull : ullongMax = 2 ^ 64 - 1 := rfl
  have hll : llongMax = 2 ^ 63 - 1 := rfl
  rcases lt_trichotomy v 0 with hneg | rfl | hpos
  · rw [decimalInt, if_pos hneg, string2ll, if_neg (by simp), if_pos head?_cons,
      tail_cons, readUnsigned_decimal (by omega) (by omega)]
    simp only
    rw [if_neg (by omega)]
    congr 1
    omega
  · have hzero : decimalInt 0 = [48] := by
      rw [decimalInt, decimal_of_lt (by decide)]
      rfl
    rw [hzero, string2ll, if_pos rfl]
  · obtain ⟨b, s, hs, hb⟩ := decimal_eq_cons (show 0 < v.natAbs by omega)
    have hread := readUnsigned_decimal (show 0 < v.natAbs by omega) (show _ ≤ ullongMax by omega)
    have hnotzero : b :: s ≠ [48] := by
      intro heq
      rw [(List.cons.inj heq).1] at hb
      exact absurd hb.1 (by decide)
    have hnotneg : (b :: s).head? ≠ some 45 := by
      intro heq
      rw [Option.some.inj heq] at hb
      exact absurd hb.1 (by decide)
    rw [hs] at hread
    rw [decimalInt, if_neg (by omega), hs, string2ll, if_neg hnotzero, if_neg hnotneg, hread]
    simp only
    rw [if_neg (by omega)]
    congr 1
    omega

theorem readDigits_eq_some {v : ℕ} (h : readDigits v s = some (n, [])) :
    (∀ b ∈ s, IsDigit b) ∧ n = value v s := by
  induction s generalizing v with
  | nil =>
    rw [readDigits, Option.some.injEq, Prod.mk.injEq] at h
    exact ⟨by simp, by rw [value_nil, h.1]⟩
  | cons b s ih =>
    rw [readDigits] at h
    split_ifs at h with hb hover hover'
    · obtain ⟨hs, hn⟩ := ih h
      exact ⟨forall_mem_cons.2 ⟨hb, hs⟩, by rw [value_cons, hn]⟩
    · simp at h

theorem readUnsigned_eq_some (h : readUnsigned s = some n) : 0 < n ∧ s = decimal n := by
  cases s with
  | nil => cases h
  | cons b s =>
    rw [readUnsigned] at h
    split_ifs at h with hb
    split at h
    next v hread =>
      obtain ⟨hs, rfl⟩ := readDigits_eq_some hread
      cases h
      have hle := le_value (b.toNat - 48) s
      have hvalue := decimal_value hb hs
      rw [value_cons, Nat.zero_add] at hvalue
      exact ⟨by omega, hvalue.symm⟩
    next => cases h

theorem string2ll_eq_some (h : string2ll s = some v) : IsLongLong v ∧ s = decimalInt v := by
  have hll : llongMax = 2 ^ 63 - 1 := rfl
  rw [string2ll] at h
  split_ifs at h with hzero hsign
  · cases h
    refine ⟨by decide, ?_⟩
    rw [hzero, decimalInt, decimal_of_lt (by decide)]
    rfl
  · split at h
    next n hread =>
      obtain ⟨hpos, hs⟩ := readUnsigned_eq_some hread
      split_ifs at h with hover
      cases h
      refine ⟨⟨by omega, by omega⟩, ?_⟩
      rw [decimalInt, if_pos (by omega), Int.natAbs_neg, Int.natAbs_natCast, ← hs,
        cons_head?_tail hsign]
    next => cases h
  · split at h
    next n hread =>
      obtain ⟨hpos, hs⟩ := readUnsigned_eq_some hread
      split_ifs at h with hover
      cases h
      refine ⟨⟨by omega, by omega⟩, ?_⟩
      rw [decimalInt, if_neg (by omega), hs, Int.natAbs_natCast]
    next => cases h

/-- `string2ll` accepts exactly what `ll2string` prints into a buffer that is large enough. -/
theorem string2ll_iff_ll2string {len : ℕ} (hlen : 21 ≤ len) (s : Bytes) (v : ℤ) :
    string2ll s = some v ↔ IsLongLong v ∧ s = ll2string len v := by
  constructor
  · intro h
    obtain ⟨hv, hs⟩ := string2ll_eq_some h
    exact ⟨hv, by rw [ll2string_eq hv hlen, hs]⟩
  · rintro ⟨hv, rfl⟩
    rw [ll2string_eq hv hlen, string2ll_decimalInt hv]

theorem string2ll_iff_ll2string_min : 21 ≤ 21 ∧ (string2ll [45, 49, 50] = some (-12) ↔
      IsLongLong (-12) ∧ [45, 49, 50] = ll2string 21 (-12)) :=
  ⟨le_rfl, string2ll_iff_ll2string le_rfl _ _⟩

/-! ## The C library -/

def isSpace (b : UInt8) : Bool := b = 32 || (9 ≤ b && b ≤ 13)

def readSign : Bytes → Bool × Bytes
  | 45 :: s => (true, s)
  | 43 :: s => (false, s)
  | s => (false, s)

/-- `strtoll` in base 10, and `*endptr`. -/
def strtoll (s : Bytes) : ℤ × Bytes :=
  let (neg, t) := readSign (s.dropWhile isSpace)
  let digits := t.takeWhile (fun b => decide (IsDigit b))
  if digits = [] then (0, s)
  else
    let value := if neg then -(Decimal.value 0 digits : ℤ) else Decimal.value 0 digits
    (max (-2 ^ 63) (min (2 ^ 63 - 1) value), t.dropWhile (fun b => decide (IsDigit b)))

theorem isLongLong_strtoll (s : Bytes) : IsLongLong (strtoll s).1 := by
  rw [strtoll]
  simp only
  split_ifs
  · exact ⟨show -2 ^ 63 ≤ (0 : ℤ) by decide, show (0 : ℤ) ≤ 2 ^ 63 - 1 by decide⟩
  all_goals exact ⟨le_max_left _ _, max_le (by decide) (min_le_left _ _)⟩

end ServerStack.Redis.Util
