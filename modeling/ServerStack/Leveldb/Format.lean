import Mathlib

/-!
# Internal keys

The keys of `dbformat.h`: a user key with the sequence number and the type of one update of it.
User keys are compared by a comparator given to the database, here any linear order.
-/

namespace ServerStack.Leveldb

inductive ValueType where
  | deletion
  | value
  deriving DecidableEq, Repr

def kMaxSequenceNumber : ℕ := 2 ^ 56 - 1

/-- An internal key; the sequence number shares 64 bits with the type. -/
structure InternalKey (K : Type*) where
  userKey : K
  sequence : ℕ
  type : ValueType
  sequence_le : sequence ≤ kMaxSequenceNumber

/-- `PackSequenceAndType`: `(seq << 8) | t`. -/
def packSequenceAndType (sequence : ℕ) : ValueType → ℕ
  | .deletion => sequence * 256
  | .value => sequence * 256 + 1

theorem packSequenceAndType_inj {m n : ℕ} {t t' : ValueType}
    (h : packSequenceAndType m t = packSequenceAndType n t') : m = n ∧ t = t' := by
  cases t <;> cases t' <;> simp only [packSequenceAndType, reduceCtorEq, and_true, and_false] at h ⊢
    <;> omega

namespace InternalKey

variable {K : Type*} {a b : InternalKey K}

@[ext] theorem ext (hkey : a.userKey = b.userKey) (hsequence : a.sequence = b.sequence)
    (htype : a.type = b.type) : a = b := by
  cases a
  cases b
  simp_all

/-- What the comparator looks at: the user key, then the packed number, larger ones first. -/
def rank (a : InternalKey K) : K ×ₗ ℕᵒᵈ :=
  toLex (a.userKey, OrderDual.toDual (packSequenceAndType a.sequence a.type))

theorem rank_injective : Function.Injective (rank (K := K)) := by
  intro a b h
  obtain ⟨hkey, hpacked⟩ := Prod.mk.inj (toLex.injective h)
  obtain ⟨hsequence, htype⟩ := packSequenceAndType_inj (OrderDual.toDual.injective hpacked)
  exact InternalKey.ext hkey hsequence htype

/-- `InternalKeyComparator`. -/
instance [LinearOrder K] : LinearOrder (InternalKey K) := LinearOrder.lift' rank rank_injective

variable [LinearOrder K]

theorem lt_iff : a < b ↔ a.userKey < b.userKey ∨ a.userKey = b.userKey ∧
      packSequenceAndType b.sequence b.type < packSequenceAndType a.sequence a.type :=
  Prod.Lex.toLex_lt_toLex

theorem userKey_le (h : a ≤ b) : a.userKey ≤ b.userKey := by
  rcases h.lt_or_eq with hlt | rfl
  · rcases lt_iff.1 hlt with hkey | ⟨hkey, -⟩
    · exact hkey.le
    · exact hkey.le
  · exact le_rfl

theorem sequence_le_of_le (h : a ≤ b) (hkey : a.userKey = b.userKey) : b.sequence ≤ a.sequence := by
  rcases h.lt_or_eq with hlt | rfl
  · rcases lt_iff.1 hlt with hlt | ⟨-, hpacked⟩
    · exact absurd hkey hlt.ne
    · cases ha : a.type <;> cases hb : b.type <;>
        simp only [ha, hb, packSequenceAndType] at hpacked <;> omega
  · exact le_rfl

end InternalKey

structure FileMetaData (K : Type*) where
  number : ℕ
  smallest : InternalKey K
  largest : InternalKey K

end ServerStack.Leveldb
