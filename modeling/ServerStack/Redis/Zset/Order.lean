import ServerStack.Redis.Zset.Skiplist

/-!
# The order of a sorted set

The comparison of the source is a linear order on pairs of a score and a string: by score, then by
the bytes of the string.  A sorted set is a list of pairs in that order, and the operations on it
are stated here on lists; both encodings are compared with them.
-/

namespace ServerStack.Redis.Zset

open Util List

/-! ## Strings -/

def strKey (s : Bytes) : List ℕ := s.map UInt8.toNat

theorem strKey_injective : Function.Injective strKey :=
  map_injective_iff.2 fun _ _ h => UInt8.toNat_inj.1 h

theorem compareStringObjects_cons (a b : UInt8) (s t : Bytes) :
    compareStringObjects (a :: s) (b :: t) =
      (compare a.toNat b.toNat).then (compareStringObjects s t) := by
  have hlen : compare (s.length + 1) (t.length + 1) = compare s.length t.length := by
    simp [Nat.compare_eq_ite_lt]
  simp only [compareStringObjects, length_cons, Nat.succ_min_succ, memcmp, hlen,
    Ordering.then_assoc]

theorem compareStringObjects_lt :
    ∀ a b : Bytes, compareStringObjects a b = .lt ↔ strKey a < strKey b
  | [], [] => by simp [compareStringObjects, memcmp, strKey]
  | [], b :: t | a :: s, [] => by simp [compareStringObjects, memcmp, strKey, Nat.compare_eq_lt]
  | a :: s, b :: t => by
      rw [compareStringObjects_cons, Ordering.then_eq_lt, compareStringObjects_lt s t,
        Nat.compare_eq_lt, Nat.compare_eq_eq]
      simp only [strKey, map_cons, cons_lt_cons_iff]

theorem compareStringObjects_eq : ∀ a b : Bytes, compareStringObjects a b = .eq ↔ a = b
  | [], [] | [], b :: t | a :: s, [] => by simp [compareStringObjects, memcmp]
  | a :: s, b :: t => by
      rw [compareStringObjects_cons, Ordering.then_eq_eq, compareStringObjects_eq s t,
        Nat.compare_eq_eq, UInt8.toNat_inj, List.cons.injEq]

theorem compareStringObjects_gt (a b : Bytes) :
    compareStringObjects a b = .gt ↔ strKey b < strKey a := by
  rw [← not_le, le_iff_lt_or_eq, ← compareStringObjects_lt, strKey_injective.eq_iff,
    ← compareStringObjects_eq]
  cases compareStringObjects a b <;> simp

theorem equalStringObjects_iff (a b : Bytes) : equalStringObjects a b = true ↔ a = b := by
  rw [equalStringObjects, beq_iff_eq, compareStringObjects_eq]

/-! ## Entries -/

abbrev Entry (S : Type) := S × Bytes

variable {S : Type}

def key (e : Entry S) : Lex (S × List ℕ) := toLex (e.1, strKey e.2)

theorem key_injective : Function.Injective (key : Entry S → Lex (S × List ℕ)) := by
  rintro ⟨s, a⟩ ⟨t, b⟩ h
  obtain ⟨hs, ha⟩ := Prod.mk.inj (toLex.injective h)
  exact Prod.ext hs (strKey_injective ha)

def Node.entry (n : Node S) : Entry S := (n.score, n.str)

variable [LinearOrder S]

theorem key_lt_iff (a b : Entry S) :
    key a < key b ↔ a.1 < b.1 ∨ a.1 = b.1 ∧ strKey a.2 < strKey b.2 :=
  Prod.Lex.toLex_lt_toLex

theorem score_le_of_key_le {a b : Entry S} (h : key a ≤ key b) : a.1 ≤ b.1 := by
  rcases Prod.Lex.toLex_le_toLex.1 h with h | h
  · exact h.le
  · exact h.1.le

theorem nodeBefore_iff (score : S) (obj : Bytes) (n : Node S) :
    nodeBefore score obj n = true ↔ key n.entry < key (score, obj) := by
  rw [key_lt_iff, nodeBefore]
  simp [Node.entry, compareStringObjects_lt]

theorem nodeUpTo_iff (score : S) (obj : Bytes) (n : Node S) :
    nodeUpTo score obj n = true ↔ key n.entry ≤ key (score, obj) := by
  have hle : compareStringObjects n.str obj ≠ .gt ↔ strKey n.str ≤ strKey obj := by
    rw [le_iff_lt_or_eq, ← compareStringObjects_lt, strKey_injective.eq_iff,
      ← compareStringObjects_eq]
    cases compareStringObjects n.str obj <;> simp
  rw [nodeUpTo, le_iff_lt_or_eq, key_lt_iff, key_injective.eq_iff]
  simp only [Bool.or_eq_true, decide_eq_true_eq, Bool.and_eq_true, bne_iff_ne, hle, Node.entry,
    Prod.mk.injEq, le_iff_lt_or_eq, strKey_injective.eq_iff]
  tauto

def Sorted (l : List (Entry S)) : Prop := l.Pairwise fun a b => key a < key b

variable {l : List (Entry S)} {e : Entry S}

theorem Sorted.sublist {l' : List (Entry S)} (h : Sorted l) (hsub : l'.Sublist l) : Sorted l' :=
  List.Pairwise.sublist hsub h

def Downward (test : Entry S → Bool) : Prop :=
  ∀ a b : Entry S, key a < key b → test b = true → test a = true

theorem Sorted.takeWhile_dropWhile (h : Sorted l) {test : Entry S → Bool} (htest : Downward test) :
    l.takeWhile test = l.filter test ∧ l.dropWhile test = l.filter fun a => !test a := by
  induction l with
  | nil => exact ⟨rfl, rfl⟩
  | cons a l ih =>
    obtain ⟨hlt, hl⟩ := pairwise_cons.1 h
    cases ha : test a with
    | true =>
      obtain ⟨htake, hdrop⟩ := ih hl
      simp [ha, htake, hdrop]
    | false =>
      have hnone : ∀ b ∈ l, test b = false := fun b hb => by
        by_contra hb'
        have := htest a b (hlt b hb) (eq_true_of_ne_false hb')
        simp [ha] at this
      have hfilter : l.filter test = [] := filter_eq_nil_iff.2 fun b hb => by simp [hnone b hb]
      have hall : l.filter (fun b => !test b) = l :=
        filter_eq_self.2 fun b hb => by simp [hnone b hb]
      simp [ha, hfilter, hall]

theorem downward_lt (e : Entry S) : Downward fun a => decide (key a < key e) := by
  intro a b hab hb
  rw [decide_eq_true_iff] at hb ⊢
  exact hab.trans hb

/-! ## Operations on sorted lists -/

def insertEntry (e : Entry S) (l : List (Entry S)) : List (Entry S) :=
  l.filter (fun a => decide (key a < key e)) ++ e :: l.filter fun a => !decide (key a < key e)

theorem Sorted.insertEntry (h : Sorted l) (he : e ∉ l) : Sorted (insertEntry e l) := by
  have hbefore : ∀ a ∈ l.filter (fun a => decide (key a < key e)), key a < key e := fun a ha => by
    simpa using (mem_filter.1 ha).2
  have hafter : ∀ a ∈ l.filter (fun a => !decide (key a < key e)), key e < key a := by
    intro a ha
    rw [mem_filter] at ha
    have hle : key e ≤ key a := by simpa using ha.2
    exact lt_of_le_of_ne hle fun heq => he (key_injective heq ▸ ha.1)
  refine pairwise_append.2 ⟨h.sublist filter_sublist, ?_, ?_⟩
  · exact pairwise_cons.2 ⟨hafter, h.sublist filter_sublist⟩
  · intro a ha b hb
    rcases mem_cons.1 hb with rfl | hb
    · exact hbefore a ha
    · exact (hbefore a ha).trans (hafter b hb)

def deleteEntry (e : Entry S) (l : List (Entry S)) : List (Entry S) :=
  l.filter fun a => decide (key a ≠ key e)

theorem deleteEntry_of_not_mem (he : e ∉ l) : deleteEntry e l = l := by
  refine filter_eq_self.2 fun a ha => ?_
  rw [decide_eq_true_iff]
  exact fun heq => he (key_injective heq ▸ ha)

theorem Sorted.deleteEntry_middle {l₁ l₂ : List (Entry S)} (h : Sorted (l₁ ++ e :: l₂)) :
    deleteEntry e (l₁ ++ e :: l₂) = l₁ ++ l₂ := by
  obtain ⟨-, h₂, h₁⟩ := pairwise_append.1 h
  have hnot₁ : e ∉ l₁ := fun he => lt_irrefl _ (h₁ e he e mem_cons_self)
  have hnot₂ : e ∉ l₂ := fun he => lt_irrefl _ ((pairwise_cons.1 h₂).1 e he)
  have happend : deleteEntry e (l₁ ++ e :: l₂) = deleteEntry e l₁ ++ deleteEntry e l₂ := by
    simp [deleteEntry, filter_append]
  rw [happend, deleteEntry_of_not_mem hnot₁, deleteEntry_of_not_mem hnot₂]

variable (range : RangeSpec S)

def RangeSpec.contains (score : S) : Bool :=
  zslValueGteMin score range && zslValueLteMax score range

section

variable (l : List (Entry S))

def firstInRange : Option (Entry S) :=
  (l.filter fun a => range.contains a.1).head?

def lastInRange : Option (Entry S) :=
  (l.filter fun a => range.contains a.1).getLast?

theorem lastInRange_concat (e : Entry S) : lastInRange range (l ++ [e]) =
      if range.contains e.1 then some e else lastInRange range l := by
  rw [lastInRange, filter_append, filter_cons]
  cases range.contains e.1 with
  | true => rw [if_pos rfl, if_pos rfl, filter_nil, getLast?_concat]
  | false => rw [if_neg Bool.false_ne_true, if_neg Bool.false_ne_true, filter_nil,
      append_nil, lastInRange]

def deleteRange : List (Entry S) :=
  l.filter fun a => !range.contains a.1

end

/-- Delete the elements of ranks `start` to `stop`, 1-based. -/
def deleteRanks (start stop : ℕ) (l : List (Entry S)) : List (Entry S) :=
  l.take (start - 1) ++ (l.drop (start - 1)).drop (stop - (l.take (start - 1)).length)

/-! ## Ranges of scores -/

theorem not_gteMin (score : S) :
    (if range.minex then decide (score ≤ range.min) else decide (score < range.min)) =
      !zslValueGteMin score range := by
  rw [zslValueGteMin]
  split_ifs
  · rw [← decide_not, decide_eq_decide, not_lt]
  · rw [← decide_not, decide_eq_decide, not_le]

theorem downward_not_gteMin : Downward fun a : Entry S => !zslValueGteMin a.1 range := by
  intro a b hab hb
  have hle := score_le_of_key_le hab.le
  simp only [zslValueGteMin] at hb ⊢
  split_ifs at hb ⊢
  · simp only [Bool.not_eq_true', decide_eq_false_iff_not, not_lt] at hb ⊢
    exact hle.trans hb
  · simp only [Bool.not_eq_true', decide_eq_false_iff_not, not_le] at hb ⊢
    exact lt_of_le_of_lt hle hb

theorem downward_lteMax : Downward fun a : Entry S => zslValueLteMax a.1 range := by
  intro a b hab hb
  have hle := score_le_of_key_le hab.le
  simp only [zslValueLteMax] at hb ⊢
  split_ifs at hb ⊢
  · simp only [decide_eq_true_eq] at hb ⊢
    exact lt_of_le_of_lt hle hb
  · simp only [decide_eq_true_eq] at hb ⊢
    exact hle.trans hb

/-- A range splits a sorted list into the entries below, in and above it. -/
structure RangeSplit (range : RangeSpec S) (l A B C : List (Entry S)) : Prop where
  eq : l = A ++ (B ++ C)
  below : ∀ a ∈ A, zslValueGteMin a.1 range = false
  inside : ∀ b ∈ B, range.contains b.1 = true
  above : ∀ c ∈ C, zslValueGteMin c.1 range = true ∧ zslValueLteMax c.1 range = false

theorem Sorted.rangeSplit (h : Sorted l) (range : RangeSpec S) :
    ∃ A B C, RangeSplit range l A B C := by
  obtain ⟨htake, hdrop⟩ := h.takeWhile_dropWhile (downward_not_gteMin range)
  obtain ⟨R, hR⟩ : ∃ R, R = l.filter fun a => !!zslValueGteMin a.1 range := ⟨_, rfl⟩
  have hgte : ∀ a ∈ R, zslValueGteMin a.1 range = true := fun a ha => by
    rw [hR, mem_filter] at ha
    simpa using ha.2
  have hRsorted : Sorted R := hR ▸ h.sublist filter_sublist
  obtain ⟨htake', hdrop'⟩ := hRsorted.takeWhile_dropWhile (downward_lteMax range)
  refine ⟨l.filter fun a => !zslValueGteMin a.1 range, R.filter fun a => zslValueLteMax a.1 range,
    R.filter fun a => !zslValueLteMax a.1 range, ?_, ?_, ?_, ?_⟩
  · rw [← htake', ← hdrop', takeWhile_append_dropWhile, hR, ← htake, ← hdrop,
      takeWhile_append_dropWhile]
  · intro a ha
    simpa using (mem_filter.1 ha).2
  · intro b hb
    rw [mem_filter] at hb
    rw [RangeSpec.contains, hgte b hb.1, hb.2, Bool.true_and]
  · intro c hc
    rw [mem_filter] at hc
    exact ⟨hgte c hc.1, by simpa using hc.2⟩

def isInRange (l : List (Entry S)) : Bool :=
  !decide (range.max < range.min ∨ (range.min = range.max ∧ (range.minex ∨ range.maxex))) &&
    l.getLast?.any (fun a => zslValueGteMin a.1 range) &&
    l.head?.any fun a => zslValueLteMax a.1 range

theorem RangeSpec.nonempty_of_contains {range : RangeSpec S} {score : S}
    (h : range.contains score = true) :
    ¬ (range.max < range.min ∨ (range.min = range.max ∧ (range.minex ∨ range.maxex))) := by
  rw [RangeSpec.contains, Bool.and_eq_true, zslValueGteMin, zslValueLteMax] at h
  obtain ⟨hmin, hmax⟩ := h
  rintro (hlt | ⟨heq, hex⟩)
  · split_ifs at hmin hmax <;> rw [decide_eq_true_iff] at hmin hmax <;> order
  · split_ifs at hmin hmax with h₁ h₂ <;> rw [decide_eq_true_iff] at hmin hmax
    · order
    · order
    · order
    · simp_all

theorem Sorted.isInRange_of_contains (h : Sorted l) {range : RangeSpec S} {b : Entry S} (hb : b ∈ l)
    (hc : range.contains b.1 = true) : isInRange range l = true := by
  have hmem := hc
  rw [RangeSpec.contains, Bool.and_eq_true] at hmem
  rw [isInRange, decide_eq_false (RangeSpec.nonempty_of_contains hc), Bool.and_eq_true]
  constructor
  · obtain ⟨l', z, rfl⟩ := eq_nil_or_concat l |>.resolve_left (ne_nil_of_mem hb)
    rw [concat_eq_append] at hb h ⊢
    rw [getLast?_concat]
    rcases mem_append.1 hb with hb | hb
    · have hlt := (pairwise_append.1 h).2.2 b hb z mem_cons_self
      by_contra hz
      have := downward_not_gteMin range b z hlt (by simpa using hz)
      simp [hmem.1] at this
    · rw [mem_singleton] at hb
      exact hb ▸ hmem.1
  · obtain ⟨a, l', rfl⟩ := exists_cons_of_ne_nil (ne_nil_of_mem hb)
    rcases mem_cons.1 hb with rfl | hb
    · exact hmem.2
    · exact downward_lteMax range a b ((pairwise_cons.1 h).1 b hb) hmem.2

theorem Sorted.firstInRange_eq (h : Sorted l) (range : RangeSpec S) :
    firstInRange range l = (l.filter fun a => zslValueGteMin a.1 range).head?.filter fun a =>
      zslValueLteMax a.1 range := by
  have htake := ((h.sublist filter_sublist).takeWhile_dropWhile
    (l := l.filter fun a => zslValueGteMin a.1 range) (downward_lteMax range)).1
  rw [firstInRange, ← head?_takeWhile, htake, filter_filter]
  congr 2
  funext a
  rw [RangeSpec.contains, Bool.and_comm]

theorem Sorted.lastInRange_eq (h : Sorted l) (range : RangeSpec S) :
    lastInRange range l = (l.filter fun a => zslValueLteMax a.1 range).getLast?.filter fun a =>
      zslValueGteMin a.1 range := by
  have hfilter : l.filter (fun a => range.contains a.1) =
      (l.filter fun a => zslValueLteMax a.1 range).filter fun a => zslValueGteMin a.1 range := by
    rw [filter_filter]
    rfl
  have hsorted : Sorted (l.filter fun a => zslValueLteMax a.1 range) := h.sublist filter_sublist
  rw [lastInRange, hfilter]
  rcases eq_nil_or_concat (l.filter fun a => zslValueLteMax a.1 range) with hnil | ⟨m, z, hm⟩
  · rw [hnil]
    rfl
  rw [concat_eq_append] at hm
  rw [hm] at hsorted ⊢
  rw [getLast?_concat, filter_append, filter_cons]
  cases hz : zslValueGteMin z.1 range with
  | true => rw [if_pos rfl, filter_nil, getLast?_concat, Option.filter_some, if_pos hz]
  | false =>
    have hnone : m.filter (fun a => zslValueGteMin a.1 range) = [] :=
      filter_eq_nil_iff.2 fun a ha => by
        have hlt := (pairwise_append.1 hsorted).2.2 a ha z mem_cons_self
        simpa using downward_not_gteMin range a z hlt (by simp [hz])
    rw [hnone, if_neg Bool.false_ne_true, Option.filter_some, if_neg (by simp [hz])]
    rfl

variable {range : RangeSpec S} {l A B C : List (Entry S)}

variable (h : RangeSplit range l A B C)

include h

theorem RangeSplit.not_contains :
    (∀ a ∈ A, range.contains a.1 = false) ∧ ∀ c ∈ C, range.contains c.1 = false :=
  ⟨fun a ha => by rw [RangeSpec.contains, h.below a ha, Bool.false_and],
    fun c hc => by rw [RangeSpec.contains, (h.above c hc).2, Bool.and_false]⟩

theorem RangeSplit.filter : l.filter (fun a => range.contains a.1) = B := by
  obtain ⟨hA, hC⟩ := h.not_contains
  rw [h.eq, filter_append, filter_append, filter_eq_self.2 h.inside,
    filter_eq_nil_iff.2 fun a ha => by simp [hA a ha],
    filter_eq_nil_iff.2 fun c hc => by simp [hC c hc], nil_append, append_nil]

theorem RangeSplit.deleteRange : Zset.deleteRange range l = A ++ C := by
  obtain ⟨hA, hC⟩ := h.not_contains
  rw [Zset.deleteRange, h.eq, filter_append, filter_append,
    filter_eq_self.2 fun a ha => by simp [hA a ha],
    filter_eq_nil_iff.2 fun b hb => by simp [h.inside b hb],
    filter_eq_self.2 fun c hc => by simp [hC c hc], nil_append]

theorem RangeSplit.isInRange_of_ne_nil (hl : Sorted l)
    (hB : B ≠ []) : isInRange range l = true := by
  obtain ⟨b, B, rfl⟩ := exists_cons_of_ne_nil hB
  exact hl.isInRange_of_contains (by simp [h.eq]) (h.inside b mem_cons_self)

end ServerStack.Redis.Zset
