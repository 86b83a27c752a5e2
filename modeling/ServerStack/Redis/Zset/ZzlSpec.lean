import ServerStack.Redis.Zset.Order
import ServerStack.Redis.Zset.Zzl

/-!
# Sorted ziplists

The `zzl` functions on the ziplist of a sorted list of entries do what the operations on sorted
lists do.  The printed form of a score is read back exactly (`hparse`).
-/

namespace ServerStack.Redis.Zset

open Util Ziplist.Strings List Option

variable {S : Type}

/-! ## The ziplist of a list of entries -/

section

variable (d2string : S → Bytes) (l : List (Entry S))

def zzlList : List Bytes := l.flatMap fun e => [e.2, d2string e.1]

/-- The pointer to the first element of `R`, which comes after `P`. -/
def cursor (P R : List (Entry S)) : Option ℕ := if R = [] then none else some (2 * P.length)

variable {d2string}

theorem zzlList_append (l l' : List (Entry S)) :
    zzlList d2string (l ++ l') = zzlList d2string l ++ zzlList d2string l' := flatMap_append

@[simp] theorem zzlList_cons (e : Entry S) (l : List (Entry S)) :
    zzlList d2string (e :: l) = e.2 :: d2string e.1 :: zzlList d2string l := rfl

theorem length_zzlList : (zzlList d2string l).length = 2 * l.length := by
  induction l with
  | nil => rfl
  | cons e l ih =>
    rw [zzlList_cons, length_cons, length_cons, length_cons]
    omega

variable (P R : List (Entry S)) (e : Entry S)

theorem ziplistGet_element :
    ziplistGet (zzlList d2string (P ++ e :: R)) (2 * P.length) = some e.2 := by
  rw [ziplistGet, zzlList_append, getElem?_append_right (length_zzlList P).le, length_zzlList,
    Nat.sub_self, zzlList_cons, getElem?_cons_zero]

theorem ziplistGet_score :
    ziplistGet (zzlList d2string (P ++ e :: R)) (2 * P.length + 1) = some (d2string e.1) := by
  rw [ziplistGet, zzlList_append,
    getElem?_append_right ((length_zzlList P).le.trans (Nat.le_add_right _ 1)), length_zzlList,
    Nat.add_sub_cancel_left, zzlList_cons, getElem?_cons_succ, getElem?_cons_zero]

theorem ziplistNext_element :
    ziplistNext (zzlList d2string (P ++ e :: R)) (2 * P.length) = some (2 * P.length + 1) := by
  rw [ziplistNext, length_zzlList, length_append, length_cons, if_pos (by omega)]

theorem ziplistNext_score :
    ziplistNext (zzlList d2string (P ++ e :: R)) (2 * P.length + 1) = cursor (P ++ [e]) R := by
  rw [ziplistNext, cursor, length_zzlList, length_append, length_append, length_cons]
  cases R with
  | nil => rw [if_neg (by rw [length_nil]; omega), if_pos rfl]
  | cons f R =>
    rw [if_pos (by rw [length_cons]; omega)]
    rfl

theorem ziplistIndex_zero : ziplistIndex (zzlList d2string l) 0 = cursor [] l := by
  cases l with
  | nil => rfl
  | cons e l => simp [ziplistIndex, cursor]

/-! ## The loop over the elements -/

variable {β : Type} {body : ℕ → ℕ → Option (Option β)} {atEnd : Option β}

theorem scan_skip (R₂ : List (Entry S)) (fuel : ℕ) :
    ∀ R₁ P : List (Entry S), (∀ Q a T, R₁ = Q ++ a :: T →
      body (2 * (P ++ Q).length) (2 * (P ++ Q).length + 1) = some none) →
      scan (zzlList d2string (P ++ (R₁ ++ R₂))) body atEnd (fuel + R₁.length)
          (cursor P (R₁ ++ R₂)) =
        scan (zzlList d2string (P ++ (R₁ ++ R₂))) body atEnd fuel (cursor (P ++ R₁) R₂)
  | [], P, _ => by rw [nil_append, append_nil, length_nil, Nat.add_zero]
  | a :: R₁, P, hbody => by
    have ha := hbody [] a R₁ rfl
    rw [append_nil] at ha
    have hrest := scan_skip R₂ fuel R₁ (P ++ [a]) fun Q b T hQ => by
      have := hbody (a :: Q) b T (by rw [hQ, cons_append])
      rwa [append_cons] at this
    rw [append_assoc, append_assoc, singleton_append, singleton_append] at hrest
    rw [cons_append, ← hrest, cursor, if_neg (cons_ne_nil _ _), length_cons,
      ← Nat.add_assoc, scan, ziplistNext_element, bind_eq_bind, bind_some, ha]
    simp only [bind_eq_bind, bind_some]
    rw [ziplistNext_score]

theorem scan_prefix (d2string : S → Bytes) (body : ℕ → ℕ → Option (Option β)) (atEnd : Option β)
    (A R : List (Entry S))
    (hbody : ∀ Q a T, A = Q ++ a :: T → body (2 * Q.length) (2 * Q.length + 1) = some none) :
    ∃ fuel, scan (zzlList d2string (A ++ R)) body atEnd ((zzlList d2string (A ++ R)).length + 1)
        (ziplistIndex (zzlList d2string (A ++ R)) 0) =
      scan (zzlList d2string (A ++ R)) body atEnd (fuel + 1) (cursor A R) := by
  refine ⟨A.length + 2 * R.length, ?_⟩
  have hlen : (zzlList d2string (A ++ R)).length + 1 = A.length + 2 * R.length + 1 + A.length := by
    rw [length_zzlList, length_append]
    omega
  rw [hlen, ziplistIndex_zero]
  exact scan_skip R _ A [] hbody

theorem scan_end (zl : List Bytes) (fuel : ℕ) (P : List (Entry S)) :
    scan zl body atEnd (fuel + 1) (cursor P []) = atEnd := rfl

theorem scan_stop {result : β} (fuel : ℕ)
    (hbody : body (2 * P.length) (2 * P.length + 1) = some (some result)) :
    scan (zzlList d2string (P ++ e :: R)) body atEnd (fuel + 1) (cursor P (e :: R)) =
      some result := by
  rw [cursor, if_neg (cons_ne_nil _ _), scan, ziplistNext_element, bind_eq_bind, bind_some, hbody]
  rfl

end

/-! ## Ranges of scores -/

variable [LinearOrder S] {strtod : Bytes → S} {d2string : S → Bytes}
  (hparse : ∀ s, strtod (d2string s) = s)

include hparse

omit [LinearOrder S] in
theorem zzlGetScore_eq (P R : List (Entry S)) (e : Entry S) :
    zzlGetScore strtod (zzlList d2string (P ++ e :: R)) (2 * P.length + 1) = some e.1 := by
  rw [zzlGetScore, ziplistGet_score, map_some, hparse]

theorem zzlIsInRange_eq (range : RangeSpec S) (l : List (Entry S)) :
    zzlIsInRange strtod (zzlList d2string l) range = some (isInRange range l) := by
  rw [zzlIsInRange, isInRange]
  split_ifs with hempty
  · rw [decide_eq_true hempty]
    rfl
  rw [decide_eq_false hempty]
  rcases eq_nil_or_concat l with rfl | ⟨l', z, rfl⟩
  · rfl
  have hlast : ziplistIndex (zzlList d2string (l'.concat z)) (-1) = some (2 * l'.length + 1) := by
    rw [ziplistIndex, length_zzlList]
    simp
    omega
  obtain ⟨a, l, hl⟩ : ∃ a l, l'.concat z = a :: l :=
    exists_cons_of_ne_nil (by simp)
  have hfirst : ziplistIndex (zzlList d2string (a :: l)) 1 = some 1 := by
    simp [ziplistIndex]
  have hz : zzlGetScore strtod (zzlList d2string (l'.concat z)) (2 * l'.length + 1) = some z.1 := by
    rw [concat_eq_append, zzlGetScore_eq hparse l' [] z]
  have ha : zzlGetScore strtod (zzlList d2string (a :: l)) 1 = some a.1 :=
    zzlGetScore_eq hparse [] l a
  have hget : (l'.concat z).getLast? = some z := by rw [concat_eq_append, getLast?_concat]
  rw [hlast]
  simp only [bind_eq_bind, hz, bind_some, hget, any_some, Bool.not_false, Bool.true_and]
  rw [hl, hfirst]
  simp only [bind_some, ha, head?_cons, any_some]
  cases zslValueGteMin z.1 range <;> rfl

theorem firstInRangeBody_eq (range : RangeSpec S) (P R : List (Entry S)) (e : Entry S) :
    firstInRangeBody strtod (zzlList d2string (P ++ e :: R)) range (2 * P.length)
        (2 * P.length + 1) =
      some (if zslValueGteMin e.1 range then
        some (if zslValueLteMax e.1 range then some (2 * P.length) else none) else none) := by
  rw [firstInRangeBody, zzlGetScore_eq hparse, bind_eq_bind, bind_some]
  cases zslValueGteMin e.1 range <;> rfl

variable {l : List (Entry S)} {ele : Bytes}

theorem zzlFirstInRange_eq {range : RangeSpec S} {A B C : List (Entry S)} (hl : Sorted l)
    (h : RangeSplit range l A B C) :
    zzlFirstInRange strtod (zzlList d2string l) range = some (cursor A B) := by
  rw [zzlFirstInRange, zzlIsInRange_eq hparse, bind_eq_bind, bind_some]
  by_cases hin : isInRange range l = true
  · rw [if_pos hin, h.eq]
    obtain ⟨fuel, hscan⟩ := scan_prefix d2string
      (firstInRangeBody strtod (zzlList d2string (A ++ (B ++ C))) range) (some none) A (B ++ C)
      fun Q a T hQ => by
        have hsplit : A ++ (B ++ C) = Q ++ a :: (T ++ (B ++ C)) := by simp [hQ]
        rw [hsplit, firstInRangeBody_eq hparse range, h.below a (by simp [hQ])]
        rfl
    rw [hscan]
    cases B with
    | nil =>
      cases C with
      | nil => rfl
      | cons c C =>
        refine scan_stop A C c fuel ?_
        rw [nil_append, firstInRangeBody_eq hparse range, (h.above c mem_cons_self).1,
          (h.above c mem_cons_self).2]
        rfl
    | cons b B =>
      refine scan_stop A (B ++ C) b fuel ?_
      have hb := h.inside b mem_cons_self
      rw [RangeSpec.contains, Bool.and_eq_true] at hb
      rw [cons_append, firstInRangeBody_eq hparse range, hb.1, hb.2]
      rfl
  · have hB : B = [] := by
      by_contra hB
      exact hin (h.isInRange_of_ne_nil hl hB)
    rw [if_neg hin, hB]
    rfl

/-- The last element of `L`. -/
def backCursor (L : List (Entry S)) : Option ℕ := if L = [] then none else some (2 * (L.length - 1))

def zzlEntry (strtod : Bytes → S) (zl : List Bytes) (eptr : ℕ) : Option (Entry S) := do
  let ele ← ziplistGet zl eptr
  let score ← zzlGetScore strtod zl (eptr + 1)
  return (score, ele)

omit [LinearOrder S] in
theorem zzlEntry_eq (P R : List (Entry S)) (e : Entry S) :
    zzlEntry strtod (zzlList d2string (P ++ e :: R)) (2 * P.length) = some e := by
  rw [zzlEntry, ziplistGet_element, zzlGetScore_eq hparse]
  rfl

omit hparse in
theorem lastLoop_prev (zl : List Bytes) (range : RangeSpec S) (fuel : ℕ) (L : List (Entry S)) :
    (match ziplistPrev (2 * L.length) with
      | none => lastLoop strtod zl range fuel none
      | some sptr => do
        let eptr ← ziplistPrev sptr
        lastLoop strtod zl range fuel (some eptr)) =
      lastLoop strtod zl range fuel (backCursor L) := by
  cases L with
  | nil => rfl
  | cons e L =>
    have h₁ : ziplistPrev (2 * (e :: L).length) = some (2 * L.length + 1) := by
      rw [ziplistPrev, length_cons, if_neg (by omega)]
      rfl
    have h₂ : ziplistPrev (2 * L.length + 1) = some (2 * L.length) := rfl
    rw [h₁]
    simp only [h₂]
    rfl

theorem lastLoop_eq (range : RangeSpec S) (L : List (Entry S)) :
    ∀ (T : List (Entry S)) (fuel : ℕ), Sorted L → L.length < fuel →
      ∃ r, lastLoop strtod (zzlList d2string (L ++ T)) range fuel (backCursor L) = some r ∧
        r.map (zzlEntry strtod (zzlList d2string (L ++ T))) = (lastInRange range L).map some := by
  induction L using List.reverseRecOn with
  | nil =>
    rintro T (_ | fuel) - hfuel
    · cases hfuel
    · exact ⟨none, rfl, rfl⟩
  | append_singleton L e ih =>
    rintro T (_ | fuel) hsorted hfuel
    · cases hfuel
    rw [length_append, length_singleton] at hfuel
    rw [append_assoc, singleton_append]
    have hcursor : backCursor (L ++ [e]) = some (2 * L.length) := by
      rw [backCursor, if_neg (by simp), length_append, length_singleton, Nat.add_sub_cancel]
    rw [hcursor, lastLoop, ziplistNext_element]
    simp only [bind_eq_bind, bind_some, zzlGetScore_eq hparse]
    cases hlte : zslValueLteMax e.1 range with
    | false =>
      -- the entry is above the range
      have hlast : lastInRange range (L ++ [e]) = lastInRange range L := by
        rw [lastInRange_concat, RangeSpec.contains, hlte, Bool.and_false,
          if_neg Bool.false_ne_true]
      obtain ⟨r, hr, hentry⟩ := ih (e :: T) fuel (hsorted.sublist (sublist_append_left L [e]))
        (by omega)
      refine ⟨r, ?_, hlast ▸ hentry⟩
      exact (lastLoop_prev _ range fuel L).trans hr
    | true =>
      refine ⟨_, rfl, ?_⟩
      cases hgte : zslValueGteMin e.1 range with
      | true =>
        rw [if_pos rfl, map_some, zzlEntry_eq hparse, lastInRange_concat,
          RangeSpec.contains, hgte, hlte, Bool.true_and, if_pos rfl, map_some]
      | false =>
        -- the entry is below the range, and so are the ones before it
        have hout : ∀ a ∈ L ++ [e], range.contains a.1 = false := by
          intro a ha
          have hbelow : zslValueGteMin a.1 range = false := by
            rcases mem_append.1 ha with ha | ha
            · have hlt := (pairwise_append.1 hsorted).2.2 a ha e mem_cons_self
              simpa using downward_not_gteMin range a e hlt (by simp [hgte])
            · rw [mem_singleton.1 ha, hgte]
          rw [RangeSpec.contains, hbelow, Bool.false_and]
        rw [lastInRange,
          filter_eq_nil_iff.2 fun a ha => by simp [hout a ha]]
        rfl

theorem zzlLastInRange_eq (range : RangeSpec S) (hl : Sorted l) :
    ∃ r, zzlLastInRange strtod (zzlList d2string l) range = some r ∧
      r.map (zzlEntry strtod (zzlList d2string l)) = (lastInRange range l).map some := by
  rw [zzlLastInRange, zzlIsInRange_eq hparse, bind_eq_bind, bind_some]
  by_cases hin : isInRange range l = true
  · have hindex : ziplistIndex (zzlList d2string l) (-2) = backCursor l := by
      cases l with
      | nil => rfl
      | cons e l =>
        rw [ziplistIndex, length_zzlList, backCursor]
        simp
        omega
    have hloop := lastLoop_eq hparse range l [] ((zzlList d2string l).length + 1) hl
      (by rw [length_zzlList]; omega)
    rw [append_nil] at hloop
    rw [if_pos hin, hindex]
    exact hloop
  · refine ⟨none, by rw [if_neg hin]; rfl, ?_⟩
    rw [lastInRange, filter_eq_nil_iff.2 fun a ha hc =>
      hin (hl.isInRange_of_contains ha hc)]
    rfl

/-! ## Finding and inserting an element -/

omit [LinearOrder S] hparse in
theorem ziplistCompare_eq (P R : List (Entry S)) (e : Entry S) (ele : Bytes) :
    ziplistCompare (zzlList d2string (P ++ e :: R)) (2 * P.length) ele = decide (e.2 = ele) := by
  rw [ziplistCompare, ziplistGet_element, Bool.eq_iff_iff, beq_iff_eq, Option.some.injEq,
    decide_eq_true_iff]

omit [LinearOrder S] in
theorem findBody_eq (P R : List (Entry S)) (e : Entry S) (ele : Bytes) :
    findBody strtod (zzlList d2string (P ++ e :: R)) ele (2 * P.length) (2 * P.length + 1) =
      some (if e.2 = ele then some (some (2 * P.length, e.1)) else none) := by
  rw [findBody, ziplistCompare_eq, zzlGetScore_eq hparse]
  by_cases he : e.2 = ele
  · rw [if_pos (decide_eq_true he), if_pos he]
    rfl
  · rw [if_neg (by simp [he]), if_neg he]
    rfl

omit [LinearOrder S] in
theorem zzlFind_prefix (A R : List (Entry S)) (hA : ∀ a ∈ A, a.2 ≠ ele) :
    ∃ fuel, zzlFind strtod (zzlList d2string (A ++ R)) ele =
      scan (zzlList d2string (A ++ R)) (findBody strtod (zzlList d2string (A ++ R)) ele) (some none)
        (fuel + 1) (cursor A R) := by
  refine scan_prefix d2string _ (some none) A R fun Q a T hQ => ?_
  have hsplit : A ++ R = Q ++ a :: (T ++ R) := by simp [hQ]
  rw [hsplit, findBody_eq hparse, if_neg (hA a (by simp [hQ]))]

omit [LinearOrder S] in
theorem zzlFind_none (hl : ∀ a ∈ l, a.2 ≠ ele) :
    zzlFind strtod (zzlList d2string l) ele = some none := by
  obtain ⟨fuel, hfind⟩ := zzlFind_prefix hparse l [] hl
  rw [append_nil] at hfind
  rw [hfind, scan_end]

omit [LinearOrder S] in
theorem zzlFind_some (A R : List (Entry S)) (e : Entry S) (hA : ∀ a ∈ A, a.2 ≠ e.2) :
    zzlFind strtod (zzlList d2string (A ++ e :: R)) e.2 = some (some (2 * A.length, e.1)) := by
  obtain ⟨fuel, hfind⟩ := zzlFind_prefix hparse A (e :: R) hA
  rw [hfind]
  refine scan_stop A R e fuel ?_
  rw [findBody_eq hparse, if_pos rfl]

omit [LinearOrder S] hparse in
theorem zzlInsertAt_none (l : List (Entry S)) (ele : Bytes) (score : S) :
    zzlInsertAt d2string (zzlList d2string l) none ele score =
      some (zzlList d2string (l ++ [(score, ele)])) := by
  rw [zzlInsertAt, ziplistPush_tail, ziplistPush_tail, zzlList_append, append_assoc]
  rfl

omit [LinearOrder S] hparse in
theorem zzlInsertAt_some (P R : List (Entry S)) (e : Entry S) (ele : Bytes) (score : S) :
    zzlInsertAt d2string (zzlList d2string (P ++ e :: R)) (some (2 * P.length)) ele score =
      some (zzlList d2string (P ++ (score, ele) :: e :: R)) := by
  have hele : ziplistInsert (zzlList d2string (P ++ e :: R)) (2 * P.length) ele =
      (zzlList d2string P ++ [ele]) ++ zzlList d2string (e :: R) := by
    rw [zzlList_append, ← @length_zzlList S d2string P, ziplistInsert_length,
      append_assoc, singleton_append]
  have hlen : (zzlList d2string P ++ [ele]).length = 2 * P.length + 1 := by
    rw [length_append, length_zzlList, length_singleton]
  have hnext : ziplistNext ((zzlList d2string P ++ [ele]) ++ zzlList d2string (e :: R))
      (2 * P.length) = some (zzlList d2string P ++ [ele]).length := by
    rw [ziplistNext, length_append, hlen, if_pos (by simp)]
  rw [zzlInsertAt]
  simp only [hele, hnext, bind_eq_bind, bind_some]
  rw [ziplistInsert_length, zzlList_append, append_assoc]
  rfl

omit [LinearOrder S] hparse in
theorem zzlCompareElements_eq (P R : List (Entry S)) (e : Entry S) (ele : Bytes) :
    zzlCompareElements (zzlList d2string (P ++ e :: R)) (2 * P.length) ele =
      some (compareStringObjects e.2 ele) := by
  rw [zzlCompareElements, ziplistGet_element]
  rfl

theorem insertBody_eq (P R : List (Entry S)) (e : Entry S) (ele : Bytes) (score : S) :
    insertBody strtod d2string (zzlList d2string (P ++ e :: R)) ele score (2 * P.length)
        (2 * P.length + 1) =
      some (if key (score, ele) < key e then
        some (zzlList d2string (P ++ (score, ele) :: e :: R)) else none) := by
  rw [insertBody, zzlGetScore_eq hparse, zzlCompareElements_eq, zzlInsertAt_some]
  simp only [key_lt_iff, map_some, bind_eq_bind, bind_some, compareStringObjects_gt]
  by_cases hlt : score < e.1
  · rw [if_pos hlt, if_pos (.inl hlt)]
  by_cases heq : e.1 = score
  · by_cases hstr : strKey ele < strKey e.2
    · rw [if_neg hlt, if_pos heq, if_pos hstr, if_pos (.inr ⟨heq.symm, hstr⟩)]
    · rw [if_neg hlt, if_pos heq, if_neg hstr, if_neg (by tauto)]
      rfl
  · rw [if_neg hlt, if_neg heq, if_neg fun h => h.elim hlt fun h => heq h.1.symm]
    rfl

theorem zzlInsert_eq (hl : Sorted l) {score : S} (hnew : (score, ele) ∉ l) :
    zzlInsert strtod d2string (zzlList d2string l) ele score =
      some (zzlList d2string (insertEntry (score, ele) l)) := by
  obtain ⟨htake, hdrop⟩ := hl.takeWhile_dropWhile (downward_lt (score, ele))
  obtain ⟨A, hA⟩ : ∃ A, A = l.filter fun a => decide (key a < key (score, ele)) := ⟨_, rfl⟩
  obtain ⟨R, hR⟩ : ∃ R, R = l.filter fun a => !decide (key a < key (score, ele)) := ⟨_, rfl⟩
  have hsplit : l = A ++ R := by rw [hA, hR, ← htake, ← hdrop, takeWhile_append_dropWhile]
  have hbefore : ∀ a ∈ A, ¬ key (score, ele) < key a := fun a ha => by
    rw [hA, mem_filter, decide_eq_true_iff] at ha
    exact ha.2.asymm
  have hafter : ∀ a ∈ R, key (score, ele) < key a := fun a ha => by
    rw [hR, mem_filter] at ha
    have hle : key (score, ele) ≤ key a := by simpa using ha.2
    exact lt_of_le_of_ne hle fun heq => hnew (key_injective heq ▸ ha.1)
  obtain ⟨fuel, hscan⟩ := scan_prefix d2string
    (insertBody strtod d2string (zzlList d2string (A ++ R)) ele score)
    (zzlInsertAt d2string (zzlList d2string (A ++ R)) none ele score) A R fun Q a T hQ => by
      have hsplit' : A ++ R = Q ++ a :: (T ++ R) := by simp [hQ]
      rw [hsplit', insertBody_eq hparse, if_neg (hbefore a (by simp [hQ]))]
  rw [zzlInsert, insertEntry, ← hA, ← hR, hsplit, hscan]
  cases R with
  | nil => rw [scan_end, append_nil, zzlInsertAt_none]
  | cons e R =>
    refine scan_stop A R e fuel ?_
    rw [insertBody_eq hparse, if_pos (hafter e mem_cons_self)]

/-! ## Deleting -/

omit [LinearOrder S] hparse in
theorem zzlDelete_eq (A R : List (Entry S)) (e : Entry S) :
    zzlDelete (zzlList d2string (A ++ e :: R)) (2 * A.length) = zzlList d2string (A ++ R) := by
  have h₁ := deleteAt_length (zzlList d2string A) [e.2] (d2string e.1 :: zzlList d2string R)
  have h₂ := deleteAt_length (zzlList d2string A) [d2string e.1] (zzlList d2string R)
  rw [length_zzlList] at h₁ h₂
  rw [zzlDelete, ziplistDelete, ziplistDelete, zzlList_append, zzlList_append, zzlList_cons]
  exact (congrArg (deleteAt · (2 * A.length) 1) h₁).trans h₂

theorem zzlDeleteLoop_eq {range : RangeSpec S} {A C : List (Entry S)}
    (hC : ∀ c ∈ C, zslValueLteMax c.1 range = false) :
    ∀ (B : List (Entry S)) (fuel num : ℕ), (∀ b ∈ B, zslValueLteMax b.1 range = true) →
      B.length < fuel →
      zzlDeleteLoop strtod range (2 * A.length) fuel (zzlList d2string (A ++ (B ++ C))) num =
        some (zzlList d2string (A ++ C), num + B.length)
  | B, 0, _, _, hfuel => absurd hfuel (Nat.not_lt_zero _)
  | [], fuel + 1, num, _, _ => by
    rw [zzlDeleteLoop, nil_append]
    cases C with
    | nil =>
      have hnext : ziplistNext (zzlList d2string (A ++ [])) (2 * A.length) = none := by
        rw [ziplistNext, length_zzlList, append_nil, if_neg (by omega)]
      rw [hnext]
      rfl
    | cons c C =>
      rw [ziplistNext_element]
      simp only [zzlGetScore_eq hparse, bind_eq_bind, bind_some,
        hC c mem_cons_self, Bool.false_eq_true, if_false]
      rfl
  | b :: B, fuel + 1, num, hB, hfuel => by
    have hdelete := @zzlDelete_eq S d2string A (B ++ C) b
    rw [zzlDelete] at hdelete
    rw [zzlDeleteLoop, cons_append, ziplistNext_element]
    simp only [zzlGetScore_eq hparse, bind_eq_bind, bind_some, hB b mem_cons_self, if_true, hdelete]
    rw [zzlDeleteLoop_eq hC B fuel (num + 1) (fun a ha => hB a (mem_cons_of_mem b ha))
      (Nat.lt_of_succ_lt_succ hfuel), length_cons, Nat.add_assoc, Nat.add_comm 1]

theorem zzlDeleteRangeByScore_eq (range : RangeSpec S) (hl : Sorted l) :
    zzlDeleteRangeByScore strtod (zzlList d2string l) range =
      some (zzlList d2string (deleteRange range l),
        (l.filter fun a => range.contains a.1).length) := by
  obtain ⟨A, B, C, h⟩ := hl.rangeSplit range
  have hlte : ∀ b ∈ B, zslValueLteMax b.1 range = true := fun b hb => by
    have := h.inside b hb
    rw [RangeSpec.contains, Bool.and_eq_true] at this
    exact this.2
  rw [zzlDeleteRangeByScore, zzlFirstInRange_eq hparse hl h, h.filter, h.deleteRange]
  cases B with
  | nil =>
    rw [h.eq]
    rfl
  | cons b B =>
    have hloop := zzlDeleteLoop_eq hparse (fun c hc => (h.above c hc).2) (A := A) (b :: B)
      ((zzlList d2string l).length + 1) 0 hlte (by
        rw [length_zzlList, h.eq, length_append, length_append]
        omega)
    rw [Nat.zero_add, ← h.eq] at hloop
    exact hloop

omit [LinearOrder S] hparse in
theorem take_zzlList (l : List (Entry S)) (n : ℕ) :
    (zzlList d2string l).take (2 * n) = zzlList d2string (l.take n) ∧
      (zzlList d2string l).drop (2 * n) = zzlList d2string (l.drop n) := by
  induction l generalizing n with
  | nil => simp [zzlList]
  | cons e l ih =>
    cases n with
    | zero => exact ⟨rfl, rfl⟩
    | succ n => exact ⟨by simp [Nat.mul_succ, (ih n).1], by simp [Nat.mul_succ, (ih n).2]⟩

omit [LinearOrder S] hparse in
theorem zzlDeleteRangeByRank_eq (l : List (Entry S)) {start stop : ℕ} (hpos : 0 < start)
    (hle : start ≤ stop) (hlen : stop ≤ l.length) :
    zzlDeleteRangeByRank (zzlList d2string l) start stop =
      (zzlList d2string (deleteRanks start stop l), stop - start + 1) := by
  have hindex : ziplistIndex (zzlList d2string l) (2 * (start - 1) : ℕ) =
      some (2 * (start - 1)) := by
    rw [ziplistIndex, if_neg (by omega), Int.toNat_natCast, length_zzlList, if_pos (by omega)]
  have hnum : 2 * (start - 1) + 2 * (stop - start + 1) = 2 * stop := by omega
  rw [zzlDeleteRangeByRank, ziplistDeleteRange, hindex]
  simp only [deleteAt, hnum, (take_zzlList l _).1, (take_zzlList l _).2]
  rw [← zzlList_append, deleteRanks, drop_drop, length_take]
  congr 4
  omega

end ServerStack.Redis.Zset
