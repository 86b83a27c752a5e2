import ServerStack.Redis.Intset.Spec

/-!
# Runs of integer sets

Every run of insertions and removals on an integer set does what the same run does on a finite set
of integers, if no insertion takes the bytes of the set to `2 ^ 32`.  From there on `intsetResize`
allocates less than the elements take.
-/

namespace ServerStack.Redis.Intset

open Util Endian Buffer Outcome List

def intsetValues (is : IntSet) : Except Fault (List ℤ) := (List.range is.length).mapM (intsetGet is)

variable {is : IntSet} {vs : List ℤ} {value : ℤ}

theorem Rep.values (h : Rep is vs) : intsetValues is = .ok vs := by
  have hget : ∀ i ∈ List.range is.length, intsetGet is i = .ok (vs.getD i 0) := by
    intro i hi
    have hi' : i < vs.length := by rwa [mem_range, h.length] at hi
    rw [h.get hi', getD_eq_getElem _ _ hi']
  rw [intsetValues, mapM_ok hget, h.length]
  congr 1
  refine ext_getElem (by simp) fun i hi hi' => ?_
  rw [getElem_map, getElem_range, getD_eq_getElem _ _ hi']

/-! ## Operations -/

theorem Rep.find (h : Rep is vs) (hv : IsLongLong value) :
    intsetFind is value = .ok (decide (value ∈ vs)) := by
  rw [intsetFind]
  split_ifs with henc
  · obtain ⟨found, pos, hsearch, hfound⟩ := intsetSearch_spec h value
    rw [hsearch, ← hfound.eq_mem]
    rfl
  · have hnot : value ∉ vs := fun hmem => henc ((fitsSigned_iff hv _).1 (h.fits value hmem))
    rw [decide_eq_false hnot]
    rfl

/-- The insertion finds the value, or the bytes of the longer set can be counted. -/
def AddFits (is : IntSet) (value : ℤ) : Prop :=
  intsetFind is value = .ok true ∨
    (is.length + 1) * max is.encoding.size (intsetValueEncoding value).size < 2 ^ 32

instance (is : IntSet) (value : ℤ) : Decidable (AddFits is value) :=
  inferInstanceAs (Decidable (_ ∨ _))

theorem Rep.add (h : Rep is vs) (hv : IsLongLong value) (hfits : AddFits is value)
    (junk : ℕ → UInt8) :
    ∃ is' vs', intsetAdd junk is value = .ok (is', decide (value ∉ vs)) ∧ Rep is' vs' ∧
      vs'.toFinset = insert value vs.toFinset := by
  rw [AddFits, h.find hv, Except.ok.injEq, decide_eq_true_eq] at hfits
  rw [intsetAdd]
  by_cases henc : (intsetValueEncoding value).size > is.encoding.size
  · have hnot : value ∉ vs := fun hmem =>
      henc.not_ge ((fitsSigned_iff hv _).1 (h.fits value hmem))
    have hsmall := hfits.resolve_left hnot
    rw [Nat.max_eq_right (Nat.le_of_lt henc)] at hsmall
    obtain ⟨is', hupgrade, -, hrep⟩ := h.upgrade hv henc hsmall junk
    refine ⟨is', _, by rw [if_pos henc, hupgrade, decide_eq_true hnot]; rfl, hrep, ?_⟩
    split_ifs
    · exact toFinset_cons
    · ext v
      simp
  · rw [not_lt] at henc
    obtain ⟨found, pos, hsearch, hfound⟩ := intsetSearch_spec h value
    have hmem := hfound.eq_mem
    rw [if_neg henc.not_gt, hsearch]
    cases found with
    | true =>
      have hin : value ∈ vs := of_decide_eq_true hmem.symm
      refine ⟨is, vs, by rw [decide_eq_false (not_not.2 hin)]; rfl, h, ?_⟩
      rw [Finset.insert_eq_of_mem (mem_toFinset.2 hin)]
    | false =>
      have hnot : value ∉ vs := of_decide_eq_false hmem.symm
      have hsmall := hfits.resolve_left hnot
      rw [Nat.max_eq_left henc] at hsmall
      have hsplit := take_append_drop pos vs
      obtain ⟨is', hinsert, -, hrep⟩ := @Rep.insertAt is _ _ (hsplit.symm ▸ h) value
        hfound.below (hfound.above rfl) ((fitsSigned_iff hv _).2 henc) hsmall junk
      rw [length_take, Nat.min_eq_left hfound.le] at hinsert
      refine ⟨is', _, ?_, hrep, ?_⟩
      · simp only [bind, Except.bind, Bool.false_eq_true, if_false, hinsert, decide_eq_true hnot]
        rfl
      · ext v
        have hmem : v ∈ vs ↔ v ∈ vs.take pos ∨ v ∈ vs.drop pos := by rw [← mem_append, hsplit]
        simp only [mem_toFinset, mem_append, mem_cons, Finset.mem_insert, hmem]
        tauto

theorem Rep.remove (h : Rep is vs) (hv : IsLongLong value) (junk : ℕ → UInt8) :
    ∃ is' vs', intsetRemove junk is value = .ok (is', decide (value ∈ vs)) ∧ Rep is' vs' ∧
      vs'.toFinset = vs.toFinset.erase value := by
  rw [intsetRemove]
  by_cases henc : (intsetValueEncoding value).size ≤ is.encoding.size
  · obtain ⟨found, pos, hsearch, hfound⟩ := intsetSearch_spec h value
    have hmem := hfound.eq_mem
    rw [if_pos henc, hsearch, ← hmem]
    cases found with
    | true =>
      obtain ⟨ws, hws⟩ := hfound.at_pos rfl
      have hsplit : vs = vs.take pos ++ value :: ws := by rw [← hws, take_append_drop]
      obtain ⟨is', hremove, hrep⟩ := @Rep.removeAt is _ _ value (hsplit ▸ h) junk
      rw [length_take, Nat.min_eq_left hfound.le] at hremove
      refine ⟨is', _, ?_, hrep, ?_⟩
      · simp only [bind, Except.bind, if_true, hremove]
        rfl
      · have hnodup : (vs.take pos ++ value :: ws).Nodup :=
          hsplit ▸ h.sorted.imp fun hlt => hlt.ne
        have hnot := (nodup_cons.1 (nodup_middle.1 hnodup)).1
        ext v
        have hmem : v ∈ vs ↔ v ∈ vs.take pos ∨ v = value ∨ v ∈ ws := by
          rw [← mem_cons, ← hws, ← mem_append, take_append_drop]
        rw [Finset.mem_erase, mem_toFinset, mem_toFinset, hmem]
        rw [mem_append] at hnot ⊢
        constructor
        · intro hv'
          exact ⟨fun heq => hnot (heq ▸ hv'), hv'.imp_right .inr⟩
        · rintro ⟨hne, hv' | rfl | hv'⟩
          · exact .inl hv'
          · exact absurd rfl hne
          · exact .inr hv'
    | false =>
      have hnot : value ∉ vs := of_decide_eq_false hmem.symm
      exact ⟨is, vs, rfl, h, (Finset.erase_eq_of_notMem (by rwa [mem_toFinset])).symm⟩
  · have hnot : value ∉ vs := fun hmem => henc ((fitsSigned_iff hv _).1 (h.fits value hmem))
    rw [if_neg henc, decide_eq_false hnot]
    exact ⟨is, vs, rfl, h, (Finset.erase_eq_of_notMem (by rwa [mem_toFinset])).symm⟩

/-! ## Runs -/

/-- An `int64_t`. -/
abbrev LongLong := { v : ℤ // IsLongLong v }

/-- An operation, with what the allocator leaves in new bytes. -/
inductive Op where
  | add (value : LongLong) (junk : ℕ → UInt8)
  | remove (value : LongLong) (junk : ℕ → UInt8)

/-- Perform an operation and note `*success`. -/
def step (s : IntSet × List Bool) : Op → Except Fault (IntSet × List Bool)
  | .add value junk => do
    let (is, success) ← intsetAdd junk s.1 value
    return (is, s.2 ++ [success])
  | .remove value junk => do
    let (is, success) ← intsetRemove junk s.1 value
    return (is, s.2 ++ [success])

def setStep (s : Finset ℤ × List Bool) : Op → Finset ℤ × List Bool
  | .add value _ => (insert value.1 s.1, s.2 ++ [decide (value.1 ∉ s.1)])
  | .remove value _ => (s.1.erase value, s.2 ++ [decide (value.1 ∈ s.1)])

def StepFits (s : IntSet × List Bool) : Op → Prop
  | .add value _ => AddFits s.1 value
  | .remove _ _ => True

instance (s : IntSet × List Bool) : ∀ op, Decidable (StepFits s op)
  | .add value _ => inferInstanceAs (Decidable (AddFits s.1 value))
  | .remove _ _ => inferInstanceAs (Decidable True)

structure Refines (is : IntSet) (set : Finset ℤ) : Prop where
  values : ∃ vs, intsetValues is = .ok vs ∧ vs.Pairwise (· < ·) ∧ vs.toFinset = set
  fits : ∀ v ∈ set, FitsSigned is.encoding.size v
  size : is.contents.length = is.length * is.encoding.size
  find : ∀ v, IsLongLong v → intsetFind is v = .ok (decide (v ∈ set))

theorem Rep.refines (h : Rep is vs) : Refines is vs.toFinset where
  values := ⟨vs, h.values, h.sorted, rfl⟩
  fits v hv := h.fits v (mem_toFinset.1 hv)
  size := by rw [h.contents, length_cells, h.length]
  find v hv := by simp only [h.find hv, mem_toFinset]

def Simulates (s : IntSet × List Bool) (t : Finset ℤ × List Bool) : Prop :=
  s.2 = t.2 ∧ ∃ vs, Rep s.1 vs ∧ vs.toFinset = t.1

theorem Simulates.step {s : IntSet × List Bool} {t : Finset ℤ × List Bool} {op : Op}
    (h : Simulates s t) (hfits : StepFits s op) :
    Meets (step s op) (fun s' => Simulates s' (setStep t op)) fun _ => False := by
  obtain ⟨hresults, vs, hrep, hset⟩ := h
  cases op with
  | add value junk =>
    obtain ⟨is', vs', hadd, hrep', hset'⟩ := hrep.add value.2 hfits junk
    rw [Intset.step, hadd]
    refine ⟨?_, vs', hrep', by rw [hset', hset]; rfl⟩
    simp only [setStep, hresults, ← hset, mem_toFinset]
  | remove value junk =>
    obtain ⟨is', vs', hremove, hrep', hset'⟩ := hrep.remove value.2 junk
    rw [Intset.step, hremove]
    refine ⟨?_, vs', hrep', by rw [hset', hset]; rfl⟩
    simp only [setStep, hresults, ← hset, mem_toFinset]

theorem simulates_run {ops : List Op} (h : AllSteps step StepFits (intsetNew, []) ops) :
    Meets (ops.foldlM step (intsetNew, []))
      (fun s => Simulates s (ops.foldl setStep (∅, []))) fun _ => False :=
  @Meets.simulate _ _ _ step StepFits _ _ setStep Simulates
    (fun _ _ _ hsim hfits => hsim.step hfits) ops _ _ ⟨rfl, [], rep_intsetNew, rfl⟩ h

/-- In every run whose insertions all fit, no access is out of bounds, the results say whether the
set changed, and the bytes are the finite set.  Widening in place keeps all values. -/
theorem intset_refines (ops : List Op) : (AllSteps step StepFits (intsetNew, []) ops →
      ∃ is, ops.foldlM step (intsetNew, []) = .ok (is, (ops.foldl setStep (∅, [])).2) ∧
        Refines is (ops.foldl setStep (∅, [])).1) ∧
    (∀ is vs value junk, Rep is vs → IsLongLong value →
      is.encoding.size < (intsetValueEncoding value).size →
      (is.length + 1) * (intsetValueEncoding value).size < 2 ^ 32 →
      ∃ is', intsetUpgradeAndAdd junk is value = .ok is' ∧
        is'.encoding = intsetValueEncoding value ∧
        intsetValues is' = .ok (if value < 0 then value :: vs else vs ++ [value])) := by
  constructor
  · intro h
    obtain ⟨⟨is, results⟩, hrun, hresults, vs, hrep, hset⟩ := meets_false_iff.1 (simulates_run h)
    exact ⟨is, by rw [hrun, ← hresults], hset ▸ hrep.refines⟩
  · intro is vs value junk h hv hwiden hsmall
    obtain ⟨is', hupgrade, henc, hrep⟩ := h.upgrade hv hwiden hsmall junk
    exact ⟨is', hupgrade, henc, hrep.values⟩

/-- Insertions that widen the set twice, on both sides, and a removal. -/
def widenings : List Op :=
  [.add ⟨5, by decide⟩ fun _ => 170, .add ⟨-40000, by decide⟩ fun _ => 171,
    .add ⟨7, by decide⟩ fun _ => 172, .add ⟨2 ^ 40, by decide⟩ fun _ => 173,
    .remove ⟨5, by decide⟩ fun _ => 174]

theorem intset_refines_widenings : AllSteps step StepFits (intsetNew, []) widenings ∧
    ∃ is, widenings.foldlM step (intsetNew, []) = .ok (is, (widenings.foldl setStep (∅, [])).2) ∧
      Refines is (widenings.foldl setStep (∅, [])).1 := by
  have hfits : AllSteps step StepFits (intsetNew, []) widenings := by decide +kernel
  exact ⟨hfits, (intset_refines widenings).1 hfits⟩

/-! ## A set that outgrows its buffer -/

/-- The integers `2 ^ 40`, `2 ^ 40 + 1` and so on. -/
def wide (i : ℕ) : LongLong := ⟨2 ^ 40 + (i % 2 ^ 30 : ℕ), by constructor <;> omega⟩

/-- Add `n` of them, from the `k`-th on. -/
def addsFrom (k n : ℕ) : List Op := (List.range' k n).map fun i => .add (wide i) fun _ => 0

/-- The first `k` of them. -/
def wideSet (k : ℕ) : Finset ℤ := (Finset.range k).image fun i : ℕ => 2 ^ 40 + (i : ℤ)

theorem wide_eq {i : ℕ} (h : i < 2 ^ 30) : (wide i).1 = 2 ^ 40 + (i : ℤ) := by
  change 2 ^ 40 + ((i % 2 ^ 30 : ℕ) : ℤ) = _
  rw [Nat.mod_eq_of_lt h]

theorem Simulates.length {s : IntSet × List Bool} {k : ℕ} {results : List Bool}
    (h : Simulates s (wideSet k, results)) : s.1.length = k := by
  obtain ⟨-, vs, hrep, hset⟩ := h
  have hinj : Function.Injective fun i : ℕ => (2 ^ 40 + (i : ℤ)) := fun i j hij => by
    simpa using hij
  rw [hrep.length, ← toFinset_card_of_nodup (hrep.sorted.imp fun hlt => hlt.ne), hset,
    wideSet, Finset.card_image_of_injective _ hinj, Finset.card_range]

theorem Simulates.add_wide {s : IntSet × List Bool} {k : ℕ} {results : List Bool}
    (h : Simulates s (wideSet k, results)) (hk : k + 1 < 2 ^ 29) :
    StepFits s (.add (wide k) fun _ => 0) ∧ Meets (Intset.step s (.add (wide k) fun _ => 0))
        (fun s' => ∃ results', Simulates s' (wideSet (k + 1), results')) fun _ => False := by
  have hfits : StepFits s (.add (wide k) fun _ => 0) := by
    right
    have hsize : max s.1.encoding.size (intsetValueEncoding (wide k).1).size ≤ 8 :=
      max_le (by cases s.1.encoding <;> decide) (by cases intsetValueEncoding (wide k).1 <;> decide)
    calc (s.1.length + 1) * max s.1.encoding.size (intsetValueEncoding (wide k).1).size
        ≤ (k + 1) * 8 := Nat.mul_le_mul (by rw [h.length]) hsize
      _ < 2 ^ 32 := by omega
  have hset : insert (wide k).1 (wideSet k) = wideSet (k + 1) := by
    rw [wideSet, wideSet, Finset.range_add_one, Finset.image_insert, wide_eq (by omega)]
  refine ⟨hfits, (h.step hfits).mono (fun s' hs' => ?_) fun _ => id⟩
  rw [setStep, hset] at hs'
  exact ⟨_, hs'⟩

theorem run_addsFrom {n k : ℕ} {s : IntSet × List Bool} {results : List Bool}
    (h : Simulates s (wideSet k, results)) (hn : k + n < 2 ^ 29) :
    ∃ s' results', (addsFrom k n).foldlM step s = .ok s' ∧
      Simulates s' (wideSet (k + n), results') := by
  induction n generalizing k s results with
  | zero => exact ⟨s, results, rfl, h⟩
  | succ n ih =>
    obtain ⟨s', hstep, results', hs'⟩ :=
      meets_false_iff.1 (h.add_wide (by omega)).2
    obtain ⟨s'', results'', hrun, hs''⟩ := ih hs' (by omega)
    refine ⟨s'', results'', ?_, by rwa [Nat.add_right_comm] at hs''⟩
    rw [addsFrom, List.range'_succ, map_cons, foldlM_cons, hstep]
    exact hrun

theorem intsetAdd_overflow (h : Rep is vs) (hv : IsLongLong value)
    (hfits : FitsSigned is.encoding.size value) (habove : ∀ v ∈ vs, v < value)
    (hsize : (is.length + 1) * is.encoding.size = 2 ^ 32) (junk : ℕ → UInt8) :
    intsetAdd junk is value = .error .outOfBounds := by
  obtain ⟨found, pos, hsearch, hfound⟩ := intsetSearch_spec h value
  have hnot : value ∉ vs := fun hmem => lt_irrefl _ (habove value hmem)
  have hfalse : found = false := by rw [hfound.eq_mem, decide_eq_false hnot]
  have hpos : pos = is.length := by
    have hnil : vs.drop pos = [] := eq_nil_iff_forall_not_mem.2 fun v hv =>
      lt_asymm (hfound.above hfalse v hv) (habove v (mem_of_mem_drop hv))
    rw [h.length]
    exact le_antisymm hfound.le (drop_eq_nil_iff.1 hnil)
  have hresize : intsetResize junk is (is.length + 1) = { is with contents := [] } := by
    have hempty : resize junk is.contents 0 = [] := @resize_append [] is.contents 0 junk rfl
    rw [intsetResize, hsize, Nat.mod_self, hempty]
  have hset : intsetSet { is with contents := [] } is.length value = .error .outOfBounds := by
    rw [intsetSet, write_error (by simpa using .inr (size_pos is.encoding))]
    rfl
  have henc := ((fitsSigned_iff hv _).1 hfits).not_gt
  rw [intsetAdd, if_neg henc, hsearch, hfalse, hpos]
  simp only [bind, Except.bind, Bool.false_eq_true, if_false, insertAt, hresize,
    if_neg (lt_irrefl is.length), hset]

theorem fitsSigned_wide {enc : Encoding} {i : ℕ} (h : FitsSigned enc.size (2 ^ 40 + (i : ℤ))) :
    enc = .int64 := by
  obtain ⟨-, hhigh⟩ := h
  cases enc with
  | int64 => rfl
  | int16 | int32 =>
    rw [Encoding.size] at hhigh
    omega

theorem run_addsFrom_overflow {n : ℕ} (hn : n + 1 = 2 ^ 29) :
    (addsFrom 0 (n + 1)).foldlM step (intsetNew, []) = .error .outOfBounds := by
  have hinit : Simulates (intsetNew, []) (wideSet 0, []) := ⟨rfl, [], rep_intsetNew, rfl⟩
  obtain ⟨s, results, hrun, hs⟩ := @run_addsFrom n 0 _ _ hinit (by omega)
  rw [Nat.zero_add] at hs
  have hlen := hs.length
  obtain ⟨-, vs, hrep, hset⟩ := hs
  have hmem : ∀ v, v ∈ vs ↔ ∃ i < n, 2 ^ 40 + (i : ℤ) = v := by
    intro v
    rw [← mem_toFinset, hset, wideSet]
    simp only [Finset.mem_image, Finset.mem_range]
  have henc : s.1.encoding = .int64 := @fitsSigned_wide _ 0
    (hrep.fits _ ((hmem _).2 ⟨0, by omega, rfl⟩))
  have hadd := intsetAdd_overflow hrep (wide n).2
    (by rw [henc, wide_eq (by omega), FitsSigned, Encoding.size]; omega)
    (by
      intro v hv
      obtain ⟨i, hi, rfl⟩ := (hmem v).1 hv
      rw [wide_eq (by omega)]
      omega)
    (by rw [hlen, hn, henc, Encoding.size]; norm_num) fun _ => 0
  rw [addsFrom, List.range'_1_concat, map_append, foldlM_append, ← addsFrom, hrun, Nat.zero_add]
  simp only [map_cons, map_nil, foldlM_cons, bind, Except.bind, step, hadd]

/-- After `2 ^ 29 - 1` insertions of integers of 8 bytes the next one writes out of bounds. -/
theorem intset_outgrows_buffer :
    (addsFrom 0 (2 ^ 29)).foldlM step (intsetNew, []) = .error .outOfBounds := by
  have hn : 536870911 + 1 = 2 ^ 29 := by norm_num
  have h := run_addsFrom_overflow hn
  rwa [hn] at h

end ServerStack.Redis.Intset
