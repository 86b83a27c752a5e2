import ServerStack.Lib.Outcome
import ServerStack.Redis.Intset.Model

/-!
# Integer sets refine finite sets

A set of bytes represents a list of integers in ascending order that fit its encoding.  Searching,
widening, inserting and removing do on the bytes what they are meant to do on the list, as long as
the bytes of the set can be counted by a `uint32_t`.
-/

namespace ServerStack.Redis.Intset

open Util Endian Buffer Outcome List Nat

/-! ## Representation -/

structure Rep (is : IntSet) (vs : List ℤ) : Prop where
  length : is.length = vs.length
  contents : is.contents = cells is.encoding.size vs
  sorted : vs.Pairwise (· < ·)
  fits : ∀ v ∈ vs, FitsSigned is.encoding.size v
  small : vs.length * is.encoding.size < 2 ^ 32

theorem rep_intsetNew : Rep intsetNew [] :=
  ⟨rfl, rfl, List.Pairwise.nil, fun _ h => absurd h not_mem_nil, by decide⟩

theorem size_pos (enc : Encoding) : 0 < enc.size := by cases enc <;> decide

variable {v value : ℤ} {is : IntSet} {vs : List ℤ}

theorem fitsSigned_iff (hv : IsLongLong v) (enc : Encoding) :
    FitsSigned enc.size v ↔ (intsetValueEncoding v).size ≤ enc.size := by
  obtain ⟨hmin, hmax⟩ := hv
  rw [FitsSigned, intsetValueEncoding]
  split_ifs <;> cases enc <;> simp only [Encoding.size] <;> omega

theorem fitsSigned_valueEncoding (hv : IsLongLong v) : FitsSigned (intsetValueEncoding v).size v :=
  (fitsSigned_iff hv _).2 le_rfl

variable {is : IntSet}

theorem intsetGetEncoded_eq {enc : Encoding} {us : List ℤ} {v : ℤ} {rest : Bytes}
    (h : is.contents = cells enc.size us ++ littleEndianInt enc.size v ++ rest)
    (hv : FitsSigned enc.size v) : intsetGetEncoded is us.length enc = .ok v := by
  rw [intsetGetEncoded, read_eq h (length_cells _ _) (length_littleEndianInt _ _)]
  exact congrArg _ (ofLittleEndianInt_littleEndianInt hv)

theorem Rep.get_append {us ws : List ℤ} (h : Rep is (us ++ v :: ws)) :
    intsetGet is us.length = .ok v := by
  have hcontents : is.contents = cells is.encoding.size us ++ littleEndianInt is.encoding.size v ++
      cells is.encoding.size ws := by
    rw [h.contents, cells_append, cells_cons, append_assoc]
  exact intsetGetEncoded_eq hcontents (h.fits v (by simp))

theorem Rep.get {i : ℕ} (h : Rep is vs) (hi : i < vs.length) : intsetGet is i = .ok vs[i] := by
  have hsplit : vs = vs.take i ++ vs[i] :: vs.drop (i + 1) := by
    rw [← drop_eq_getElem_cons hi, take_append_drop]
  have hget := (hsplit ▸ h : Rep is (vs.take i ++ vs[i] :: vs.drop (i + 1))).get_append
  rwa [length_take, min_eq_left hi.le] at hget

/-! ## Search -/

/-- The value is between the two parts of the list, or the first of the second part. -/
structure Found (vs : List ℤ) (value : ℤ) (found : Bool) (pos : ℕ) : Prop where
  le : pos ≤ vs.length
  below : ∀ v ∈ vs.take pos, v < value
  at_pos : found = true → ∃ ws, vs.drop pos = value :: ws
  above : found = false → ∀ v ∈ vs.drop pos, value < v

/-- What the loop of `intsetSearch` knows: the value is not outside of the bounds. -/
structure Bounds (vs : List ℤ) (value min max : ℤ) : Prop where
  min_nonneg : 0 ≤ min
  max_lt : max < vs.length
  min_le : min ≤ max + 1
  below : ∀ i (hi : i < vs.length), (i : ℤ) < min → vs[i] < value
  above : ∀ i (hi : i < vs.length), max < (i : ℤ) → value < vs[i]

theorem getElem_lt (h : vs.Pairwise (· < ·)) {i j : ℕ} (hi : i < vs.length) (hj : j < vs.length)
    (hij : i < j) : vs[i] < vs[j] :=
  pairwise_iff_getElem.1 h i j hi hj hij

/-- By induction on the fuel, which is at least the number of elements between the bounds. -/
theorem searchLoop_spec {vs : List ℤ} (h : Rep is vs) {value : ℤ} (fuel : ℕ)
    {min max mid cur : ℤ} (hb : Bounds vs value min max) (hfuel : max - min < fuel)
    (hcur : max < min → cur ≠ value) :
    ∃ min' mid' cur', searchLoop is value fuel min max mid cur = .ok (min', mid', cur') ∧
      ((cur' = value ∧ ∃ hm : mid'.toNat < vs.length, vs[mid'.toNat] = value) ∨
        cur' ≠ value ∧ Bounds vs value min' (min' - 1)) := by
  induction fuel generalizing min max mid cur with
  | zero =>
    have hmax : max = min - 1 := by have := hb.min_le; omega
    exact ⟨min, mid, cur, rfl, .inr ⟨hcur (by omega), hmax ▸ hb⟩⟩
  | succ fuel ih =>
    rw [searchLoop]
    by_cases hexit : max ≥ min
    swap
    · have hmax : max = min - 1 := by have := hb.min_le; omega
      rw [if_neg hexit]
      exact ⟨min, mid, cur, rfl, .inr ⟨hcur (by omega), hmax ▸ hb⟩⟩
    obtain ⟨m, hm⟩ : ∃ m : ℕ, ((min + max) / 2) = (m : ℤ) :=
      ⟨((min + max) / 2).toNat, by have := hb.min_nonneg; omega⟩
    have hlen : m < vs.length := by have := hb.max_lt; omega
    simp only [hm, Int.toNat_natCast, h.get hlen, bind, Except.bind]
    split_ifs with hgt hlt
    · refine ih ⟨by omega, hb.max_lt, by omega, fun i hi him => ?_, hb.above⟩ (by omega)
        fun _ => hgt.ne
      rcases lt_or_ge i m with him' | him'
      · exact (getElem_lt h.sorted hi hlen him').trans hgt
      · obtain rfl : i = m := by omega
        exact hgt
    · refine ih ⟨hb.min_nonneg, by omega, by omega, hb.below, fun i hi him => ?_⟩ (by omega)
        fun _ => hlt.ne'
      rcases lt_or_ge m i with him' | him'
      · exact hlt.trans (getElem_lt h.sorted hlen hi him')
      · obtain rfl : i = m := by omega
        exact hlt
    · have heq : vs[m] = value := le_antisymm (not_lt.1 hlt) (not_lt.1 hgt)
      exact ⟨min, m, vs[m], rfl, .inl ⟨heq, hlen, heq⟩⟩

theorem Bounds.found {min : ℤ} (hb : Bounds vs value min (min - 1)) :
    Found vs value false min.toNat where
  le := by
    have := hb.max_lt
    omega
  below v hv := by
    obtain ⟨i, hi, rfl⟩ := mem_take_iff_getElem.1 hv
    exact hb.below i (by omega) (by omega)
  at_pos h := by cases h
  above _ v hv := by
    obtain ⟨i, hi, rfl⟩ := mem_drop_iff_getElem.1 hv
    exact hb.above _ _ (by have := hb.min_nonneg; omega)

theorem found_of_getElem (h : vs.Pairwise (· < ·)) {pos : ℕ} (hpos : pos < vs.length)
    (hvalue : vs[pos] = value) : Found vs value true pos where
  le := hpos.le
  below v hv := by
    obtain ⟨i, hi, rfl⟩ := mem_take_iff_getElem.1 hv
    exact hvalue ▸ getElem_lt h (by omega) hpos (by omega)
  at_pos _ := ⟨vs.drop (pos + 1), hvalue ▸ drop_eq_getElem_cons hpos⟩
  above h := by cases h

theorem intsetSearch_spec (h : Rep is vs) (value : ℤ) :
    ∃ found pos, intsetSearch is value = .ok (found, pos) ∧ Found vs value found pos := by
  rw [intsetSearch, h.length]
  by_cases hempty : vs.length = 0
  · obtain rfl := length_eq_zero_iff.1 hempty
    exact ⟨false, 0, if_pos rfl, ⟨le_rfl, by simp, by simp, by simp⟩⟩
  have hlast : vs.length - 1 < vs.length := by omega
  rw [h.get hlast]
  simp only [bind, Except.bind]
  split_ifs with habove
  · refine ⟨false, vs.length, rfl, ⟨le_rfl, fun v hv => ?_, by simp, by simp⟩⟩
    obtain ⟨i, hi, rfl⟩ := mem_take_iff_getElem.1 hv
    rcases lt_or_ge i (vs.length - 1) with hlt | hge
    · exact (getElem_lt h.sorted (by omega) hlast hlt).trans habove
    · obtain rfl : i = vs.length - 1 := by omega
      exact habove
  rw [h.get (show 0 < vs.length by omega)]
  simp only
  split_ifs with hbelow
  · refine ⟨false, 0, rfl, ⟨zero_le _, by simp, by simp, fun _ v hv => ?_⟩⟩
    obtain ⟨i, hi, rfl⟩ := getElem_of_mem (mem_of_mem_drop hv)
    rcases Nat.eq_zero_or_pos i with rfl | hpos
    · exact hbelow
    · exact hbelow.trans (getElem_lt h.sorted (by omega) hi hpos)
  have hb : Bounds vs value 0 ((vs.length : ℤ) - 1) :=
    ⟨le_rfl, by omega, by omega, fun i _ hi => by omega, fun i hi hi' => by omega⟩
  obtain ⟨min, mid, cur, hloop, hresult⟩ :=
    @searchLoop_spec is vs h value vs.length _ _ (-1) (-1) hb (by omega) (by omega)
  rw [hloop]
  rcases hresult with ⟨hcur, hmid, hvalue⟩ | ⟨hcur, hbounds⟩
  · exact ⟨true, mid.toNat, if_pos hcur.symm, found_of_getElem h.sorted hmid hvalue⟩
  · exact ⟨false, min.toNat, if_neg (Ne.symm hcur), hbounds.found⟩

theorem Found.eq_mem {found : Bool} {pos : ℕ} (h : Found vs value found pos) :
    found = decide (value ∈ vs) := by
  rw [← take_append_drop pos vs]
  cases found with
  | true =>
    obtain ⟨ws, hws⟩ := h.at_pos rfl
    simp [hws]
  | false =>
    rw [eq_comm, decide_eq_false_iff_not, mem_append]
    rintro (hmem | hmem)
    · exact lt_irrefl _ (h.below value hmem)
    · exact lt_irrefl _ (h.above rfl value hmem)

/-! ## Insertion and removal -/

theorem intsetSet_eq {pos : ℕ} {a b c : Bytes} (h : is.contents = a ++ b ++ c)
    (ha : a.length = pos * is.encoding.size) (hb : b.length = is.encoding.size) (value : ℤ) :
    intsetSet is pos value =
      .ok { is with contents := a ++ littleEndianInt is.encoding.size value ++ c } := by
  rw [intsetSet, write_eq h ha (by rw [hb, length_littleEndianInt])]
  rfl

theorem intsetMoveTail_eq {src dst : ℕ} {a b c a' b' c' : Bytes}
    (hsrc : is.contents = a ++ b ++ c) (hdst : is.contents = a' ++ b' ++ c')
    (ha : a.length = src * is.encoding.size) (ha' : a'.length = dst * is.encoding.size)
    (hb : b.length = (is.length - src) * is.encoding.size) (hb' : b'.length = b.length)
    (hsmall : b.length < 2 ^ 32) :
    intsetMoveTail is src dst = .ok { is with contents := a' ++ b ++ c' } := by
  rw [intsetMoveTail, ← hb, mod_eq_of_lt hsmall, memmove_eq hsrc hdst ha ha' rfl hb']
  rfl

theorem intsetResize_grow (h : is.contents.length = is.length * is.encoding.size)
    (hsmall : (is.length + 1) * is.encoding.size < 2 ^ 32) (junk : ℕ → UInt8) :
    ∃ tail, tail.length = is.encoding.size ∧
      intsetResize junk is (is.length + 1) = { is with contents := is.contents ++ tail } := by
  have hgrow : (is.length + 1) * is.encoding.size = is.contents.length + is.encoding.size := by
    rw [h, succ_mul]
  obtain ⟨tail, htail, hresize⟩ :=
    @resize_of_le is.contents ((is.length + 1) * is.encoding.size) junk (by omega)
  exact ⟨tail, by omega, by rw [intsetResize, mod_eq_of_lt hsmall, hresize]⟩

theorem Rep.inserted {us ws : List ℤ} (h : Rep is (us ++ ws)) {value : ℤ}
    (hus : ∀ u ∈ us, u < value) (hws : ∀ w ∈ ws, value < w)
    (hfits : FitsSigned is.encoding.size value)
    (hsmall : (is.length + 1) * is.encoding.size < 2 ^ 32) :
    Rep ⟨is.encoding, is.length + 1, cells is.encoding.size (us ++ value :: ws)⟩
      (us ++ value :: ws) where
  length := by rw [h.length, length_append, length_append, length_cons, add_assoc]
  contents := rfl
  sorted := by
    obtain ⟨hu, hw, huw⟩ := pairwise_append.1 h.sorted
    refine pairwise_append.2 ⟨hu, pairwise_cons.2 ⟨hws, hw⟩, fun u hmem v hv => ?_⟩
    rcases mem_cons.1 hv with rfl | hv
    · exact hus u hmem
    · exact huw u hmem v hv
  fits v hv := by
    rcases mem_append.1 hv with hv | hv
    · exact h.fits v (mem_append_left _ hv)
    · rcases mem_cons.1 hv with rfl | hv
      · exact hfits
      · exact h.fits v (mem_append_right _ hv)
  small := by
    have hlen := h.length
    rw [length_append] at hlen
    rwa [length_append, length_cons, ← add_assoc, ← hlen]

theorem Rep.insertAt {us ws : List ℤ} (h : Rep is (us ++ ws)) {value : ℤ}
    (hus : ∀ u ∈ us, u < value) (hws : ∀ w ∈ ws, value < w)
    (hfits : FitsSigned is.encoding.size value)
    (hsmall : (is.length + 1) * is.encoding.size < 2 ^ 32) (junk : ℕ → UInt8) :
    ∃ is', insertAt junk is us.length value = .ok is' ∧ is'.encoding = is.encoding ∧
      Rep is' (us ++ value :: ws) := by
  refine ⟨⟨is.encoding, is.length + 1, cells is.encoding.size (us ++ value :: ws)⟩, ?_, rfl,
    h.inserted hus hws hfits hsmall⟩
  have hlen : is.length = us.length + ws.length := by rw [h.length, length_append]
  have hcontents : is.contents = cells is.encoding.size us ++ cells is.encoding.size ws := by
    rw [h.contents, cells_append]
  obtain ⟨tail, htail, hresize⟩ :=
    intsetResize_grow (by rw [h.contents, length_cells, h.length]) hsmall junk
  rw [Intset.insertAt, hresize, cells_append, cells_cons, ← append_assoc]
  by_cases hpos : us.length < is.length
  · -- the tail moves up by one element and leaves the bytes `x` free
    obtain ⟨x, y, hxy, hy⟩ := @exists_append_of_le
      (cells is.encoding.size ws ++ tail) (cells is.encoding.size ws).length (by simp)
    have hx : x.length = is.encoding.size := by
      have := congrArg List.length hxy
      simp only [length_append] at this
      omega
    have hmove := @intsetMoveTail_eq { is with contents := is.contents ++ tail } us.length
      (us.length + 1) (cells is.encoding.size us) (cells is.encoding.size ws) tail
      (cells is.encoding.size us ++ x) y [] (by rw [hcontents])
      (by rw [hcontents, append_assoc, hxy, append_nil, append_assoc])
      (length_cells _ _) (by rw [length_append, length_cells, hx, succ_mul])
      (by rw [length_cells, hlen, Nat.add_sub_cancel_left]) hy
      (by rw [length_cells]; have := h.small; rw [length_append, add_mul] at this; omega)
    have hset := @intsetSet_eq
      { is with contents := cells is.encoding.size us ++ x ++ cells is.encoding.size ws ++ [] }
      us.length (cells is.encoding.size us) x (cells is.encoding.size ws)
      (by rw [append_nil]) (length_cells _ _) hx value
    rw [if_pos hpos, hmove]
    simp only [bind, Except.bind, hset]
    rfl
  · have hnil : ws = [] := length_eq_zero_iff.1 (by omega)
    have hset := @intsetSet_eq { is with contents := is.contents ++ tail } us.length
      (cells is.encoding.size us) tail [] (by rw [hcontents, hnil]; simp)
      (length_cells _ _) htail value
    rw [if_neg hpos]
    simp only [bind, Except.bind, hset, hnil, cells_nil]
    rfl

theorem Rep.removeAt {us ws : List ℤ} {value : ℤ} (h : Rep is (us ++ value :: ws))
    (junk : ℕ → UInt8) : ∃ is', removeAt junk is us.length = .ok is' ∧ Rep is' (us ++ ws) := by
  have hlen : is.length = us.length + (ws.length + 1) := by
    rw [h.length, length_append, length_cons]
  have hcontents : is.contents = cells is.encoding.size us ++
      (littleEndianInt is.encoding.size value ++ cells is.encoding.size ws) := by
    rw [h.contents, cells_append, cells_cons]
  have hbytes : (us.length + ws.length) * is.encoding.size < 2 ^ 32 := by
    have := h.small
    rw [length_append, length_cons, ← add_assoc, succ_mul] at this
    omega
  have hcells : (cells is.encoding.size us ++ cells is.encoding.size ws).length =
      (is.length - 1) * is.encoding.size % 2 ^ 32 := by
    rw [length_append, length_cells, length_cells, hlen, ← Nat.add_assoc, Nat.add_sub_cancel,
      mod_eq_of_lt hbytes, add_mul]
  have hrep : Rep ⟨is.encoding, is.length - 1, cells is.encoding.size (us ++ ws)⟩ (us ++ ws) := by
    have hsub := (List.Sublist.refl us).append (sublist_cons_self value ws)
    refine ⟨?_, rfl, h.sorted.sublist hsub, fun v hv => h.fits v (hsub.subset hv), ?_⟩
    · change is.length - 1 = _
      rw [length_append]
      omega
    · rwa [length_append]
  refine ⟨_, ?_, hrep⟩
  rw [Intset.removeAt]
  by_cases hpos : us.length < is.length - 1
  · -- the tail moves down by one element and leaves the bytes `y` at the end
    obtain ⟨x, y, hxy, hy⟩ := @exists_append_of_le
      (littleEndianInt is.encoding.size value ++ cells is.encoding.size ws) is.encoding.size
      (by simp)
    have hx : x.length = (cells is.encoding.size ws).length := by
      have := congrArg List.length hxy
      simp only [length_append, length_littleEndianInt] at this
      omega
    have hmove := @intsetMoveTail_eq is (us.length + 1) us.length
      (cells is.encoding.size us ++ littleEndianInt is.encoding.size value)
      (cells is.encoding.size ws) [] (cells is.encoding.size us) x y
      (by rw [hcontents, append_nil, append_assoc])
      (by rw [hcontents, hxy, append_assoc])
      (by rw [length_append, length_cells, length_littleEndianInt, succ_mul])
      (length_cells _ _) (by rw [length_cells]; congr 1; omega) hx
      (by rw [length_cells]; rw [add_mul] at hbytes; omega)
    rw [if_pos hpos, hmove]
    simp only [bind, Except.bind, pure, Except.pure, intsetResize, resize_append hcells,
      cells_append]
  · have hnil : ws = [] := length_eq_zero_iff.1 (by omega)
    subst hnil
    rw [cells_nil, append_nil] at hcells hcontents
    rw [if_neg hpos]
    simp only [bind, Except.bind, pure, Except.pure, intsetResize, hcontents,
      resize_append hcells, append_nil]

/-! ## Widening -/

/-- The loop that widens the array in place.  Below `k` the elements still have the old width, from
`k` on they are in their new places; the bytes between are free.  The induction is on `k`. -/
theorem upgradeLoop_eq {curenc newenc : Encoding} (hwiden : curenc.size ≤ newenc.size)
    {prepend : ℕ} (k : ℕ) {us ws : List ℤ} (hk : us.length = k)
    (hfits : ∀ u ∈ us, FitsSigned curenc.size u) {gap tail : Bytes}
    (hgap : (cells curenc.size us ++ gap).length = (k + prepend) * newenc.size) (len : ℕ) :
    ∃ gap', gap'.length = prepend * newenc.size ∧ upgradeLoop curenc prepend k
        ⟨newenc, len, cells curenc.size us ++ gap ++ cells newenc.size ws ++ tail⟩ =
      .ok ⟨newenc, len, gap' ++ cells newenc.size (us ++ ws) ++ tail⟩ := by
  induction k generalizing us ws gap with
  | zero =>
    obtain rfl := length_eq_zero_iff.1 hk
    rw [zero_add] at hgap
    exact ⟨gap, hgap, rfl⟩
  | succ k ih =>
    obtain ⟨us, v, rfl⟩ : ∃ us' v, us = us' ++ [v] :=
      ⟨_, _, (dropLast_append_getLast (ne_nil_of_length_eq_add_one hk)).symm⟩
    have hk' : us.length = k := by simpa using hk
    have hle : us.length * curenc.size ≤ (k + prepend) * newenc.size :=
      Nat.mul_le_mul (by omega) hwiden
    have htotal : us.length * curenc.size + (littleEndianInt curenc.size v ++ gap).length =
        (k + prepend) * newenc.size + newenc.size := by
      rw [← succ_mul, succ_eq_add_one, add_right_comm, ← hgap]
      simp only [cells_append, cells_cons, cells_nil, append_nil, length_append, length_cells]
      omega
    -- the element is written to the last bytes `y` of the old element and the gap
    obtain ⟨x, y, hxy, hy⟩ := @exists_append_of_le
      (littleEndianInt curenc.size v ++ gap) newenc.size (by omega)
    have hbuf : cells curenc.size (us ++ [v]) ++ gap ++ cells newenc.size ws ++ tail =
        cells curenc.size us ++ littleEndianInt curenc.size v ++
          (gap ++ (cells newenc.size ws ++ tail)) := by
      simp only [cells_append, cells_cons, cells_nil, append_nil, append_assoc]
    have hbuf' : cells curenc.size (us ++ [v]) ++ gap ++ cells newenc.size ws ++ tail =
        cells curenc.size us ++ x ++ y ++ (cells newenc.size ws ++ tail) := by
      simp only [cells_append, cells_cons, cells_nil, append_nil, append_assoc]
      rw [← append_assoc _ gap, hxy, append_assoc]
    have hx : (cells curenc.size us ++ x).length = (k + prepend) * newenc.size := by
      have hlength : (littleEndianInt curenc.size v ++ gap).length = x.length + y.length := by
        rw [hxy, length_append]
      rw [length_append, length_cells]
      omega
    have hget := @intsetGetEncoded_eq ⟨newenc, len, _⟩ curenc us v _ hbuf (hfits v (by simp))
    have hset := @intsetSet_eq ⟨newenc, len, _⟩ (k + prepend) _ y _ hbuf' hx hy v
    obtain ⟨gap', hgap', hloop⟩ := @ih us (v :: ws) hk'
      (fun u hu => hfits u (mem_append_left _ hu)) x hx
    refine ⟨gap', hgap', ?_⟩
    rw [upgradeLoop, ← hk', hget, hk']
    simp only [bind, Except.bind, hset]
    rw [append_assoc us [v] ws, singleton_append, ← hloop, cells_cons]
    simp only [append_assoc]

theorem Rep.widen {vs : List ℤ} (h : Rep is vs) {enc : Encoding}
    (hwiden : is.encoding.size ≤ enc.size) (hsmall : vs.length * enc.size < 2 ^ 32) :
    Rep ⟨enc, is.length, cells enc.size vs⟩ vs :=
  ⟨h.length, rfl, h.sorted, fun v hv => (h.fits v hv).mono hwiden, hsmall⟩

theorem Rep.outside (h : Rep is vs) (hvalue : ¬ FitsSigned is.encoding.size value) (hv : v ∈ vs) :
    (value < 0 → value < v) ∧ (¬ value < 0 → v < value) := by
  obtain ⟨hlow, hhigh⟩ := h.fits v hv
  rw [FitsSigned] at hvalue
  omega

theorem Rep.upgrade (h : Rep is vs) (hvalue : IsLongLong value)
    (hwiden : is.encoding.size < (intsetValueEncoding value).size)
    (hsmall : (is.length + 1) * (intsetValueEncoding value).size < 2 ^ 32) (junk : ℕ → UInt8) :
    ∃ is', intsetUpgradeAndAdd junk is value = .ok is' ∧ is'.encoding = intsetValueEncoding value ∧
      Rep is' (if value < 0 then value :: vs else vs ++ [value]) := by
  obtain ⟨enc, henc⟩ : ∃ enc, enc = intsetValueEncoding value := ⟨_, rfl⟩
  rw [← henc] at hwiden hsmall ⊢
  have hfits : FitsSigned enc.size value := henc ▸ fitsSigned_valueEncoding hvalue
  have hnotfits : ¬ FitsSigned is.encoding.size value := by
    rw [fitsSigned_iff hvalue, ← henc]
    omega
  have hwide := @Rep.widen is vs h enc hwiden.le (by rw [h.length, succ_mul] at hsmall; omega)
  have hold : vs.length * is.encoding.size ≤ vs.length * enc.size :=
    mul_le_mul_left _ hwiden.le
  obtain ⟨free, hfree, hresize⟩ := @resize_of_le is.contents ((is.length + 1) * enc.size) junk
    (by rw [h.contents, length_cells, h.length, succ_mul]; omega)
  rw [h.contents, length_cells, h.length, succ_mul] at hfree
  have hgrow : intsetResize junk { is with encoding := enc } (is.length + 1) =
      ⟨enc, vs.length, cells is.encoding.size vs ++ free⟩ := by
    rw [intsetResize, mod_eq_of_lt hsmall, hresize, h.contents, ← h.length]
  rw [intsetUpgradeAndAdd, ← henc, hgrow]
  by_cases hneg : value < 0
  · obtain ⟨gap, hgap, hloop⟩ := @upgradeLoop_eq is.encoding enc hwiden.le 1 vs.length vs [] rfl
      h.fits free [] (by rw [length_append, length_cells, succ_mul]; omega) vs.length
    have hset := @intsetSet_eq ⟨enc, vs.length, _⟩ 0 [] gap (cells enc.size vs) rfl
      (by rw [zero_mul]; rfl) (by rw [hgap, one_mul]) value
    have hrep := @Rep.inserted _ [] vs hwide value (by simp)
      (fun v hv => (h.outside hnotfits hv).1 hneg) hfits hsmall
    refine ⟨_, ?_, rfl, by rw [if_pos hneg]; exact hrep⟩
    simp only [cells_nil, append_nil, nil_append] at hloop hset
    simp only [if_pos hneg, hloop, bind, Except.bind, if_true, hset, pure, Except.pure,
      nil_append, cells_cons, h.length]
  · obtain ⟨gap, tail, rfl, htail⟩ := @exists_append_of_le free enc.size (by omega)
    rw [length_append] at hfree
    obtain ⟨gap', hgap', hloop⟩ := @upgradeLoop_eq is.encoding enc hwiden.le 0 vs.length vs [] rfl
      h.fits gap tail (by rw [length_append, length_cells, add_zero]; omega) vs.length
    obtain rfl : gap' = [] := length_eq_zero_iff.1 (by rw [hgap', zero_mul])
    have hset := @intsetSet_eq ⟨enc, vs.length, _⟩ vs.length (cells enc.size vs) tail []
      (append_nil _).symm (length_cells _ _) htail value
    have hrep := @Rep.inserted _ vs [] (by rw [append_nil]; exact hwide) value
      (fun v hv => (h.outside hnotfits hv).2 hneg) (by simp) hfits hsmall
    refine ⟨_, ?_, rfl, by rw [if_neg hneg]; exact hrep⟩
    simp only [cells_nil, append_nil, nil_append, append_assoc] at hloop hset
    simp only [if_neg hneg, hloop, bind, Except.bind, zero_ne_one, if_false, hset, pure,
      Except.pure, cells_append, cells_cons, cells_nil, append_nil, h.length]

end ServerStack.Redis.Intset
