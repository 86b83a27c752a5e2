import ServerStack.Redis.Dict.Table

/-!
# The invariant of a dictionary

A dictionary is idle or in the middle of a rehash.  Then both tables are well formed, no key lives
in both, and the buckets below `rehashidx` are empty.  A rehash step, an expansion and the searches
keep the invariant and the contents (`Dict.get`).
-/

namespace ServerStack.Redis.HashTable

variable {K V : Type} {hash : K → UInt32}

/-- A table just allocated by `dictExpand`. -/
def callocTable (size : ℕ) : Dictht K V :=
  { table := fun _ => [], size := dictNextPower size, sizemask := dictNextPower size - 1, used := 0 }

def Dict.get [DecidableEq K] (hash : K → UInt32) (d : Dict K V) (key : K) : Option V :=
  (d.ht0.get hash key).or (d.ht1.get hash key)

structure Idle (hash : K → UInt32) (d : Dict K V) : Prop where
  rehashidx_eq : d.rehashidx = -1
  ht1_eq : d.ht1 = dictReset
  ht0_wf : d.ht0 = dictReset ∨ d.ht0.WF hash

structure Rehashing [DecidableEq K] (hash : K → UInt32) (d : Dict K V) : Prop where
  rehashidx_nonneg : 0 ≤ d.rehashidx
  rehashidx_le : d.rehashidx ≤ d.ht0.size
  ht0_wf : d.ht0.WF hash
  ht1_wf : d.ht1.WF hash
  moved : ∀ i : ℕ, (i : ℤ) < d.rehashidx → d.ht0.table i = []
  disjoint : ∀ k, (d.ht0.get hash k).isSome → d.ht1.get hash k = none

def DictInv [DecidableEq K] (hash : K → UInt32) (d : Dict K V) : Prop := Idle hash d ∨ Rehashing hash d

/-- The table that holds the keys once the rehash in progress, if any, is over. -/
def Dict.target (d : Dict K V) : Dictht K V := if dictIsRehashing d then d.ht1 else d.ht0

structure Same [DecidableEq K] (hash : K → UInt32) (d d' : Dict K V) : Prop where
  get_eq : ∀ k, d'.get hash k = d.get hash k
  size_eq : dictSize d' = dictSize d
  iterators_eq : d'.iterators = d.iterators

variable {d : Dict K V} {size : ℕ}

section

variable (h : Idle hash d)

include h

theorem Idle.not_rehashing : dictIsRehashing d = false := by
  simp [dictIsRehashing, h.rehashidx_eq]

theorem Idle.ht0_wf_of_size (hsize : d.ht0.size ≠ 0) : d.ht0.WF hash := by
  rcases h.ht0_wf with hreset | hwf
  · exact absurd (by rw [hreset]; rfl) hsize
  · exact hwf

theorem Idle.ht0_eq_of_size (hsize : d.ht0.size = 0) : d.ht0 = dictReset := by
  rcases h.ht0_wf with hreset | hwf
  · exact hreset
  · exact absurd hsize hwf.size_pos.ne'

theorem Idle.target_eq : d.target = d.ht0 := by
  rw [Dict.target, if_neg (by rw [h.not_rehashing]; decide)]

theorem Idle.size_eq : dictSize d = d.ht0.used := by
  rw [dictSize, h.ht1_eq]
  rfl

end

variable [DecidableEq K]

theorem Same.refl (d : Dict K V) : Same hash d d := ⟨fun _ => rfl, rfl, rfl⟩

theorem Same.trans {d' d'' : Dict K V} (h : Same hash d d') (h' : Same hash d' d'') :
    Same hash d d'' :=
  ⟨fun k => (h'.get_eq k).trans (h.get_eq k), h'.size_eq.trans h.size_eq,
    h'.iterators_eq.trans h.iterators_eq⟩

@[simp] theorem get_dictReset (k : K) : (dictReset : Dictht K V).get hash k = none := rfl

theorem Rehashing.rehashing (h : Rehashing hash d) : dictIsRehashing d = true := by
  have := h.rehashidx_nonneg
  rw [dictIsRehashing, bne_iff_ne]
  omega

theorem Rehashing.target_eq (h : Rehashing hash d) : d.target = d.ht1 := by
  rw [Dict.target, if_pos h.rehashing]

theorem Idle.get_eq (h : Idle hash d) (k : K) : d.get hash k = d.ht0.get hash k := by
  rw [Dict.get, h.ht1_eq, get_dictReset, Option.or_none]

theorem DictInv.ht0_wf (h : DictInv hash d) (hsize : d.ht0.size ≠ 0) : d.ht0.WF hash := by
  rcases h with h | h
  · exact h.ht0_wf_of_size hsize
  · exact h.ht0_wf

theorem dictInv_dictCreate : DictInv hash (dictCreate : Dict K V) :=
  .inl ⟨rfl, rfl, .inl rfl⟩

/-! ## One round of rehashing -/

theorem Rehashing.next_bucket (h : Rehashing hash d) (hused : d.ht0.used ≠ 0) :
    ∃ j < d.ht0.size, d.ht0.table j ≠ [] ∧ (∀ l < j, d.ht0.table l = []) ∧ d.rehashidx ≤ j ∧
      skipEmpty d.ht0 (d.ht0.size + 1) d.rehashidx = .ok (j : ℤ) := by
  have hex : ∃ j, j < d.ht0.size ∧ d.ht0.table j ≠ [] := h.ht0_wf.exists_bucket hused
  classical
  obtain ⟨hlt, hne⟩ := Nat.find_spec hex
  have hmin : ∀ l < Nat.find hex, d.ht0.table l = [] := by
    intro l hl
    by_contra hl'
    exact Nat.find_min hex hl ⟨hl.trans hlt, hl'⟩
  have hle : d.rehashidx ≤ Nat.find hex := by
    by_contra hgt
    exact hne (h.moved _ (by omega))
  refine ⟨Nat.find hex, hlt, hne, hmin, hle, ?_⟩
  obtain ⟨r, hr⟩ := Int.eq_ofNat_of_zero_le h.rehashidx_nonneg
  rw [hr] at hle ⊢
  exact skipEmpty_eq h.ht0_wf.size_le hlt hne _ r (by omega) (by omega) fun l _ hl => hmin l hl

theorem Rehashing.finish (h : Rehashing hash d) (hused : d.ht0.used = 0) :
    DictInv hash { d with ht0 := d.ht1, ht1 := dictReset, rehashidx := -1 } ∧
      Same hash d { d with ht0 := d.ht1, ht1 := dictReset, rehashidx := -1 } := by
  refine ⟨.inl ⟨rfl, rfl, .inr h.ht1_wf⟩, ?_, ?_, rfl⟩
  · intro k
    have hnone : d.ht0.get hash k = none := by
      rw [h.ht0_wf.get_eq_none]
      intro i
      rw [h.ht0_wf.table_eq_nil hused]
      simp
    simp [Dict.get, hnone]
  · simp [dictSize, hused, dictReset]

/-- The dictionary after the chain of bucket `j` was moved into `ht1`. -/
def afterMove (d : Dict K V) (j : ℕ) (ht1 : Dictht K V) : Dict K V :=
  { d with
    ht0 := { d.ht0 with
      table := Function.update d.ht0.table j []
      used := d.ht0.used - (d.ht0.table j).length }
    ht1 := ht1
    rehashidx := (j : ℤ) + 1 }

/-- Moving the bucket at the head of the old table keeps the invariant and the contents. -/
theorem Rehashing.afterMove (h : Rehashing hash d) {j : ℕ} (hj : j < d.ht0.size)
    (hempty : ∀ l < j, d.ht0.table l = []) :
    ∃ ht1, moveChain hash (d.ht0.table j) d.ht1 = .ok ht1 ∧
      Rehashing hash (afterMove d j ht1) ∧ Same hash d (afterMove d j ht1) ∧
      ht1.size = d.ht1.size := by
  obtain ⟨ht1, hmove, hwf, hsize, hused, hget⟩ := moveChain_meets h.ht1_wf (h.ht0_wf.nodup j)
    fun he hhe => h.disjoint he.key (h.ht0_wf.get_isSome_of_mem hhe)
  have hget0 : ∀ k, (HashTable.afterMove d j ht1).ht0.get hash k =
      if d.ht0.index hash k = j then none else d.ht0.get hash k := fun k =>
    get_update d.ht0 j _ [] k
  have hchain : ∀ k, d.ht0.index hash k ≠ j → findKey k (d.ht0.table j) = none := by
    intro k hk
    rw [findKey_eq_none]
    intro hmem
    obtain ⟨he, hhe, rfl⟩ := List.mem_map.1 hmem
    exact hk (h.ht0_wf.placed j he hhe)
  have hlen : (d.ht0.table j).length ≤ d.ht0.used := by
    rw [h.ht0_wf.used_eq]
    exact length_le_sum d.ht0.table hj
  refine ⟨ht1, hmove, ?_, ⟨?_, ?_, rfl⟩, hsize⟩
  · constructor
    · show (0 : ℤ) ≤ j + 1
      omega
    · show (j : ℤ) + 1 ≤ d.ht0.size
      omega
    · exact h.ht0_wf.clear hj
    · exact hwf
    · intro i hi
      have hi' : (i : ℤ) < j + 1 := hi
      show Function.update d.ht0.table j [] i = []
      rw [Function.update_apply]
      split_ifs with hij
      · rfl
      · exact hempty i (by omega)
    · intro k hk
      rw [hget0] at hk
      split_ifs at hk with hkj
      · cases hk
      · show ht1.get hash k = none
        rw [hget, hchain k hkj, h.disjoint k hk]
        rfl
  · intro k
    show ((HashTable.afterMove d j ht1).ht0.get hash k).or (ht1.get hash k) = _
    rw [hget0, hget, Dict.get]
    split_ifs with hkj
    · have hget_j : d.ht0.get hash k = (findKey k (d.ht0.table j)).map DictEntry.val := by
        rw [Dictht.get, hkj]
      rw [Option.none_or, hget_j]
    · rw [hchain k hkj]
      rfl
  · show d.ht0.used - (d.ht0.table j).length + ht1.used = d.ht0.used + d.ht1.used
    omega

theorem Rehashing.round (h : Rehashing hash d) :
    ∃ d' more, rehashRound hash d = .ok (d', more) ∧ DictInv hash d' ∧ Same hash d d' ∧
      d'.target.size = d.target.size ∧ d'.ht0.WF hash ∧ (more = true → Rehashing hash d') := by
  have hmax : maxBuckets = 2 ^ 30 := rfl
  have hsize := h.ht0_wf.size_le
  by_cases hused : d.ht0.used = 0
  · obtain ⟨hinv, hsame⟩ := h.finish hused
    exact ⟨_, false, by rw [rehashRound, if_pos hused], hinv, hsame,
      by rw [h.target_eq]; rfl, h.ht1_wf, fun hmore => by cases hmore⟩
  · obtain ⟨j, hj, _, hempty, hidx, hskip⟩ := h.next_bucket hused
    obtain ⟨ht1, hmove, hre, hsame, htarget⟩ := h.afterMove hj hempty
    refine ⟨HashTable.afterMove d j ht1, true, ?_, .inr hre, hsame, ?_, hre.ht0_wf, fun _ => hre⟩
    swap
    · rw [h.target_eq]
      exact htarget
    have hassert : ¬ (d.ht0.size : ℤ) ≤ d.rehashidx % 2 ^ 32 := by
      rw [Int.emod_eq_of_lt h.rehashidx_nonneg (by omega)]
      omega
    rw [rehashRound, if_neg hused, if_neg hassert, hskip]
    have hbucket := d.ht0.bucket_of_lt hj
    simp only [bind, Except.bind, hbucket, hmove, toInt_of_lt (show (0 : ℤ) ≤ j + 1 by omega)
      (show (j : ℤ) + 1 < 2 ^ 31 by omega)]
    rfl

theorem Rehashing.loop : ∀ (n : ℕ) {d : Dict K V}, Rehashing hash d →
      ∃ d' more, rehashLoop hash n d = .ok (d', more) ∧ DictInv hash d' ∧ Same hash d d' ∧
        d'.target.size = d.target.size ∧ d'.ht0.WF hash
  | 0, d, h => ⟨d, true, rfl, .inr h, Same.refl d, rfl, h.ht0_wf⟩
  | n + 1, d, h => by
      obtain ⟨d₁, more, hround, hinv, hsame, htarget, hwf, hmore⟩ := h.round
      rw [rehashLoop, hround]
      cases more with
      | false => exact ⟨d₁, false, rfl, hinv, hsame, htarget, hwf⟩
      | true =>
        obtain ⟨d₂, more', hloop, hinv', hsame', htarget', hwf'⟩ := Rehashing.loop n (hmore rfl)
        exact ⟨d₂, more', hloop, hinv', hsame.trans hsame', htarget'.trans htarget, hwf'⟩

theorem DictInv.rehash (h : DictInv hash d) (n : ℕ) :
    ∃ d' more, dictRehash hash d n = .ok (d', more) ∧ DictInv hash d' ∧ Same hash d d' ∧
      d'.target.size = d.target.size ∧ (d.ht0.size ≠ 0 → d'.ht0.WF hash) := by
  rcases h with h | h
  · exact ⟨d, false, by simp [dictRehash, h.not_rehashing], .inl h, Same.refl d,
      rfl, h.ht0_wf_of_size⟩
  · obtain ⟨d', more, hloop, hinv, hsame, htarget, hwf⟩ := Rehashing.loop n h
    exact ⟨d', more, by rw [dictRehash, if_pos h.rehashing, hloop], hinv, hsame, htarget,
      fun _ => hwf⟩

theorem DictInv.rehashStep (h : DictInv hash d) :
    ∃ d', dictRehashStep hash d = .ok d' ∧ DictInv hash d' ∧ Same hash d d' ∧
      d'.target.size = d.target.size ∧ (d.ht0.size ≠ 0 → d'.ht0.WF hash) := by
  rw [dictRehashStep]
  split_ifs
  · obtain ⟨d', more, hre, hinv, hsame, htarget, hwf⟩ := h.rehash 1
    exact ⟨d', by rw [hre]; rfl, hinv, hsame, htarget, hwf⟩
  · exact ⟨d, rfl, h, Same.refl d, rfl, h.ht0_wf⟩

/-! ## Expansion -/

theorem nextPowerLoop_spec (hsize : size ≤ maxBuckets) :
    ∀ (fuel j : ℕ), 2 ≤ j → j ≤ 30 → 30 ≤ fuel + j →
      ∃ p, 2 ≤ p ∧ p ≤ 30 ∧ nextPowerLoop fuel (2 ^ j) size = 2 ^ p
  | 0, j, h2, hj, _ => ⟨j, h2, hj, rfl⟩
  | fuel + 1, j, h2, hj, hfuel => by
      rw [nextPowerLoop]
      split_ifs with hge
      · exact ⟨j, h2, hj, rfl⟩
      · have hlt : j < 30 := by
          by_contra hnot
          have hj30 : j = 30 := by omega
          rw [hj30] at hge
          exact hge hsize
        exact nextPowerLoop_spec hsize fuel (j + 1) (by omega) (by omega) (by omega)

theorem dictNextPower_spec (hsize : size ≤ maxBuckets) :
    ∃ p, 2 ≤ p ∧ p ≤ 30 ∧ dictNextPower size = 2 ^ p := by
  have hmax : maxBuckets = 2 ^ 30 := rfl
  rw [dictNextPower, if_neg (by unfold longMax; omega)]
  exact nextPowerLoop_spec hsize 64 2 le_rfl (by omega) (by omega)

omit [DecidableEq K] in
theorem wf_callocTable (hsize : size ≤ maxBuckets) : (callocTable size : Dictht K V).WF hash := by
  obtain ⟨p, -, hp, heq⟩ := dictNextPower_spec hsize
  constructor
  · exact ⟨p, heq⟩
  · show dictNextPower size ≤ maxBuckets
    rw [heq, maxBuckets]
    exact Nat.pow_le_pow_right (by decide) hp
  · rfl
  · intro i he hhe
    cases hhe
  · exact fun i => List.nodup_nil
  · simp [callocTable]

@[simp] theorem get_callocTable (size : ℕ) (k : K) :
    (callocTable size : Dictht K V).get hash k = none := rfl

theorem Idle.allocate (h : Idle hash d) (hfirst : d.ht0.size = 0) (hsize : size ≤ maxBuckets) :
    DictInv hash { d with ht0 := callocTable size } ∧
      Same hash d { d with ht0 := callocTable size } := by
  have hreset := h.ht0_eq_of_size hfirst
  refine ⟨.inl ⟨h.rehashidx_eq, h.ht1_eq, .inr (wf_callocTable hsize)⟩, ?_, ?_, rfl⟩
  · intro k
    simp [Dict.get, hreset]
  · simp [dictSize, hreset, dictReset, callocTable]

theorem Idle.startRehash (h : Idle hash d) (hfirst : d.ht0.size ≠ 0) (hsize : size ≤ maxBuckets) :
    DictInv hash { d with ht1 := callocTable size, rehashidx := 0 } ∧
      Same hash d { d with ht1 := callocTable size, rehashidx := 0 } := by
  refine ⟨.inr ⟨le_rfl, ?_, h.ht0_wf_of_size hfirst, wf_callocTable hsize, ?_, ?_⟩, ?_, ?_, rfl⟩
  · exact Int.natCast_nonneg d.ht0.size
  · intro i hi
    have hi' : (i : ℤ) < 0 := hi
    omega
  · exact fun k _ => get_callocTable size k
  · intro k
    simp [Dict.get, h.ht1_eq]
  · simp [dictSize, h.ht1_eq, dictReset, callocTable]

omit [DecidableEq K] in
theorem dictExpand_eq (d : Dict K V) (size : ℕ) : dictExpand d size =
      if dictIsRehashing d ∨ d.ht0.used > size then (d, false)
      else if d.ht0.size = 0 then ({ d with ht0 := callocTable size }, true)
      else ({ d with ht1 := callocTable size, rehashidx := 0 }, true) := rfl

theorem DictInv.expand (h : DictInv hash d) (hsize : size ≤ maxBuckets) :
    DictInv hash (dictExpand d size).1 ∧ Same hash d (dictExpand d size).1 := by
  rw [dictExpand_eq]
  rcases h with h | h
  · split_ifs with hrefused hfirst
    · exact ⟨.inl h, Same.refl d⟩
    · exact h.allocate hfirst hsize
    · exact h.startRehash hfirst hsize
  · rw [if_pos (.inl h.rehashing)]
    exact ⟨.inr h, Same.refl d⟩

/-- The number of buckets that an insertion asks for when its table is full. -/
def growRequest (canResize : Bool) (d : Dict K V) : ℕ :=
  if dictSize d ≥ d.target.size ∧ (canResize ∨ dictSize d / d.target.size > 5) then dictSize d * 2
  else 0

theorem DictInv.expandIfNeeded (h : DictInv hash d) (canResize : Bool)
    (hsmall : growRequest canResize d ≤ maxBuckets) :
    ∃ d', dictExpandIfNeeded canResize d = (d', true) ∧ DictInv hash d' ∧ Same hash d d' ∧
      d'.ht0.WF hash := by
  rcases h with h | h
  · have hre := h.not_rehashing
    by_cases hsize : d.ht0.size = 0
    · have hused : d.ht0.used = 0 := by rw [h.ht0_eq_of_size hsize]; rfl
      have hfour : dictHtInitialSize ≤ maxBuckets := by decide
      obtain ⟨hinv, hsame⟩ := h.allocate hsize hfour
      refine ⟨_, ?_, hinv, hsame, wf_callocTable hfour⟩
      simp [dictExpandIfNeeded, dictExpand_eq, hre, hsize, hused]
    · by_cases hgrow : d.ht0.used ≥ d.ht0.size ∧ (canResize ∨ d.ht0.used / d.ht0.size > 5)
      · have hbound : d.ht0.used * 2 ≤ maxBuckets := by
          rwa [growRequest, h.target_eq, h.size_eq, if_pos hgrow] at hsmall
        have hnot : ¬ (dictIsRehashing d = true ∨ d.ht0.used > d.ht0.used * 2) := by
          rw [hre]
          simp only [Bool.false_eq_true, false_or]
          omega
        obtain ⟨hinv, hsame⟩ := h.startRehash hsize hbound
        refine ⟨_, ?_, hinv, hsame, h.ht0_wf_of_size hsize⟩
        rw [dictExpandIfNeeded, if_neg (by rw [hre]; decide), if_neg hsize, if_pos hgrow,
          dictExpand_eq, if_neg hnot, if_neg hsize]
      · refine ⟨d, ?_, .inl h, Same.refl d, h.ht0_wf_of_size hsize⟩
        rw [dictExpandIfNeeded, if_neg (by rw [hre]; decide), if_neg hsize, if_neg hgrow]
  · exact ⟨d, by rw [dictExpandIfNeeded, if_pos h.rehashing], .inr h, Same.refl d, h.ht0_wf⟩

/-! ## Searches -/

theorem findKey_isSome_iff (ht : Dictht K V) (key : K) :
    (findKey key (ht.table (ht.index hash key))).isSome = (ht.get hash key).isSome := by
  rw [Dictht.get, Option.isSome_map]

theorem searchIndex_eq (h : DictInv hash d) (hwf : d.ht0.WF hash) (key : K) :
    searchIndex hash d key = .ok (if (d.get hash key).isSome then -1
      else if dictIsRehashing d then (d.ht1.index hash key : ℤ) else d.ht0.index hash key) := by
  have hmax : maxBuckets = 2 ^ 30 := rfl
  have hlt0 := hwf.index_lt key
  have hsize0 := hwf.size_le
  simp only [searchIndex, hwf.bucket_index, bind, Except.bind, findKey_isSome_iff]
  rcases h with h | h
  · rw [h.get_eq, h.not_rehashing]
    by_cases hfound : (d.ht0.get hash key).isSome
    · simp [hfound]
      rfl
    · simp [hfound, toInt_of_lt (show (0 : ℤ) ≤ d.ht0.index hash key by omega)
        (show (d.ht0.index hash key : ℤ) < 2 ^ 31 by omega)]
      rfl
  · have hlt1 := h.ht1_wf.index_lt key
    have hsize1 := h.ht1_wf.size_le
    rw [h.rehashing]
    simp only [h.ht1_wf.bucket_index, findKey_isSome_iff, Dict.get, Option.isSome_or]
    by_cases hfound : (d.ht0.get hash key).isSome
    · simp [hfound]
      rfl
    · by_cases hfound1 : (d.ht1.get hash key).isSome
      · simp [hfound, hfound1]
        rfl
      · simp [hfound, hfound1, toInt_of_lt (show (0 : ℤ) ≤ d.ht1.index hash key by omega)
          (show (d.ht1.index hash key : ℤ) < 2 ^ 31 by omega)]
        rfl

theorem searchEntry_eq (h : DictInv hash d) (hwf : d.ht0.WF hash) (key : K) :
    searchEntry hash d key = .ok (((d.ht0.get hash key).map fun v => (Which.first, v)).or
        ((d.ht1.get hash key).map fun v => (Which.second, v))) := by
  simp only [searchEntry, hwf.bucket_index, bind, Except.bind]
  rcases h0 : findKey key (d.ht0.table (d.ht0.index hash key)) with _ | he
  · have hnone : d.ht0.get hash key = none := by rw [Dictht.get, h0]; rfl
    rcases h with h | h
    · simp only [h.not_rehashing, if_true, hnone, h.ht1_eq, get_dictReset]
      rfl
    · simp only [h.rehashing, h.ht1_wf.bucket_index, hnone, Bool.true_eq_false, if_false]
      rw [Dictht.get, Option.map_map]
      rfl
  · have hsome : d.ht0.get hash key = some he.val := by rw [Dictht.get, h0]; rfl
    rw [hsome]
    rfl

end ServerStack.Redis.HashTable
