import ServerStack.Redis.Dict.Model

/-!
# One hash table

A well-formed table has a power of two of buckets, keeps every entry in the bucket of its hash,
holds no key twice and counts its entries in `used`.  Such a table is a finite map (`Dictht.get`),
and the operations on chains are the operations of that map.
-/

namespace ServerStack.Redis.HashTable

open List Function DictEntry

variable {K V : Type} (hash : K → UInt32)

/-- The largest number of buckets whose indices, and the index after the last, are `int`s. -/
def maxBuckets : ℕ := 2 ^ 30

/-- A table that was allocated and has kept its shape since. -/
structure Dictht.WF (ht : Dictht K V) : Prop where
  size_pow : ∃ p, ht.size = 2 ^ p
  size_le : ht.size ≤ maxBuckets
  mask_eq : ht.sizemask = ht.size - 1
  placed : ∀ i, ∀ he ∈ ht.table i, ht.index hash he.key = i
  nodup : ∀ i, ((ht.table i).map key).Nodup
  used_eq : ht.used = ∑ i ∈ Finset.range ht.size, (ht.table i).length

def Dictht.entries (ht : Dictht K V) : List (DictEntry K V) :=
  (List.range ht.size).flatMap ht.table

variable {hash}

/-! ## Indices -/

variable {ht : Dictht K V} {i : ℕ} {he : DictEntry K V} {chain : List (DictEntry K V)} {key : K}

theorem Dictht.WF.size_pos (h : ht.WF hash) : 0 < ht.size := by
  obtain ⟨p, hp⟩ := h.size_pow
  rw [hp]
  exact Nat.two_pow_pos p

theorem Dictht.WF.index_eq (h : ht.WF hash) (key : K) :
    ht.index hash key = (hash key).toNat % ht.size := by
  obtain ⟨p, hp⟩ := h.size_pow
  rw [Dictht.index, h.mask_eq, hp, Nat.and_two_pow_sub_one_eq_mod]

theorem Dictht.WF.index_lt (h : ht.WF hash) (key : K) : ht.index hash key < ht.size := by
  rw [h.index_eq]
  exact Nat.mod_lt _ h.size_pos

theorem Dictht.bucket_of_lt (ht : Dictht K V) (h : i < ht.size) :
    ht.bucket i = .ok (ht.table i) := by
  rw [Dictht.bucket, if_pos ⟨by omega, by omega⟩, Int.toNat_natCast]

theorem Dictht.WF.bucket_index (h : ht.WF hash) (key : K) :
    ht.bucket (ht.index hash key) = .ok (ht.table (ht.index hash key)) :=
  ht.bucket_of_lt (h.index_lt key)

/-! ## Changing one chain -/

variable (table : ℕ → List (DictEntry K V))

theorem sum_update_length {n : ℕ} (hi : i < n) (chain : List (DictEntry K V)) :
    ∑ j ∈ Finset.range n, (update table i chain j).length + (table i).length =
      ∑ j ∈ Finset.range n, (table j).length + chain.length := by
  have hmem : i ∈ Finset.range n := Finset.mem_range.2 hi
  rw [← Finset.add_sum_erase _ _ hmem, ← Finset.add_sum_erase _ (fun j => (table j).length) hmem]
  have hrest : ∑ j ∈ (Finset.range n).erase i, (update table i chain j).length =
      ∑ j ∈ (Finset.range n).erase i, (table j).length :=
    Finset.sum_congr rfl fun j hj => by rw [update_of_ne (Finset.ne_of_mem_erase hj)]
  rw [update_self]
  omega

theorem length_le_sum {n : ℕ} (hi : i < n) :
    (table i).length ≤ ∑ j ∈ Finset.range n, (table j).length :=
  Finset.single_le_sum (f := fun j => (table j).length) (fun _ _ => Nat.zero_le _)
    (Finset.mem_range.2 hi)

theorem Dictht.WF.update {ht : Dictht K V} (h : ht.WF hash) {i : ℕ} (hi : i < ht.size)
    {chain : List (DictEntry K V)} {used : ℕ} (hplaced : ∀ he ∈ chain, ht.index hash he.key = i)
    (hnodup : (chain.map DictEntry.key).Nodup)
    (hused : used + (ht.table i).length = ht.used + chain.length) :
    Dictht.WF hash { ht with table := update ht.table i chain, used := used } where
  size_pow := h.size_pow
  size_le := h.size_le
  mask_eq := h.mask_eq
  placed := by
    intro j he hhe
    simp only [update_apply] at hhe
    split_ifs at hhe with hij
    · subst hij
      exact hplaced he hhe
    · exact h.placed j he hhe
  nodup := by
    intro j
    simp only [update_apply]
    split_ifs
    · exact hnodup
    · exact h.nodup j
  used_eq := by
    have hsum := sum_update_length ht.table hi chain
    have hold := h.used_eq
    simp only at hsum ⊢
    omega

theorem Dictht.WF.clear (h : ht.WF hash) (hi : i < ht.size) : Dictht.WF hash { ht with
      table := Function.update ht.table i [], used := ht.used - (ht.table i).length } := by
  have hused : (ht.table i).length ≤ ht.used := by
    rw [h.used_eq]
    exact length_le_sum ht.table hi
  refine h.update hi ?_ ?_ ?_
  · intro he hhe
    cases hhe
  · exact nodup_nil
  · rw [length_nil]
    omega

/-! ## Empty and full buckets -/

theorem Dictht.WF.exists_bucket (h : ht.WF hash) (hused : ht.used ≠ 0) :
    ∃ i < ht.size, ht.table i ≠ [] := by
  rw [h.used_eq] at hused
  obtain ⟨i, hi, hne⟩ := Finset.exists_ne_zero_of_sum_ne_zero hused
  exact ⟨i, Finset.mem_range.1 hi, fun hnil => hne (by rw [hnil]; rfl)⟩

theorem Dictht.WF.table_eq_nil (h : ht.WF hash) (hused : ht.used = 0) (i : ℕ) :
    ht.table i = [] := by
  rcases Nat.lt_or_ge i ht.size with hi | hi
  · have hle := length_le_sum ht.table hi
    rw [← h.used_eq, hused] at hle
    exact eq_nil_of_length_eq_zero (Nat.le_zero.1 hle)
  · by_contra hne
    obtain ⟨he, hhe⟩ := exists_mem_of_ne_nil _ hne
    have := h.index_lt he.key
    rw [h.placed i he hhe] at this
    omega

theorem toInt_of_lt {n : ℤ} (h0 : 0 ≤ n) (h : n < 2 ^ 31) : toInt n = n := by
  rw [toInt, Int.bmod_eq_of_le (by omega) (by omega)]

theorem skipEmpty_eq (hsize : ht.size ≤ maxBuckets) {j : ℕ} (hj : j < ht.size)
    (hne : ht.table j ≠ []) :
    ∀ (fuel i : ℕ), i ≤ j → j < fuel + i → (∀ l, i ≤ l → l < j → ht.table l = []) →
      skipEmpty ht fuel i = .ok (j : ℤ)
  | 0, i, hij, hfuel, _ => by omega
  | fuel + 1, i, hij, hfuel, hempty => by
      have hmax : maxBuckets = 2 ^ 30 := rfl
      have hbucket := ht.bucket_of_lt (show i < ht.size by omega)
      rw [skipEmpty, hbucket]
      rcases Nat.eq_or_lt_of_le hij with rfl | hlt
      · have hfull : (ht.table i).isEmpty = false := by simpa using hne
        show (if (ht.table i).isEmpty = true then _ else _) = _
        rw [hfull]
        rfl
      · have hnil : (ht.table i).isEmpty = true := by simpa using hempty i le_rfl hlt
        show (if (ht.table i).isEmpty = true then _ else _) = _
        rw [if_pos hnil, toInt_of_lt (by omega) (by omega)]
        exact_mod_cast skipEmpty_eq hsize hj hne fuel (i + 1) hlt (by omega)
          fun l hl hlj => hempty l (by omega) hlj

/-! ## Counting -/

theorem Dictht.WF.entries_length (h : ht.WF hash) : ht.entries.length = ht.used := by
  rw [h.used_eq, Dictht.entries, length_flatMap]
  rfl

theorem Dictht.WF.mem_entries (h : ht.WF hash) :
    he ∈ ht.entries ↔ he ∈ ht.table (ht.index hash he.key) := by
  simp only [Dictht.entries, mem_flatMap, mem_range]
  constructor
  · rintro ⟨i, hi, hhe⟩
    rwa [h.placed i he hhe]
  · intro hhe
    exact ⟨_, h.index_lt he.key, hhe⟩

theorem Dictht.WF.entries_nodup (h : ht.WF hash) : (ht.entries.map DictEntry.key).Nodup := by
  rw [Dictht.entries, map_flatMap, nodup_flatMap]
  refine ⟨fun i _ => h.nodup i, ?_⟩
  refine nodup_range.imp fun {i j} hij => ?_
  intro k hi hj
  obtain ⟨he, hhe, rfl⟩ := mem_map.1 hi
  obtain ⟨he', hhe', heq⟩ := mem_map.1 hj
  apply hij
  rw [← h.placed i he hhe, ← h.placed j he' hhe', heq]

variable [DecidableEq K]

/-! ## Chains -/

theorem findKey_cons (key : K) (he : DictEntry K V) (chain : List (DictEntry K V)) :
    findKey key (he :: chain) = if key = he.key then some he else findKey key chain := by
  by_cases h : key = he.key <;> simp [findKey, h]

@[simp] theorem findKey_nil (key : K) : findKey key ([] : List (DictEntry K V)) = none := rfl

theorem findKey_eq_none : findKey key chain = none ↔ key ∉ chain.map DictEntry.key := by
  simp only [findKey, find?_eq_none, mem_map, decide_eq_true_eq, not_exists, not_and]
  constructor
  · intro h he hmem heq
    exact h he hmem heq.symm
  · intro h he hmem heq
    exact h he hmem heq.symm

theorem key_of_findKey (h : findKey key chain = some he) : key = he.key ∧ he ∈ chain :=
  ⟨by simpa using find?_some h, mem_of_find?_eq_some h⟩

theorem findKey_eraseP_self (hnodup : (chain.map DictEntry.key).Nodup) :
    findKey key (chain.eraseP fun he => decide (key = he.key)) = none := by
  induction chain with
  | nil => rfl
  | cons he chain ih =>
    rw [map_cons, nodup_cons] at hnodup
    by_cases h : key = he.key
    · rw [eraseP_cons_of_pos (by simpa using h), findKey_eq_none, h]
      exact hnodup.1
    · rw [eraseP_cons_of_neg (by simpa using h), findKey_cons, if_neg h]
      exact ih hnodup.2

theorem findKey_eraseP_ne {k : K} (hk : k ≠ key) (chain : List (DictEntry K V)) :
    findKey k (chain.eraseP fun he => decide (key = he.key)) = findKey k chain := by
  induction chain with
  | nil => rfl
  | cons he chain ih =>
    by_cases h : key = he.key
    · rw [eraseP_cons_of_pos (by simpa using h), findKey_cons, if_neg]
      exact fun hk' => hk (hk'.trans h.symm)
    · rw [eraseP_cons_of_neg (by simpa using h), findKey_cons, findKey_cons, ih]

theorem setVal_keys (key : K) (val : V) (chain : List (DictEntry K V)) :
    (setVal key val chain).map DictEntry.key = chain.map DictEntry.key := by
  induction chain with
  | nil => rfl
  | cons he chain ih =>
    simp only [setVal]
    split_ifs
    · rfl
    · rw [map_cons, map_cons, ih]

theorem findKey_setVal (key k : K) (val : V) (chain : List (DictEntry K V)) :
    (findKey k (setVal key val chain)).map DictEntry.val =
      if k = key ∧ (findKey key chain).isSome then some val
      else (findKey k chain).map DictEntry.val := by
  induction chain with
  | nil => simp [setVal]
  | cons he chain ih =>
    simp only [setVal]
    by_cases h : key = he.key
    · rw [if_pos h, findKey_cons, findKey_cons, findKey_cons]
      by_cases hk : k = he.key
      · simp [hk, h]
      · simp [hk, h]
    · rw [if_neg h, findKey_cons, findKey_cons, findKey_cons, if_neg h]
      by_cases hk : k = he.key
      · simp [hk, Ne.symm h]
      · rw [if_neg hk, if_neg hk, ih]

/-! ## The table as a finite map -/

def Dictht.get (hash : K → UInt32) (ht : Dictht K V) (key : K) : Option V :=
  (findKey key (ht.table (ht.index hash key))).map val

theorem Dictht.WF.get_eq_none (h : ht.WF hash) :
    ht.get hash key = none ↔ ∀ i, key ∉ (ht.table i).map DictEntry.key := by
  rw [Dictht.get, Option.map_eq_none_iff, findKey_eq_none]
  constructor
  · intro hkey i hmem
    obtain ⟨he, hhe, rfl⟩ := mem_map.1 hmem
    rw [h.placed i he hhe] at hkey
    exact hkey hmem
  · intro hkey
    exact hkey _

theorem Dictht.WF.get_isSome_of_mem (h : ht.WF hash) (hmem : he ∈ ht.table i) :
    (ht.get hash he.key).isSome := by
  rw [Option.isSome_iff_ne_none, Ne, h.get_eq_none]
  intro hnone
  exact hnone i (mem_map.2 ⟨he, hmem, rfl⟩)

theorem get_update (ht : Dictht K V) (i used : ℕ) (chain : List (DictEntry K V)) (k : K) :
    Dictht.get hash { ht with table := update ht.table i chain, used := used } k =
      if ht.index hash k = i then (findKey k chain).map val else ht.get hash k := by
  have hindex : Dictht.index hash
      { ht with table := update ht.table i chain, used := used } k = ht.index hash k := rfl
  rw [Dictht.get, hindex]
  simp only [update_apply]
  split_ifs <;> rfl

theorem get_update_index {key : K} {chain : List (DictEntry K V)} {v : Option V} (used : ℕ)
    (hchain : ∀ k, (findKey k chain).map val =
      if k = key then v else (findKey k (ht.table (ht.index hash key))).map val) (k : K) :
    Dictht.get hash { ht with table := update ht.table (ht.index hash key) chain, used := used } k =
      if k = key then v else ht.get hash k := by
  rw [get_update, hchain]
  by_cases hk : k = key
  · rw [if_pos (by rw [hk]), if_pos hk, if_pos hk]
  · split_ifs with hi
    · rw [Dictht.get, hi]
    · rfl

/-! ## The operations of the finite map -/

theorem Dictht.WF.push (h : ht.WF hash) (val : V) (hnew : ht.get hash key = none) :
    (ht.push (ht.index hash key) ⟨key, val⟩).WF hash := by
  refine h.update (h.index_lt key) ?_ ?_ ?_
  · intro he hhe
    rcases mem_cons.1 hhe with rfl | hhe
    · rfl
    · exact h.placed _ he hhe
  · rw [map_cons, nodup_cons]
    exact ⟨h.get_eq_none.1 hnew _, h.nodup _⟩
  · rw [length_cons]
    omega

theorem get_push (ht : Dictht K V) (key : K) (val : V) (k : K) :
    (ht.push (ht.index hash key) ⟨key, val⟩).get hash k =
      if k = key then some val else ht.get hash k := by
  refine get_update_index _ (fun k => ?_) k
  rw [findKey_cons]
  split_ifs <;> rfl

theorem Dictht.WF.unlink (h : ht.WF hash) (hsome : (ht.get hash key).isSome) :
    (ht.unlink hash key).WF hash := by
  obtain ⟨he, hhe⟩ : ∃ he, findKey key (ht.table (ht.index hash key)) = some he := by
    simpa [Dictht.get, Option.isSome_iff_exists] using hsome
  obtain ⟨hkey, hmem⟩ := key_of_findKey hhe
  have hlen : ((ht.table (ht.index hash key)).eraseP fun he => decide (key = he.key)).length =
      (ht.table (ht.index hash key)).length - 1 :=
    length_eraseP_of_mem hmem (by simpa using hkey)
  have hpos : 0 < (ht.table (ht.index hash key)).length := length_pos_of_mem hmem
  have hused : (ht.table (ht.index hash key)).length ≤ ht.used := by
    rw [h.used_eq]
    exact length_le_sum ht.table (h.index_lt key)
  refine h.update (h.index_lt key) ?_ ?_ ?_
  · intro he hhe
    exact h.placed _ he (mem_of_mem_eraseP hhe)
  · exact ((eraseP_sublist).map DictEntry.key).nodup (h.nodup _)
  · omega

theorem Dictht.WF.get_unlink (h : ht.WF hash) (key k : K) :
    (ht.unlink hash key).get hash k = if k = key then none else ht.get hash k := by
  refine get_update_index _ (fun k => ?_) k
  split_ifs with hk
  · rw [hk, findKey_eraseP_self (h.nodup _)]
    rfl
  · rw [findKey_eraseP_ne hk]

theorem Dictht.WF.setVal (h : ht.WF hash) (key : K) (val : V) :
    (ht.updateChain hash key (HashTable.setVal key val)).WF hash := by
  have hkeys := setVal_keys key val (ht.table (ht.index hash key))
  have hlen : (HashTable.setVal key val (ht.table (ht.index hash key))).length =
      (ht.table (ht.index hash key)).length := by
    have := congrArg List.length hkeys
    simpa using this
  refine @Dictht.WF.update _ _ _ ht h _ (h.index_lt key) _ ht.used ?_ ?_ ?_
  · intro he hhe
    have hmem : he.key ∈ (ht.table (ht.index hash key)).map DictEntry.key :=
      hkeys ▸ mem_map.2 ⟨he, hhe, rfl⟩
    obtain ⟨he', hhe', heq⟩ := mem_map.1 hmem
    rw [← heq]
    exact h.placed _ he' hhe'
  · rw [hkeys]
    exact h.nodup _
  · rw [hlen]

theorem get_setVal (hsome : (ht.get hash key).isSome) (val : V) (k : K) :
    (ht.updateChain hash key (setVal key val)).get hash k =
      if k = key then some val else ht.get hash k := by
  refine get_update_index ht.used (fun k => ?_) k
  rw [Dictht.get, Option.isSome_map] at hsome
  rw [findKey_setVal]
  simp only [hsome, and_true]

/-! ## Moving a bucket -/

theorem moveChain_meets (h : ht.WF hash) (hnodup : (chain.map DictEntry.key).Nodup)
    (hfresh : ∀ he ∈ chain, ht.get hash he.key = none) :
    ∃ ht', moveChain hash chain ht = .ok ht' ∧ ht'.WF hash ∧ ht'.size = ht.size ∧
      ht'.used = ht.used + chain.length ∧
      ∀ k, ht'.get hash k = ((findKey k chain).map val).or (ht.get hash k) := by
  induction chain generalizing ht with
  | nil => exact ⟨ht, rfl, h, rfl, rfl, fun k => rfl⟩
  | cons he chain ih =>
    rw [map_cons, nodup_cons] at hnodup
    have hpush := h.push he.val (hfresh he mem_cons_self)
    have hget : ∀ k, (ht.push (ht.index hash he.key) he).get hash k =
        if k = he.key then some he.val else ht.get hash k := get_push ht he.key he.val
    obtain ⟨ht', hmove, hwf, hsize, hused, hget'⟩ := ih hpush hnodup.2 fun he' hhe' => by
      rw [hget, if_neg, hfresh he' (mem_cons_of_mem _ hhe')]
      intro heq
      exact hnodup.1 (heq ▸ mem_map.2 ⟨he', hhe', rfl⟩)
    refine ⟨ht', ?_, hwf, hsize, ?_, fun k => ?_⟩
    · rw [moveChain, h.bucket_index]
      exact hmove
    · rw [hused, length_cons, Dictht.push]
      simp only
      omega
    · rw [hget', hget, findKey_cons]
      by_cases hk : k = he.key
      · have hnone : findKey k chain = none := findKey_eq_none.2 (hk ▸ hnodup.1)
        rw [hnone, if_pos hk, if_pos hk]
        rfl
      · rw [if_neg hk, if_neg hk]

end ServerStack.Redis.HashTable
