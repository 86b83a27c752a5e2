import ServerStack.Redis.Dict.Invariant

/-!
# The dictionary is a finite map

Every operation keeps the invariant and acts on the contents as the operation of a finite map, as
long as no call asks for more than `2 ^ 30` buckets.  The indices of a larger table are not `int`s,
and `dictAddRaw` misreads what `_dictKeyIndex` returns.
-/

namespace ServerStack.Redis.HashTable

open Outcome Option Function

variable {K V : Type} [DecidableEq K] {hash : K → UInt32}

/-! ## Changing one table -/

variable {d : Dict K V} {ht : Dictht K V} {key : K}

theorem DictInv.second_eq_none (h : DictInv hash d) (hsome : (d.ht0.get hash key).isSome) :
    d.ht1.get hash key = none := by
  rcases h with h | h
  · rw [h.ht1_eq, get_dictReset]
  · exact h.disjoint key hsome

theorem DictInv.rehashing_of_second (h : DictInv hash d) (hsome : (d.ht1.get hash key).isSome) :
    Rehashing hash d ∧ d.ht0.get hash key = none := by
  rcases h with h | h
  · rw [h.ht1_eq] at hsome
    cases hsome
  · refine ⟨h, ?_⟩
    by_contra hne
    rw [h.disjoint key (isSome_iff_ne_none.2 hne)] at hsome
    cases hsome

omit [DecidableEq K] in
theorem updateChain_nil {f : List (DictEntry K V) → List (DictEntry K V)} (hf : f [] = []) {i : ℕ}
    (hi : ht.table i = []) : (ht.updateChain hash key f).table i = [] := by
  show update ht.table (ht.index hash key) (f (ht.table (ht.index hash key))) i = []
  rw [update_apply]
  split_ifs with heq
  · rw [← heq, hi, hf]
  · exact hi

theorem DictInv.setFirst (h : DictInv hash d) (hsome : (d.ht0.get hash key).isSome)
    (hwf : ht.WF hash) (hsize : ht.size = d.ht0.size)
    (hempty : ∀ i, d.ht0.table i = [] → ht.table i = []) {v : Option V}
    (hget : ∀ k, ht.get hash k = if k = key then v else d.ht0.get hash k) :
    DictInv hash { d with ht0 := ht } ∧
      ∀ k, Dict.get hash { d with ht0 := ht } k = if k = key then v else d.get hash k := by
  constructor
  · rcases h with h | h
    · exact .inl ⟨h.rehashidx_eq, h.ht1_eq, .inr hwf⟩
    · refine .inr ⟨h.rehashidx_nonneg, ?_, hwf, h.ht1_wf, ?_, ?_⟩
      · exact h.rehashidx_le.trans_eq (by rw [hsize])
      · exact fun i hi => hempty i (h.moved i hi)
      · intro k hk
        by_cases heq : k = key
        · exact h.disjoint k (heq ▸ hsome)
        · rw [hget, if_neg heq] at hk
          exact h.disjoint k hk
  · intro k
    simp only [Dict.get, hget]
    by_cases hk : k = key
    · simp [hk, h.second_eq_none hsome]
    · simp [hk]

theorem Rehashing.setSecond (h : Rehashing hash d) (hnone : d.ht0.get hash key = none)
    (hwf : ht.WF hash) {v : Option V}
    (hget : ∀ k, ht.get hash k = if k = key then v else d.ht1.get hash k) :
    DictInv hash { d with ht1 := ht } ∧
      ∀ k, Dict.get hash { d with ht1 := ht } k = if k = key then v else d.get hash k := by
  refine ⟨.inr ⟨h.rehashidx_nonneg, h.rehashidx_le, h.ht0_wf, hwf, h.moved, fun k hk => ?_⟩,
    fun k => ?_⟩
  · rw [hget, if_neg, h.disjoint k hk]
    rintro rfl
    rw [hnone] at hk
    cases hk
  · simp only [Dict.get, hget]
    by_cases hk : k = key
    · simp [hk, hnone]
    · simp [hk]

/-! ## Adding -/

theorem Idle.push (h : Idle hash d) (hwf : d.ht0.WF hash) (hnew : d.get hash key = none) (val : V) :
    DictInv hash { d with ht0 := d.ht0.push (d.ht0.index hash key) ⟨key, val⟩ } ∧
      ∀ k, Dict.get hash { d with ht0 := d.ht0.push (d.ht0.index hash key) ⟨key, val⟩ } k =
        if k = key then some val else d.get hash k := by
  rw [h.get_eq] at hnew
  refine ⟨.inl ⟨h.rehashidx_eq, h.ht1_eq, .inr (hwf.push val hnew)⟩, fun k => ?_⟩
  simp only [Dict.get, get_push, h.ht1_eq, get_dictReset, or_none]

section

variable (h : DictInv hash d)

include h

theorem dictAdd_spec {canResize : Bool}
    (hsmall : growRequest canResize d ≤ maxBuckets) (key : K) (val : V) :
    ∃ d', dictAdd hash canResize d key val = .ok (d', (d.get hash key).isNone) ∧ DictInv hash d' ∧
      ∀ k, d'.get hash k =
        if k = key ∧ d.get hash key = none then some val else d.get hash k := by
  obtain ⟨d₁, hstep, hinv₁, hsame₁, htarget, -⟩ := h.rehashStep
  rw [growRequest, ← hsame₁.size_eq, ← htarget] at hsmall
  obtain ⟨d₂, hexpand, hinv₂, hsame₂, hwf⟩ := hinv₁.expandIfNeeded canResize hsmall
  have hsame := hsame₁.trans hsame₂
  simp only [dictAdd, hstep, dictKeyIndex, hexpand, searchIndex_eq hinv₂ hwf, hsame.get_eq, bind,
    Except.bind, pure, Except.pure]
  rcases hget : d.get hash key with _ | v
  · have hnew : d₂.get hash key = none := by rw [hsame.get_eq, hget]
    have hsplit : ∀ n : ℕ, ((n : ℤ) = -1) = False := fun n => eq_false (by omega)
    rcases hinv₂ with hidle | hre
    · obtain ⟨hinv, hpush⟩ := hidle.push hwf hnew val
      refine ⟨_, ?_, hinv, fun k => ?_⟩
      · simp [hidle.not_rehashing, hsplit, hwf.bucket_index]
      · rw [hpush, hsame.get_eq]
        simp
    · obtain ⟨hnew0, hnew1⟩ := or_eq_none_iff.1 hnew
      obtain ⟨hinv, hpush⟩ := hre.setSecond hnew0 (hre.ht1_wf.push val hnew1) (get_push _ key val)
      refine ⟨_, ?_, hinv, fun k => ?_⟩
      · simp [hre.rehashing, hsplit, hre.ht1_wf.bucket_index]
      · rw [hpush, hsame.get_eq]
        simp
  · exact ⟨d₂, by simp, hinv₂, fun k => by simp [hsame.get_eq]⟩

/-! ## Finding -/

theorem dictFind_spec (key : K) :
    ∃ d' entry, dictFind hash d key = .ok (d', entry) ∧ DictInv hash d' ∧ Same hash d d' ∧
      entry = ((d'.ht0.get hash key).map fun v => (Which.first, v)).or
        ((d'.ht1.get hash key).map fun v => (Which.second, v)) := by
  by_cases hsize : d.ht0.size = 0
  · rcases h with h | h
    · refine ⟨d, none, by rw [dictFind, if_pos hsize], .inl h, Same.refl d, ?_⟩
      rw [h.ht0_eq_of_size hsize, h.ht1_eq]
      rfl
    · exact absurd hsize h.ht0_wf.size_pos.ne'
  · obtain ⟨d', hstep, hinv, hsame, -, hwf⟩ := h.rehashStep
    refine ⟨d', _, ?_, hinv, hsame, rfl⟩
    simp only [dictFind, if_neg hsize, hstep, searchEntry_eq hinv (hwf hsize), bind, Except.bind]
    rfl

/-! ## Replacing and deleting -/

theorem DictInv.ht0_wf_of_get (hsome : (d.ht0.get hash key).isSome) : d.ht0.WF hash := by
  rcases h with h | h
  · rcases h.ht0_wf with hreset | hwf
    · rw [hreset] at hsome
      cases hsome
    · exact hwf
  · exact h.ht0_wf

theorem dictReplace_spec {canResize : Bool}
    (hsmall : growRequest canResize d ≤ maxBuckets) (key : K) (val : V) :
    ∃ d', dictReplace hash canResize d key val = .ok (d', (d.get hash key).isNone) ∧
      DictInv hash d' ∧ ∀ k, d'.get hash k = if k = key then some val else d.get hash k := by
  obtain ⟨d₁, hadd, hinv₁, hget₁⟩ := dictAdd_spec h hsmall key val
  simp only [dictReplace, hadd, bind, Except.bind]
  rcases hkey : d.get hash key with _ | v
  · exact ⟨d₁, rfl, hinv₁, fun k => by simp [hget₁, hkey]⟩
  · obtain ⟨d₂, entry, hfind, hinv₂, hsame, hentry⟩ := dictFind_spec hinv₁ key
    have hget : ∀ k, d₂.get hash k = d.get hash k := fun k => by
      rw [hsame.get_eq, hget₁, if_neg (by simp [hkey])]
    simp only [hfind, isNone_some, Bool.false_eq_true, if_false]
    rcases h0 : d₂.ht0.get hash key with _ | v₀
    · have h1 : (d₂.ht1.get hash key).isSome := by
        have := hget key
        rw [Dict.get, h0, none_or, hkey] at this
        rw [this]
        rfl
      obtain ⟨v₁, hv₁⟩ := isSome_iff_exists.1 h1
      obtain ⟨hre, hnone⟩ := hinv₂.rehashing_of_second h1
      obtain ⟨hinv, hset⟩ := hre.setSecond hnone (hre.ht1_wf.setVal key val) (get_setVal h1 val)
      rw [hentry, h0, hv₁]
      exact ⟨_, rfl, hinv, fun k => by rw [hset, hget]⟩
    · have hsome : (d₂.ht0.get hash key).isSome := by rw [h0]; rfl
      obtain ⟨hinv, hset⟩ := hinv₂.setFirst hsome ((hinv₂.ht0_wf_of_get hsome).setVal key val) rfl
        (fun i => updateChain_nil rfl) (get_setVal hsome val)
      rw [hentry, h0]
      exact ⟨_, rfl, hinv, fun k => by rw [hset, hget]⟩

theorem dictDelete_spec (key : K) :
    ∃ d', dictDelete hash d key = .ok (d', (d.get hash key).isSome) ∧ DictInv hash d' ∧
      ∀ k, d'.get hash k = if k = key then none else d.get hash k := by
  by_cases hsize : d.ht0.size = 0
  · have hnone : ∀ k, d.get hash k = none := by
      intro k
      rcases h with h | h
      · rw [h.get_eq, h.ht0_eq_of_size hsize, get_dictReset]
      · exact absurd hsize h.ht0_wf.size_pos.ne'
    exact ⟨d, by rw [dictDelete, if_pos hsize, hnone]; rfl, h, fun k => by simp [hnone]⟩
  · obtain ⟨d₁, hstep, hinv₁, hsame, -, hwf⟩ := h.rehashStep
    simp only [dictDelete, if_neg hsize, hstep, searchEntry_eq hinv₁ (hwf hsize), bind, Except.bind]
    rw [← hsame.get_eq key, Dict.get]
    rcases h0 : d₁.ht0.get hash key with _ | v₀
    · rcases h1 : d₁.ht1.get hash key with _ | v₁
      · refine ⟨d₁, rfl, hinv₁, fun k => ?_⟩
        rw [← hsame.get_eq]
        split_ifs with hk
        · rw [hk, Dict.get, h0, h1]
          rfl
        · rfl
      · have hsome : (d₁.ht1.get hash key).isSome := by rw [h1]; rfl
        obtain ⟨hre, hnone⟩ := hinv₁.rehashing_of_second hsome
        obtain ⟨hinv, hdel⟩ := hre.setSecond hnone (hre.ht1_wf.unlink hsome)
          (hre.ht1_wf.get_unlink key)
        exact ⟨_, rfl, hinv, fun k => by rw [hdel, hsame.get_eq]⟩
    · have hsome : (d₁.ht0.get hash key).isSome := by rw [h0]; rfl
      obtain ⟨hinv, hdel⟩ := hinv₁.setFirst hsome ((hwf hsize).unlink hsome) rfl
        (fun i => updateChain_nil rfl) ((hwf hsize).get_unlink key)
      exact ⟨_, rfl, hinv, fun k => by rw [hdel, hsame.get_eq]⟩

theorem DictInv.resize (canResize : Bool) (hsmall : canResize = true → dictSize d ≤ maxBuckets) :
    DictInv hash (dictResize canResize d).1 ∧ Same hash d (dictResize canResize d).1 := by
  have hmax : maxBuckets = 2 ^ 30 := rfl
  have hused : dictSize d = d.ht0.used + d.ht1.used := rfl
  rw [dictResize]
  split_ifs with hrefused
  · exact ⟨h, Same.refl d⟩
  · have hle := hsmall (by simpa using fun hfalse => hrefused (.inl hfalse))
    apply h.expand
    simp only [toInt_of_lt (show (0 : ℤ) ≤ d.ht0.used by omega)
      (show (d.ht0.used : ℤ) < 2 ^ 31 by omega), dictHtInitialSize]
    split_ifs <;> omega

/-! ## Runs -/

end

/-- One call; `canResize` is the value of `dict_can_resize` at that call. -/
inductive DictOp (K V : Type) where
  | add (canResize : Bool) (key : K) (val : V)
  | replace (canResize : Bool) (key : K) (val : V)
  | delete (key : K)
  | find (key : K)
  | expand (size : ℕ)
  | resize (canResize : Bool)
  | rehash (n : ℕ)

def dictStep (hash : K → UInt32) (d : Dict K V) : DictOp K V → Except Fault (Dict K V)
  | .add canResize key val => Prod.fst <$> dictAdd hash canResize d key val
  | .replace canResize key val => Prod.fst <$> dictReplace hash canResize d key val
  | .delete key => Prod.fst <$> dictDelete hash d key
  | .find key => Prod.fst <$> dictFind hash d key
  | .expand size => .ok (dictExpand d size).1
  | .resize canResize => .ok (dictResize canResize d).1
  | .rehash n => Prod.fst <$> dictRehash hash d n

def dictRun (hash : K → UInt32) (ops : List (DictOp K V)) : Except Fault (Dict K V) :=
  ops.foldlM (dictStep hash) dictCreate

def mapStep (m : K → Option V) : DictOp K V → K → Option V
  | .add _ key val => if m key = none then update m key (some val) else m
  | .replace _ key val => update m key (some val)
  | .delete key => update m key none
  | _ => m

def mapRun (ops : List (DictOp K V)) : K → Option V := ops.foldl mapStep fun _ => none

/-- The number of buckets a call asks for, directly or because its table is full. -/
def bucketRequest (d : Dict K V) : DictOp K V → ℕ
  | .add canResize _ _ | .replace canResize _ _ => growRequest canResize d
  | .expand size => size
  | .resize canResize => if canResize then dictSize d else 0
  | .delete _ | .find _ | .rehash _ => 0

/-- No call of a run asks for more buckets than an `int` can count through. -/
def RunFits (hash : K → UInt32) (ops : List (DictOp K V)) : Prop :=
  AllSteps (dictStep hash) (fun d op => bucketRequest d op ≤ maxBuckets) dictCreate ops

/-- A call keeps the invariant and acts as on a finite map. -/
theorem dictStep_spec (h : DictInv hash d) {op : DictOp K V}
    (hfit : bucketRequest d op ≤ maxBuckets) :
    ∃ d', dictStep hash d op = .ok d' ∧ DictInv hash d' ∧ d'.get hash = mapStep (d.get hash) op := by
  cases op with
  | add canResize key val =>
    obtain ⟨d', hadd, hinv, hget⟩ := dictAdd_spec h hfit key val
    refine ⟨d', by rw [dictStep, hadd]; rfl, hinv, funext fun k => ?_⟩
    rw [hget, mapStep]
    by_cases hnone : d.get hash key = none
    · simp only [hnone, and_true, if_true, update_apply]
    · simp [hnone]
  | replace canResize key val =>
    obtain ⟨d', hreplace, hinv, hget⟩ := dictReplace_spec h hfit key val
    refine ⟨d', by rw [dictStep, hreplace]; rfl, hinv, funext fun k => ?_⟩
    rw [hget, mapStep, update_apply]
  | delete key =>
    obtain ⟨d', hdelete, hinv, hget⟩ := dictDelete_spec h key
    refine ⟨d', by rw [dictStep, hdelete]; rfl, hinv, funext fun k => ?_⟩
    rw [hget, mapStep, update_apply]
  | find key =>
    obtain ⟨d', entry, hfind, hinv, hsame, -⟩ := dictFind_spec h key
    exact ⟨d', by rw [dictStep, hfind]; rfl, hinv, funext hsame.get_eq⟩
  | expand size =>
    obtain ⟨hinv, hsame⟩ := h.expand (show size ≤ maxBuckets from hfit)
    exact ⟨_, rfl, hinv, funext hsame.get_eq⟩
  | resize canResize =>
    obtain ⟨hinv, hsame⟩ := h.resize canResize fun hcan => by
      rwa [bucketRequest, if_pos hcan] at hfit
    exact ⟨_, rfl, hinv, funext hsame.get_eq⟩
  | rehash n =>
    obtain ⟨d', more, hrehash, hinv, hsame, -⟩ := h.rehash n
    exact ⟨d', by rw [dictStep, hrehash]; rfl, hinv, funext hsame.get_eq⟩

theorem dictRun_spec (ops : List (DictOp K V)) (hfit : RunFits hash ops) :
    ∃ d, dictRun hash ops = .ok d ∧ DictInv hash d ∧ d.get hash = mapRun ops := by
  rw [← meets_false_iff]
  refine Meets.simulate (fun d m => DictInv hash d ∧ d.get hash = m) ?_ ops dictCreate
    (fun _ => none) ⟨dictInv_dictCreate, rfl⟩ hfit
  rintro d m op ⟨hinv, rfl⟩ hreq
  exact meets_false_iff.2 (dictStep_spec hinv hreq)

/-! ## The representation -/

/-- The dictionary represents the finite map, and its bookkeeping is consistent. -/
structure Represents (hash : K → UInt32) (d : Dict K V) (m : K → Option V) : Prop where
  find_eq : ∀ k, ∃ d' entry, dictFind hash d k = .ok (d', entry) ∧ entry.map Prod.snd = m k
  keys_nodup : ((d.ht0.entries ++ d.ht1.entries).map DictEntry.key).Nodup
  used0_eq : d.ht0.used = d.ht0.entries.length
  used1_eq : d.ht1.used = d.ht1.entries.length
  moved : dictIsRehashing d → ∀ i : ℕ, (i : ℤ) < d.rehashidx → d.ht0.table i = []
  /-- The bucket-skipping loop stops inside the table. -/
  skip_lt : dictIsRehashing d → d.ht0.used ≠ 0 →
    ∃ j < d.ht0.size, skipEmpty d.ht0 (d.ht0.size + 1) d.rehashidx = .ok (j : ℤ)

theorem Rehashing.keys_nodup (h : Rehashing hash d) :
    ((d.ht0.entries ++ d.ht1.entries).map DictEntry.key).Nodup := by
  rw [List.map_append, List.nodup_append]
  refine ⟨h.ht0_wf.entries_nodup, h.ht1_wf.entries_nodup, ?_⟩
  intro k hk k' hk' heq
  obtain ⟨he, hhe, rfl⟩ := List.mem_map.1 hk
  obtain ⟨he', hhe', rfl⟩ := List.mem_map.1 hk'
  have hsome := h.ht0_wf.get_isSome_of_mem (h.ht0_wf.mem_entries.1 hhe)
  have hsome' := h.ht1_wf.get_isSome_of_mem (h.ht1_wf.mem_entries.1 hhe')
  rw [← heq, h.disjoint _ hsome] at hsome'
  cases hsome'

theorem DictInv.represents (h : DictInv hash d) : Represents hash d (d.get hash) := by
  have hfind : ∀ k, ∃ d' entry, dictFind hash d k = .ok (d', entry) ∧
      entry.map Prod.snd = d.get hash k := by
    intro k
    obtain ⟨d', entry, hfind, -, hsame, hentry⟩ := dictFind_spec h k
    refine ⟨d', entry, hfind, ?_⟩
    rw [hentry, ← hsame.get_eq, Dict.get]
    cases d'.ht0.get hash k <;> cases d'.ht1.get hash k <;> rfl
  rcases h with h | h
  · have hre : ¬ dictIsRehashing d = true := by
      rw [h.not_rehashing]
      decide
    have hht0 : (d.ht0.entries.map DictEntry.key).Nodup ∧ d.ht0.used = d.ht0.entries.length := by
      rcases h.ht0_wf with hreset | hwf
      · rw [hreset]
        exact ⟨List.nodup_nil, rfl⟩
      · exact ⟨hwf.entries_nodup, hwf.entries_length.symm⟩
    refine ⟨hfind, ?_, hht0.2, ?_, fun h' => absurd h' hre, fun h' => absurd h' hre⟩
    · rw [h.ht1_eq]
      simpa [Dictht.entries, dictReset] using hht0.1
    · rw [h.ht1_eq]
      rfl
  · refine ⟨hfind, h.keys_nodup, h.ht0_wf.entries_length.symm, h.ht1_wf.entries_length.symm,
      fun _ => h.moved, fun _ hused => ?_⟩
    obtain ⟨j, hj, -, -, -, hskip⟩ := h.next_bucket hused
    exact ⟨j, hj, hskip⟩

/-- A run that asks for no oversized table faults nowhere, and its dictionary represents the finite map
that the same calls build. -/
theorem dict_represents_finite_map (hash : K → UInt32) (ops : List (DictOp K V))
    (hfit : RunFits hash ops) : ∃ d, dictRun hash ops = .ok d ∧ Represents hash d (mapRun ops) := by
  obtain ⟨d, hrun, hinv, hget⟩ := dictRun_spec ops hfit
  refine ⟨d, hrun, ?_⟩
  rw [← hget]
  exact hinv.represents

/-- Three keys with one hash: one is replaced, one deleted, and a rehash moves the others. -/
def collidingOps : List (DictOp ℕ ℕ) :=
  [.add true 0 10, .add true 1 11, .replace true 0 12, .delete 1, .expand 16, .add false 2 13,
    .rehash 1, .find 0]

theorem dict_represents_finite_map_colliding : RunFits (fun _ : ℕ => 0) collidingOps ∧
      ∃ d, dictRun (fun _ => 0) collidingOps = .ok d ∧
        Represents (fun _ => 0) d (mapRun collidingOps) := by
  have hfit : RunFits (fun _ : ℕ => 0) collidingOps := by
    unfold RunFits
    decide +kernel
  exact ⟨hfit, dict_represents_finite_map _ _ hfit⟩

/-- In a table of `2 ^ 32` buckets the last index is `-1` as an `int`: `dictAdd` takes the key for
one that is already there and stores nothing. -/
theorem dictAdd_last_bucket_lost :
    (dictRun (fun _ : ℕ => 0xFFFFFFFF) [.expand (2 ^ 32), .add true 0 7] >>= fun d =>
        (fun r => r.2.map Prod.snd) <$> dictFind (fun _ => 0xFFFFFFFF) d 0) = .ok none ∧
      mapRun [.expand (2 ^ 32), .add true 0 7] 0 = some 7 := by
  constructor
  · rfl
  · rfl

end ServerStack.Redis.HashTable
