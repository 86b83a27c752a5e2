import ServerStack.Lib.Enumeration
import ServerStack.Redis.Dict.Iterator

/-!
# Walking a dictionary with a safe iterator

A walk is a sequence of `dictNext` calls with lookups, insertions, resizes and deletions of the last
returned entry in between.  From the first call on the dictionary counts an iterator, so no entry
changes its table, and the other calls leave the entries still to be returned as they are up to a
new one and a deleted one.
-/

namespace ServerStack.Redis.HashTable

open Outcome Enumeration List Function

variable {K V : Type} [DecidableEq K] {hash : K → UInt32}

/-! ## Entries with addresses -/

structure Heap (K V : Type) where
  d : Dict K (ℕ × V)
  fresh : ℕ

section

variable (hash : K → UInt32)

def Heap.address (h : Heap K V) (key : K) : Option ℕ :=
  (h.d.get hash key).map Prod.fst

def Heap.addresses (h : Heap K V) : List ℕ := h.d.entries.map DictEntry.address

/-- A call, with the address of the entry it stores into. -/
def DictOp.located (h : Heap K V) : DictOp K V → DictOp K (ℕ × V)
  | .add canResize key val => .add canResize key (h.fresh, val)
  | .replace canResize key val => .replace canResize key ((h.address hash key).getD h.fresh, val)
  | .delete key => .delete key
  | .find key => .find key
  | .expand size => .expand size
  | .resize canResize => .resize canResize
  | .rehash n => .rehash n

def heapStep (h : Heap K V) (op : DictOp K V) : Except Fault (Heap K V) := do
  let d ← dictStep hash h.d (op.located hash h)
  return { d := d, fresh := h.fresh + 1 }

def heapCreate : Heap K V := { d := dictCreate, fresh := 0 }

def heapRun (ops : List (DictOp K V)) : Except Fault (Heap K V) :=
  ops.foldlM (heapStep hash) heapCreate

/-- No call asks for more buckets than an `int` can count through. -/
def OpFits (h : Heap K V) (op : DictOp K V) : Prop :=
  bucketRequest h.d (op.located hash h) ≤ maxBuckets

end

structure HeapInv (hash : K → UInt32) (h : Heap K V) : Prop where
  inv : DictInv hash h.d
  below : ∀ k a v, h.d.get hash k = some (a, v) → a < h.fresh
  inj : ∀ k k' a v v', h.d.get hash k = some (a, v) → h.d.get hash k' = some (a, v') → k = k'

def DictOp.allocates : DictOp K V → Option K
  | .add _ key _ | .replace _ key _ => some key
  | _ => none

variable {a new : ℕ} {h : Heap K V} {d d' : Dict K (ℕ × V)} {gone : Option K}
  {ht : Dictht K (ℕ × V)} {key : K} {val : ℕ × V} {iter : DictIterator} {l : List (K × ℕ)}
  {x : K × ℕ}

/-- After a call every key has the address it had before, or the new one. -/
theorem HeapInv.get_located {op : DictOp K V} {k : K} {v : V}
    (hget : mapStep (h.d.get hash) (op.located hash h) k = some (a, v)) :
    (∃ v', h.d.get hash k = some (a, v')) ∨ a = h.fresh ∧ op.allocates = some k := by
  cases op with
  | add canResize key val =>
    simp only [DictOp.located, mapStep] at hget
    split_ifs at hget
    · rw [update_apply] at hget
      split_ifs at hget with hk
      · simp only [Option.some.injEq, Prod.mk.injEq] at hget
        exact .inr ⟨hget.1.symm, by rw [hk]; rfl⟩
      · exact .inl ⟨v, hget⟩
    · exact .inl ⟨v, hget⟩
  | replace canResize key val =>
    simp only [DictOp.located, mapStep, update_apply] at hget
    split_ifs at hget with hk
    · simp only [Option.some.injEq, Prod.mk.injEq] at hget
      rw [hk]
      unfold Heap.address at hget
      cases hold : h.d.get hash key with
      | none =>
        rw [hold] at hget
        exact .inr ⟨hget.1.symm, rfl⟩
      | some old =>
        rw [hold] at hget
        exact .inl ⟨old.2, by rw [← hget.1]; rfl⟩
    · exact .inl ⟨v, hget⟩
  | delete key =>
    simp only [DictOp.located, mapStep, update_apply] at hget
    split_ifs at hget
    exact .inl ⟨v, hget⟩
  | find key | expand size | resize canResize | rehash n => exact .inl ⟨v, hget⟩

theorem heapStep_spec (hinv : HeapInv hash h) {op : DictOp K V} (hfit : OpFits hash h op) :
    ∃ h', heapStep hash h op = .ok h' ∧ h'.fresh = h.fresh + 1 ∧
      dictStep hash h.d (op.located hash h) = .ok h'.d ∧ HeapInv hash h' ∧
      h'.d.get hash = mapStep (h.d.get hash) (op.located hash h) := by
  obtain ⟨d, hstep, hd, hget⟩ := dictStep_spec hinv.inv hfit
  refine ⟨⟨d, h.fresh + 1⟩, by rw [heapStep, hstep]; rfl, rfl, hstep, ⟨hd, ?_, ?_⟩, hget⟩
  · intro k a v hk
    rw [hget] at hk
    rcases HeapInv.get_located hk with ⟨v', hold⟩ | ⟨rfl, -⟩
    · exact Nat.lt_succ_of_lt (hinv.below k a v' hold)
    · exact Nat.lt_succ_self _
  · intro k k' a v v' hk hk'
    rw [hget] at hk hk'
    rcases HeapInv.get_located hk with ⟨w, hold⟩ | ⟨rfl, hnew⟩
    · rcases HeapInv.get_located hk' with ⟨w', hold'⟩ | ⟨rfl, -⟩
      · exact hinv.inj k k' a w w' hold hold'
      · exact absurd (hinv.below k _ w hold) (lt_irrefl _)
    · rcases HeapInv.get_located hk' with ⟨w', hold'⟩ | ⟨-, hnew'⟩
      · exact absurd (hinv.below k' _ w' hold') (lt_irrefl _)
      · exact Option.some.inj (hnew.symm.trans hnew')

theorem heapInv_heapCreate : HeapInv hash (heapCreate : Heap K V) :=
  ⟨dictInv_dictCreate, fun _ _ _ hget => (by cases hget), fun _ _ _ _ _ hget => (by cases hget)⟩

theorem heapRun_inv {ops : List (DictOp K V)} (hrun : heapRun hash ops = .ok h)
    (hfit : AllSteps (heapStep hash) (OpFits hash) heapCreate ops) : HeapInv hash h := by
  have hmeets : Meets (heapRun hash ops) (HeapInv hash) (fun _ => False) := by
    refine Meets.foldlM_of_allSteps (fun h op hinv hop => ?_) heapInv_heapCreate hfit
    obtain ⟨h', hstep, -, -, hinv', -⟩ := heapStep_spec hinv hop
    rw [hstep]
    exact hinv'
  exact hmeets.post hrun

theorem mem_entries_iff {d : Dict K V} (h : DictInv hash d) {he : DictEntry K V} :
    he ∈ d.entries ↔ d.get hash he.key = some he.val := by
  unfold Dict.entries
  rw [mem_append]
  constructor
  · unfold Dictht.entries
    simp only [mem_flatMap, mem_range]
    rintro (⟨i, -, hi⟩ | ⟨i, -, hi⟩)
    · exact h.get_of_mem (show he ∈ (d.ht .first).table i from hi)
    · exact h.get_of_mem (show he ∈ (d.ht .second).table i from hi)
  · intro hget
    have hin : ∀ ht : Dictht K V, ht.get hash he.key = some he.val →
        he ∈ ht.table (ht.index hash he.key) := by
      intro ht hsome
      obtain ⟨x, hx, hval⟩ := Option.map_eq_some_iff.1 hsome
      obtain ⟨hkey, hmem⟩ := key_of_findKey hx
      have : x = he := by
        cases x
        cases he
        simp_all
      rw [this] at hmem
      exact hmem
    rcases Option.or_eq_some_iff.1 hget with hfirst | ⟨-, hsecond⟩
    · have hmem := hin d.ht0 hfirst
      exact .inl ((h.ht_wf (show he ∈ (d.ht .first).table _ from hmem)).mem_entries.2 hmem)
    · have hmem := hin d.ht1 hsecond
      exact .inr ((h.ht_wf (show he ∈ (d.ht .second).table _ from hmem)).mem_entries.2 hmem)

theorem HeapInv.mem_addresses (hinv : HeapInv hash h) :
    a ∈ h.addresses ↔ ∃ k v, h.d.get hash k = some (a, v) := by
  unfold Heap.addresses
  rw [mem_map]
  constructor
  · rintro ⟨he, hmem, rfl⟩
    exact ⟨he.key, he.val.2, (mem_entries_iff hinv.inv).1 hmem⟩
  · rintro ⟨k, v, hget⟩
    exact ⟨⟨k, (a, v)⟩, (mem_entries_iff hinv.inv).2 hget, rfl⟩

theorem HeapInv.nodup_addresses (hinv : HeapInv hash h) : h.addresses.Nodup := by
  have hkeys := hinv.inv.represents.keys_nodup
  unfold Heap.addresses
  rw [nodup_iff_pairwise_ne, pairwise_map] at hkeys ⊢
  refine hkeys.imp_of_mem fun {he he'} hmem hmem' hne heq => hne ?_
  refine hinv.inj he.key he'.key he.address he.val.2 he'.val.2 ?_ ?_
  · exact (mem_entries_iff hinv.inv).1 hmem
  · rw [heq]
    exact (mem_entries_iff hinv.inv).1 hmem'

theorem HeapInv.located (hinv : HeapInv hash h) : Located hash h.d := by
  refine ⟨hinv.inv, fun t i t' i' he hmem he' hmem' heq => ?_⟩
  refine hinv.inj he.key he'.key he.address he.val.2 he'.val.2 (hinv.inv.get_of_mem hmem) ?_
  rw [heq]
  exact hinv.inv.get_of_mem hmem'

/-! ## What the other calls change -/

inductive Grown (d : Dict K V) : Dict K V → Prop where
  | same : Grown d d
  | first {size : ℕ} (h : d.ht0.size = 0) : Grown d { d with ht0 := callocTable size }
  | second {size : ℕ} (h : dictIsRehashing d = false) :
      Grown d { d with ht1 := callocTable size, rehashidx := 0 }

omit [DecidableEq K] in
theorem grown_dictExpand (d : Dict K V) (size : ℕ) : Grown d (dictExpand d size).1 := by
  rw [dictExpand_eq]
  split_ifs with hrefused hfirst
  · exact .same
  · exact .first hfirst
  · exact .second (by simpa using fun hre => hrefused (.inl hre))

omit [DecidableEq K] in
theorem grown_dictResize (canResize : Bool) (d : Dict K V) : Grown d (dictResize canResize d).1 := by
  unfold dictResize
  split_ifs
  · exact .same
  · exact grown_dictExpand d _

omit [DecidableEq K] in
theorem grown_dictExpandIfNeeded (canResize : Bool) (d : Dict K V) :
    Grown d (dictExpandIfNeeded canResize d).1 := by
  unfold dictExpandIfNeeded
  split_ifs
  · exact .same
  · exact grown_dictExpand d _
  · exact grown_dictExpand d _
  · exact .same

/-- The cells of a chain after a call: a new one in front, or those of one key removed. -/
def CellEdit (new : ℕ) (gone : Option K) (c c' : List (K × ℕ)) : Prop :=
  c' = c ∨ (∃ k, c' = (k, new) :: c) ∨ ∃ k, gone = some k ∧ c' = c.filter fun x => decide (x.1 ≠ k)

structure Edited (new : ℕ) (gone : Option K) (d d' : Dict K (ℕ × V)) : Prop where
  rehashidx_eq : d'.rehashidx = d.rehashidx
  iterators_eq : d'.iterators = d.iterators
  size_eq : ∀ t, (d'.ht t).size = (d.ht t).size
  cells : ∀ t i, CellEdit new gone ((d.ht t).cells i) ((d'.ht t).cells i)

theorem edited_refl (new : ℕ) (gone : Option K) (d : Dict K (ℕ × V)) : Edited new gone d d :=
  ⟨rfl, rfl, fun _ => rfl, fun _ _ => .inl rfl⟩

theorem edited_first (hsize : ht.size = d.ht0.size)
    (hcells : ∀ i, CellEdit new gone (d.ht0.cells i) (ht.cells i)) :
    Edited new gone d { d with ht0 := ht } := by
  refine ⟨rfl, rfl, fun t => ?_, fun t i => ?_⟩
  · cases t with
    | first => exact hsize
    | second => rfl
  · cases t with
    | first => exact hcells i
    | second => exact .inl rfl

theorem edited_second (hsize : ht.size = d.ht1.size)
    (hcells : ∀ i, CellEdit new gone (d.ht1.cells i) (ht.cells i)) :
    Edited new gone d { d with ht1 := ht } := by
  refine ⟨rfl, rfl, fun t => ?_, fun t i => ?_⟩
  · cases t with
    | first => rfl
    | second => exact hsize
  · cases t with
    | first => exact .inl rfl
    | second => exact hcells i

theorem cellEdit_push (ht : Dictht K (ℕ × V)) (i : ℕ) (he : DictEntry K (ℕ × V)) (gone : Option K)
    (j : ℕ) : CellEdit he.address gone (ht.cells j) ((ht.push i he).cells j) := by
  unfold Dictht.push Dictht.cells
  simp only [update_apply]
  split_ifs with hij
  · exact .inr (.inl ⟨he.key, by rw [hij]; rfl⟩)
  · exact .inl rfl

omit [DecidableEq K] in
theorem cells_updateChain (ht : Dictht K (ℕ × V)) (key : K)
    (f : List (DictEntry K (ℕ × V)) → List (DictEntry K (ℕ × V))) (j : ℕ) :
    (ht.updateChain hash key f).cells j =
      if j = ht.index hash key then (f (ht.table j)).map DictEntry.cell else ht.cells j := by
  unfold Dictht.updateChain Dictht.cells
  simp only [update_apply]
  split_ifs with hj
  · rw [hj]
  · rfl

theorem map_cell_setVal {chain : List (DictEntry K (ℕ × V))}
    (h : ∀ he, findKey key chain = some he → he.address = val.1) :
    (setVal key val chain).map DictEntry.cell = chain.map DictEntry.cell := by
  induction chain with
  | nil => rfl
  | cons he chain ih =>
    simp only [setVal]
    simp only [findKey_cons] at h
    split_ifs with hkey
    · rw [map_cons, map_cons]
      have := h he (if_pos hkey)
      simp only [DictEntry.cell, DictEntry.address] at this ⊢
      rw [this]
    · rw [map_cons, map_cons, ih fun x hx => h x (by rw [if_neg hkey]; exact hx)]

theorem map_cell_eraseP {chain : List (DictEntry K (ℕ × V))} (h : (chain.map DictEntry.key).Nodup) :
    (chain.eraseP fun he => decide (key = he.key)).map DictEntry.cell =
      (chain.map DictEntry.cell).filter fun x => decide (x.1 ≠ key) := by
  induction chain with
  | nil => rfl
  | cons he chain ih =>
    rw [map_cons, nodup_cons] at h
    by_cases hkey : key = he.key
    · rw [eraseP_cons_of_pos (by simpa using hkey), map_cons,
        filter_cons_of_neg (by simp [DictEntry.cell, hkey])]
      refine (filter_eq_self.2 fun x hx => ?_).symm
      obtain ⟨y, hy, rfl⟩ := mem_map.1 hx
      have hne : y.key ≠ key := fun heq =>
        h.1 (mem_map.2 ⟨y, hy, heq.trans hkey⟩)
      exact decide_eq_true hne
    · have hkeep : decide (he.cell.1 ≠ key) = true := decide_eq_true (Ne.symm hkey)
      rw [eraseP_cons_of_neg (by simpa using hkey), map_cons, map_cons, ih h.2,
        filter_cons, if_pos hkeep]

/-- A table may have been allocated, and then one chain was changed. -/
def Evolves (hash : K → UInt32) (new : ℕ) (gone : Option K) (d d' : Dict K (ℕ × V)) : Prop :=
  ∃ d₁, Grown d d₁ ∧ DictInv hash d₁ ∧ Edited new gone d₁ d'

omit [DecidableEq K] in
theorem Grown.iterators_eq {d d₁ : Dict K V} (h : Grown d d₁) : d₁.iterators = d.iterators := by
  cases h <;> rfl

omit [DecidableEq K] in
theorem dictRehashStep_of_iterators {d : Dict K V} (h : d.iterators ≠ 0) :
    dictRehashStep hash d = .ok d := by
  unfold dictRehashStep
  rw [if_neg fun hstep => h hstep.2]

theorem dictFind_fst {d d' : Dict K V} (h : d.iterators ≠ 0) {entry : Option (Which × V)}
    (hfind : dictFind hash d key = .ok (d', entry)) : d' = d := by
  unfold dictFind at hfind
  rw [dictRehashStep_of_iterators h] at hfind
  split_ifs at hfind
  · exact (Prod.mk.inj (Except.ok.inj hfind)).1.symm
  · simp only [bind, Except.bind] at hfind
    cases hsearch : searchEntry hash d key with
    | error e =>
      rw [hsearch] at hfind
      cases hfind
    | ok he =>
      rw [hsearch] at hfind
      exact (Prod.mk.inj (Except.ok.inj hfind)).1.symm

theorem dictAdd_evolves (h : DictInv hash d) (hiter : d.iterators ≠ 0) {canResize : Bool}
    (hsmall : growRequest canResize d ≤ maxBuckets) (key : K) (val : ℕ × V) (gone : Option K) :
    ∃ d₁ d', dictAdd hash canResize d key val = .ok (d', (d.get hash key).isNone) ∧ Grown d d₁ ∧
      DictInv hash d₁ ∧ Edited val.1 gone d₁ d' ∧
      ((d.get hash key).isSome → d' = d₁ ∧ d₁.get hash = d.get hash ∧ d₁.ht0.WF hash) := by
  obtain ⟨d₁, hexpand, hinv, hsame, hwf⟩ := h.expandIfNeeded canResize hsmall
  have hgrown := grown_dictExpandIfNeeded canResize d
  rw [hexpand] at hgrown
  simp only [dictAdd, dictRehashStep_of_iterators hiter, dictKeyIndex, hexpand,
    searchIndex_eq hinv hwf, hsame.get_eq, bind, Except.bind, pure, Except.pure]
  cases hget : d.get hash key with
  | none =>
    have hsplit : ∀ n : ℕ, ((n : ℤ) = -1) = False := fun n => eq_false (by omega)
    rcases hinv with hidle | hre
    · refine ⟨d₁, { d₁ with ht0 := d₁.ht0.push (d₁.ht0.index hash key) ⟨key, val⟩ }, ?_, hgrown,
        .inl hidle, edited_first rfl (cellEdit_push _ _ _ _), fun hsome => by cases hsome⟩
      simp [hidle.not_rehashing, hsplit, hwf.bucket_index]
    · refine ⟨d₁, { d₁ with ht1 := d₁.ht1.push (d₁.ht1.index hash key) ⟨key, val⟩ }, ?_, hgrown,
        .inr hre, edited_second rfl (cellEdit_push _ _ _ _), fun hsome => by cases hsome⟩
      simp [hre.rehashing, hsplit, hre.ht1_wf.bucket_index]
  | some v =>
    exact ⟨d₁, d₁, by simp, hgrown, hinv, edited_refl _ _ _,
      fun _ => ⟨rfl, funext hsame.get_eq, hwf⟩⟩

theorem cells_setVal (h : ∀ old, ht.get hash key = some old → old.1 = val.1) (i : ℕ) :
    (ht.updateChain hash key (setVal key val)).cells i = ht.cells i := by
  rw [cells_updateChain]
  split_ifs with hi
  · rw [map_cell_setVal fun he hfind => ?_]
    · rfl
    · refine h he.val ?_
      unfold Dictht.get
      rw [← hi, hfind]
      rfl
  · rfl

theorem dictReplace_evolves {added : Bool} (h : DictInv hash d) (hiter : d.iterators ≠ 0)
    {canResize : Bool} (hsmall : growRequest canResize d ≤ maxBuckets)
    (hnew : d.get hash key = none → val.1 = new)
    (hval : ∀ old, d.get hash key = some old → old.1 = val.1)
    (hreplace : dictReplace hash canResize d key val = .ok (d', added)) (gone : Option K) :
    Evolves hash new gone d d' := by
  obtain ⟨d₁, d₂, hadd, hgrown, hinv, hedited, hpresent⟩ :=
    dictAdd_evolves h hiter hsmall key val gone
  unfold dictReplace at hreplace
  simp only [hadd, bind, Except.bind] at hreplace
  cases hget : d.get hash key with
  | none =>
    rw [hget] at hreplace
    cases hreplace
    rw [hnew hget] at hedited
    exact ⟨d₁, hgrown, hinv, hedited⟩
  | some old =>
    obtain ⟨rfl, hsame, hwf⟩ := hpresent (by rw [hget]; rfl)
    obtain ⟨d₃, entry, hfind, -, -, hentry⟩ := dictFind_spec hinv key
    obtain rfl := dictFind_fst (by rwa [hgrown.iterators_eq]) hfind
    simp only [hget, Option.isNone_some, Bool.false_eq_true, if_false, hfind, hentry] at hreplace
    refine ⟨d₃, hgrown, hinv, ?_⟩
    have hold : ∀ x, d₃.get hash key = some x → x.1 = val.1 := fun x hx =>
      hval x (by rwa [hsame] at hx)
    unfold Dict.get at hold
    cases h0 : d₃.ht0.get hash key with
    | none =>
      cases h1 : d₃.ht1.get hash key with
      | none =>
        rw [h0, h1] at hreplace
        cases hreplace
      | some v₁ =>
        rw [h0, h1] at hreplace
        cases hreplace
        refine edited_second rfl fun i => .inl (cells_setVal (fun x hx => hold x ?_) i)
        rw [h0, hx]
        rfl
    | some v₀ =>
      rw [h0] at hreplace
      cases hreplace
      refine edited_first rfl fun i => .inl (cells_setVal (fun x hx => hold x ?_) i)
      rw [hx]
      rfl

theorem cellEdit_unlink (hwf : ht.WF hash) (key : K) (new : ℕ) (i : ℕ) :
    CellEdit new (some key) (ht.cells i) ((ht.unlink hash key).cells i) := by
  have hcells : (ht.unlink hash key).cells i = (ht.updateChain hash key _).cells i := rfl
  rw [hcells, cells_updateChain]
  split_ifs
  · exact .inr (.inr ⟨key, rfl, map_cell_eraseP (hwf.nodup i)⟩)
  · exact .inl rfl

theorem dictDelete_evolves {done : Bool} (h : DictInv hash d) (hiter : d.iterators ≠ 0)
    (hdelete : dictDelete hash d key = .ok (d', done)) (new : ℕ) :
    Evolves hash new (some key) d d' := by
  refine ⟨d, .same, h, ?_⟩
  unfold dictDelete at hdelete
  rw [dictRehashStep_of_iterators hiter] at hdelete
  split_ifs at hdelete with hsize
  · cases hdelete
    exact edited_refl _ _ _
  · simp only [bind, Except.bind, searchEntry_eq h (h.ht0_wf hsize)] at hdelete
    cases h0 : d.ht0.get hash key with
    | none =>
      cases h1 : d.ht1.get hash key with
      | none =>
        rw [h0, h1] at hdelete
        cases hdelete
        exact edited_refl _ _ _
      | some v =>
        rw [h0, h1] at hdelete
        cases hdelete
        obtain ⟨hre, -⟩ := h.rehashing_of_second (by rw [h1]; rfl)
        exact edited_second rfl (cellEdit_unlink hre.ht1_wf key new)
    | some v =>
      rw [h0] at hdelete
      cases hdelete
      exact edited_first rfl (cellEdit_unlink (h.ht0_wf hsize) key new)

/-! ## The cells still to be returned -/

theorem Edited.atCursor (h : Edited new gone d d') (hat : AtCursor d iter l)
    (hl : ∀ x ∈ l, gone ≠ some x.1) : AtCursor d' iter l := by
  refine ⟨hat.index_ge, hat.unstarted, fun hsecond => ?_, hat.null, fun hne => ?_⟩
  · have hre := hat.second hsecond
    unfold dictIsRehashing at hre ⊢
    rwa [h.rehashidx_eq]
  · obtain ⟨⟨i, hi, hlt, pre, hpre⟩, hnext⟩ := hat.inside hne
    refine ⟨⟨i, hi, by rwa [h.size_eq], ?_⟩, hnext⟩
    rcases h.cells iter.table i with heq | ⟨k, heq⟩ | ⟨k, hk, heq⟩
    · exact ⟨pre, by rw [heq, hpre]⟩
    · exact ⟨(k, new) :: pre, by rw [heq, ← hpre, cons_append]⟩
    · refine ⟨pre.filter fun x => decide (x.1 ≠ k), ?_⟩
      rw [heq, ← hpre, filter_append]
      congr 1
      refine (filter_eq_self.2 fun x hx => ?_).symm
      exact decide_eq_true fun hkey => hl x hx (by rw [hk, hkey])

theorem Edited.mem_old (h : Edited new gone d d') {t : Which} {i : ℕ}
    (hx : x ∈ (d'.ht t).cellsFrom i) : x ∈ (d.ht t).cellsFrom i ∨ x.2 = new := by
  obtain ⟨j, hij, hj, hmem⟩ := mem_cellsFrom.1 hx
  rw [h.size_eq] at hj
  rcases h.cells t j with heq | ⟨k, heq⟩ | ⟨k, -, heq⟩
  · exact .inl (mem_cellsFrom.2 ⟨j, hij, hj, heq ▸ hmem⟩)
  · rw [heq] at hmem
    rcases mem_cons.1 hmem with rfl | hmem
    · exact .inr rfl
    · exact .inl (mem_cellsFrom.2 ⟨j, hij, hj, hmem⟩)
  · rw [heq] at hmem
    exact .inl (mem_cellsFrom.2 ⟨j, hij, hj, (mem_filter.1 hmem).1⟩)

theorem Edited.mem_kept (h : Edited new gone d d') {t : Which} {i : ℕ}
    (hx : x ∈ (d.ht t).cellsFrom i) : x ∈ (d'.ht t).cellsFrom i ∨ gone = some x.1 := by
  obtain ⟨j, hij, hj, hmem⟩ := mem_cellsFrom.1 hx
  rw [← h.size_eq] at hj
  rcases h.cells t j with heq | ⟨k, heq⟩ | ⟨k, hk, heq⟩
  · exact .inl (mem_cellsFrom.2 ⟨j, hij, hj, heq ▸ hmem⟩)
  · exact .inl (mem_cellsFrom.2 ⟨j, hij, hj, heq ▸ mem_cons_of_mem _ hmem⟩)
  · by_cases hkey : x.1 = k
    · exact .inr (by rw [hk, hkey])
    · refine .inl (mem_cellsFrom.2 ⟨j, hij, hj, ?_⟩)
      rw [heq]
      exact mem_filter.2 ⟨hmem, decide_eq_true hkey⟩

omit [DecidableEq K] in
theorem mem_laterCells :
    x ∈ laterCells d iter ↔ x ∈ (d.ht iter.table).cellsFrom (iter.index + 1).toNat ∨
      iter.table = .first ∧ x ∈ (d.ht .second).cellsFrom 0 := by
  unfold laterCells
  rw [mem_append]
  by_cases hfirst : iter.table = .first
  · rw [if_pos hfirst]
    simp [hfirst, Dict.ht]
  · rw [if_neg hfirst]
    simp [hfirst]

theorem Grown.atCursor {d₁ : Dict K (ℕ × V)} (h : DictInv hash d) (hgrown : Grown d d₁)
    (hat : AtCursor d iter l) :
    AtCursor d₁ iter l ∧ ∀ x, x ∈ laterCells d₁ iter ↔ x ∈ laterCells d iter := by
  have hcalloc : ∀ size i, (callocTable size : Dictht K (ℕ × V)).cellsFrom i = [] := by
    intro size i
    exact flatMap_eq_nil_iff.2 fun _ _ => rfl
  cases hgrown with
  | same => exact ⟨hat, fun _ => Iff.rfl⟩
  | first hsize =>
    have hnil : ∀ i, d.ht0.cellsFrom i = [] := fun i =>
      cellsFrom_of_le (by rw [hsize]; exact Nat.zero_le i)
    constructor
    · refine ⟨hat.index_ge, hat.unstarted, hat.second, hat.null, fun hne => ?_⟩
      obtain ⟨⟨i, hi, hlt, hsuffix⟩, hnext⟩ := hat.inside hne
      cases htable : iter.table with
      | first =>
        rw [htable] at hlt
        change i < d.ht0.size at hlt
        omega
      | second =>
        rw [htable] at hlt hsuffix
        exact ⟨⟨i, hi, by rw [htable]; exact hlt, by rw [htable]; exact hsuffix⟩, hnext⟩
    · intro x
      rw [mem_laterCells, mem_laterCells]
      cases htable : iter.table with
      | first => simp [Dict.ht, hcalloc, hnil]
      | second => simp [Dict.ht]
  | second hre =>
    have hidle : Idle hash d := by
      rcases h with h | h
      · exact h
      · rw [h.rehashing] at hre
        cases hre
    have hfirst : iter.table = .first := by
      cases htable : iter.table with
      | first => rfl
      | second =>
        rw [hat.second htable] at hre
        cases hre
    constructor
    · refine ⟨hat.index_ge, hat.unstarted, fun hsecond => ?_, hat.null, fun hne => ?_⟩
      · rw [hfirst] at hsecond
        cases hsecond
      · obtain ⟨⟨i, hi, hlt, hsuffix⟩, hnext⟩ := hat.inside hne
        rw [hfirst] at hlt hsuffix
        exact ⟨⟨i, hi, by rw [hfirst]; exact hlt, by rw [hfirst]; exact hsuffix⟩, hnext⟩
    · intro x
      have hnil : d.ht1.cellsFrom 0 = [] := by
        rw [hidle.ht1_eq]
        rfl
      rw [mem_laterCells, mem_laterCells]
      simp [hfirst, Dict.ht, hcalloc, hnil]

omit [DecidableEq K] in
theorem mem_pending_of {P : Prop}
    (h : ∀ t i, x ∈ (d.ht t).cellsFrom i → x ∈ (d'.ht t).cellsFrom i ∨ P)
    (hx : x ∈ l ++ laterCells d iter) : x ∈ l ++ laterCells d' iter ∨ P := by
  rw [mem_append, mem_laterCells] at hx ⊢
  rcases hx with hx | hx | ⟨hfirst, hx⟩
  · exact .inl (.inl hx)
  · exact (h _ _ hx).imp_left fun hx => .inr (.inl hx)
  · exact (h _ _ hx).imp_left fun hx => .inr (.inr ⟨hfirst, hx⟩)

theorem Evolves.pending (h : DictInv hash d) (hevolves : Evolves hash new gone d d')
    (hat : AtCursor d iter l) (hl : ∀ x ∈ l, gone ≠ some x.1) :
    AtCursor d' iter l ∧ d'.iterators = d.iterators ∧
      (∀ x ∈ l ++ laterCells d' iter, x ∈ l ++ laterCells d iter ∨ x.2 = new) ∧
      ∀ x ∈ l ++ laterCells d iter, x ∈ l ++ laterCells d' iter ∨ gone = some x.1 := by
  obtain ⟨d₁, hgrown, -, hedited⟩ := hevolves
  obtain ⟨hat₁, hlater⟩ := hgrown.atCursor h hat
  have hlater : ∀ x, x ∈ l ++ laterCells d iter ↔ x ∈ l ++ laterCells d₁ iter := fun x => by
    rw [mem_append, mem_append, hlater]
  refine ⟨hedited.atCursor hat₁ hl, hedited.iterators_eq.trans hgrown.iterators_eq, ?_, ?_⟩
  · intro x hx
    rw [hlater]
    exact mem_pending_of (fun t i => hedited.mem_old) hx
  · intro x hx
    rw [hlater] at hx
    exact mem_pending_of (fun t i => hedited.mem_kept) hx

omit [DecidableEq K] in
theorem AtCursor.sublist (hat : AtCursor d iter l) :
    (l ++ laterCells d iter).Sublist (d.entries.map DictEntry.cell) := by
  have hall : d.entries.map DictEntry.cell = d.ht0.cellsFrom 0 ++ d.ht1.cellsFrom 0 := by
    unfold Dict.entries
    rw [map_append, cellsFrom_zero, cellsFrom_zero]
  have hfrom : ∀ (ht : Dictht K (ℕ × V)) i, (ht.cellsFrom i).Sublist (ht.cellsFrom 0) := by
    intro ht i
    unfold Dictht.cellsFrom
    rw [drop_zero]
    exact (drop_sublist _ _).flatMap _
  have hcurrent : (l ++ (d.ht iter.table).cellsFrom (iter.index + 1).toNat).Sublist
      ((d.ht iter.table).cellsFrom 0) := by
    by_cases hnull : iter.entry = none
    · rw [hat.null hnull, nil_append]
      exact hfrom _ _
    · obtain ⟨⟨i, hi, hlt, hsuffix⟩, -⟩ := hat.inside hnull
      refine List.Sublist.trans ?_ (hfrom _ i)
      rw [cellsFrom_of_lt hlt, hi]
      exact hsuffix.sublist.append (List.Sublist.refl _)
  unfold laterCells
  rw [hall, ← append_assoc]
  cases htable : iter.table with
  | first =>
    rw [htable] at hcurrent
    rw [if_pos rfl]
    exact hcurrent.append (List.Sublist.refl _)
  | second =>
    rw [htable] at hcurrent
    rw [if_neg (by decide), append_nil]
    exact hcurrent.trans (sublist_append_right _ _)

/-! ## Walks -/

/-- The calls made during a walk; the key deleted is that of the entry returned last. -/
inductive WalkCall (K V : Type) where
  | next
  | find (key : K)
  | add (canResize : Bool) (key : K) (val : V)
  | replace (canResize : Bool) (key : K) (val : V)
  | resize (canResize : Bool)
  | deleteReturned

structure Walk (K V : Type) where
  heap : Heap K V
  iter : DictIterator
  /-- The key of the entry returned last. -/
  last : Option K
  log : List (Event ℕ)

variable {w : Walk K V}

def startWalk (h : Heap K V) : Walk K V :=
  { heap := h, iter := dictGetSafeIterator, last := none, log := [] }

def WalkCall.dictOp (last : Option K) : WalkCall K V → Option (DictOp K V)
  | .next => none
  | .find key => some (.find key)
  | .add canResize key val => some (.add canResize key val)
  | .replace canResize key val => some (.replace canResize key val)
  | .resize canResize => some (.resize canResize)
  | .deleteReturned => last.map .delete

section

variable (hash : K → UInt32)

def DictOp.frees (h : Heap K V) : DictOp K V → List ℕ
  | .delete key => (h.address hash key).toList
  | _ => []

variable (w : Walk K V)

/-- The effect of a call of `dictNext` on a walk. -/
def Walk.afterNext (d : Dict K (ℕ × V)) (iter : DictIterator) :
    Option (DictEntry K (ℕ × V)) → Walk K V
  | none => { w with heap := { w.heap with d := d }, iter := iter, log := w.log ++ [.exhausted] }
  | some he =>
    { heap := { w.heap with d := d }, iter := iter, last := some he.key,
      log := w.log ++ [.returned he.address] }

def walkOp (op : DictOp K V) : Except Fault (Walk K V) := do
  let heap ← heapStep hash w.heap op
  return { w with heap := heap, log := w.log ++ (op.frees hash w.heap).map .deleted }

def walkStep (call : WalkCall K V) : Except Fault (Walk K V) :=
  match call with
  | .next => do
    let (d, iter, entry) ← dictNext w.heap.d w.iter
    return w.afterNext d iter entry
  | call =>
    match call.dictOp w.last with
    | none => .ok w
    | some op => walkOp hash w op

/-- The condition on one call: no oversized table, and an index that is not the last `int`. -/
def CallFits (call : WalkCall K V) : Prop :=
  match call with
  | .next => w.iter.index + 1 < 2 ^ 31
  | call => ∀ op ∈ call.dictOp w.last, OpFits hash w.heap op

end

/-- The entry at the address is in the dictionary when `dictNext` is called, up to the call that
returns NULL. -/
def Stays (a : ℕ) (w : Walk K V) (call : WalkCall K V) : Prop :=
  match call with
  | .next => .exhausted ∉ w.log → a ∈ w.heap.addresses
  | _ => True

instance (h : Heap K V) : DecidablePred (OpFits hash h) := fun _ =>
  inferInstanceAs (Decidable (_ ≤ _))

instance (w : Walk K V) : DecidablePred (CallFits hash w)
  | .next => inferInstanceAs (Decidable (_ < _))
  | .find _ | .add _ _ _ | .replace _ _ _ | .resize _ | .deleteReturned =>
    inferInstanceAs (Decidable (∀ op ∈ _, OpFits hash w.heap op))

def Walk.state (w : Walk K V) (l : List (K × ℕ)) : State ℕ :=
  { live := {a | a ∈ w.heap.addresses}
    seen := {a | a < w.heap.fresh}
    pending := (l ++ laterCells w.heap.d w.iter).map Prod.snd
    log := w.log }

structure WalkInv (hash : K → UInt32) (w : Walk K V) (l : List (K × ℕ)) : Prop where
  heap : HeapInv hash w.heap
  cursor : AtCursor w.heap.d w.iter l
  last : ∀ x ∈ l, w.last ≠ some x.1
  started : w.iter.index ≠ -1 → 0 < w.heap.d.iterators
  unstarted : w.iter.index = -1 → w.iter = dictGetSafeIterator
  log : Unstarted w.log → w.iter.index = -1
  enumeration : Enumeration.Inv (w.state l)

omit [DecidableEq K] in
theorem pending_start (d : Dict K (ℕ × V)) :
    laterCells d dictGetSafeIterator = d.entries.map DictEntry.cell := by
  unfold laterCells Dict.entries
  rw [map_append, ← cellsFrom_zero, ← cellsFrom_zero]
  rfl

omit [DecidableEq K] in
theorem atCursor_start (d : Dict K (ℕ × V)) : AtCursor d dictGetSafeIterator [] :=
  ⟨le_rfl, fun _ => rfl, fun h => (by cases h), fun _ => rfl, fun h => absurd rfl h⟩

omit [DecidableEq K] in
theorem map_snd_entries (h : Heap K V) :
    (h.d.entries.map DictEntry.cell).map Prod.snd = h.addresses := by
  rw [map_map]
  rfl

theorem walkInv_start (hinv : HeapInv hash h) : WalkInv hash (startWalk h) [] := by
  have hpending : ((startWalk h).state []).pending = h.addresses := by
    change ([] ++ laterCells h.d dictGetSafeIterator).map Prod.snd = h.addresses
    rw [nil_append, pending_start, map_snd_entries]
  refine ⟨hinv, atCursor_start _, fun x hx => (by cases hx), fun hne => absurd rfl hne,
    fun _ => rfl, fun _ => rfl, ?_⟩
  constructor
  · intro a ha
    obtain ⟨k, v, hget⟩ := hinv.mem_addresses.1 ha
    exact hinv.below k a v hget
  · rw [hpending]
    exact hinv.nodup_addresses
  · intro a ha
    rwa [hpending] at ha
  · intro _ a ha
    rwa [hpending]
  · exact fun a => Nat.zero_le 1
  · exact fun a ha => by cases ha
  · exact fun a ha => by cases ha
  · exact fun a ha => by cases ha
  · exact fun a ha => by cases ha
  · exact List.Pairwise.nil

/-- The calls that may be made between two calls of `dictNext`. -/
def DictOp.Allowed (last : Option K) : DictOp K V → Prop
  | .delete key => last = some key
  | .expand _ | .rehash _ => False
  | _ => True

def DictOp.removes : DictOp K V → Option K
  | .delete key => some key
  | _ => none

omit [DecidableEq K] in
theorem allowed_dictOp {last : Option K} {call : WalkCall K V} {op : DictOp K V}
    (h : call.dictOp last = some op) : op.Allowed last := by
  cases call with
  | next => cases h
  | deleteReturned =>
    obtain ⟨key, hkey, rfl⟩ := Option.map_eq_some_iff.1 h
    exact hkey
  | find | add | replace | resize =>
    rw [← Option.some.inj h]
    trivial

theorem dictStep_evolves (hinv : HeapInv hash h) (hiter : h.d.iterators ≠ 0) {op : DictOp K V}
    {last : Option K} (hop : op.Allowed last) (hfit : OpFits hash h op)
    (hstep : dictStep hash h.d (op.located hash h) = .ok d) :
    Evolves hash h.fresh op.removes h.d d := by
  cases op with
  | add canResize key val =>
    obtain ⟨d₁, d', hadd, hgrown, hinv₁, hedited, -⟩ :=
      dictAdd_evolves hinv.inv hiter hfit key (h.fresh, val) none
    simp only [DictOp.located, dictStep, hadd] at hstep
    cases hstep
    exact ⟨d₁, hgrown, hinv₁, hedited⟩
  | replace canResize key val =>
    obtain ⟨d', hreplace, -⟩ := dictReplace_spec hinv.inv hfit key
      ((h.address hash key).getD h.fresh, val)
    simp only [DictOp.located, dictStep, hreplace] at hstep
    cases hstep
    refine dictReplace_evolves hinv.inv hiter hfit (fun hnone => ?_) (fun old hold => ?_) hreplace _
    · simp [Heap.address, hnone]
    · simp [Heap.address, hold]
  | delete key =>
    obtain ⟨d', hdelete, -⟩ := dictDelete_spec hinv.inv key
    simp only [DictOp.located, dictStep, hdelete] at hstep
    cases hstep
    exact dictDelete_evolves hinv.inv hiter hdelete _
  | find key =>
    obtain ⟨d', entry, hfind, -⟩ := dictFind_spec hinv.inv key
    simp only [DictOp.located, dictStep, hfind] at hstep
    cases hstep
    rw [dictFind_fst hiter hfind]
    exact ⟨h.d, .same, hinv.inv, edited_refl _ _ _⟩
  | resize canResize =>
    cases hstep
    have hsmall : canResize = true → dictSize h.d ≤ maxBuckets := fun hcan => by
      unfold OpFits at hfit
      rwa [DictOp.located, bucketRequest, if_pos hcan] at hfit
    exact ⟨_, grown_dictResize canResize h.d, (hinv.inv.resize canResize hsmall).1,
      edited_refl _ _ _⟩
  | expand size | rehash n => exact hop.elim

theorem mem_frees {op : DictOp K V} (ha : a ∈ op.frees hash h) :
    ∃ key v, op = .delete key ∧ h.d.get hash key = some (a, v) := by
  cases op with
  | delete key =>
    have haddress : h.address hash key = some a := by simpa [DictOp.frees] using ha
    obtain ⟨⟨a', v⟩, hget, rfl⟩ := Option.map_eq_some_iff.1 haddress
    exact ⟨key, v, rfl, hget⟩
  | add | replace | find | expand | resize | rehash => cases ha

theorem HeapInv.not_mem_of_delete {h' : Heap K V} (hinv : HeapInv hash h) {v : V}
    (hinv' : HeapInv hash h')
    (hget : h'.d.get hash = mapStep (h.d.get hash) ((.delete key : DictOp K V).located hash h))
    (hkey : h.d.get hash key = some (a, v)) : a ∉ h'.addresses := by
  intro ha
  obtain ⟨k, v', hk⟩ := hinv'.mem_addresses.1 ha
  simp only [hget, DictOp.located, mapStep, update_apply] at hk
  split_ifs at hk with hne
  exact hne (hinv.inj k key a v' v hk hkey)

theorem WalkInv.op (h : WalkInv hash w l) {op : DictOp K V} (hop : op.Allowed w.last)
    (hfit : OpFits hash w.heap op) :
    ∃ w', walkOp hash w op = .ok w' ∧ WalkInv hash w' l ∧
      Edits (w.state l) (op.frees hash w.heap) (w'.state l) := by
  obtain ⟨h', hstep, hfresh, hdict, hinv, hget⟩ := heapStep_spec h.heap hfit
  have hold : ∀ a ∈ h'.addresses, a < w.heap.fresh → a ∈ w.heap.addresses := by
    intro a ha hlt
    obtain ⟨k, v, hk⟩ := hinv.mem_addresses.1 ha
    rw [hget] at hk
    rcases HeapInv.get_located hk with ⟨v', hv'⟩ | ⟨rfl, -⟩
    · exact h.heap.mem_addresses.2 ⟨k, v', hv'⟩
    · exact absurd hlt (lt_irrefl _)
  have hdead : ∀ a ∈ op.frees hash w.heap, a ∉ h'.addresses := by
    intro a ha
    obtain ⟨key, v, rfl, hkey⟩ := mem_frees ha
    exact h.heap.not_mem_of_delete hinv hget hkey
  -- Before the first call everything is still to be returned, and the tables may be exchanged.
  have hcursor : AtCursor h'.d w.iter l ∧ (w.iter.index ≠ -1 → 0 < h'.d.iterators) ∧
      (∀ a ∈ (l ++ laterCells h'.d w.iter).map Prod.snd, a < w.heap.fresh →
        a ∈ (w.state l).pending) ∧
      (∀ a ∈ (w.state l).pending, a ∈ h'.addresses →
        a ∈ (l ++ laterCells h'.d w.iter).map Prod.snd) ∧
      (w.iter.index = -1 → (l ++ laterCells h'.d w.iter).map Prod.snd = h'.addresses) := by
    by_cases hstart : w.iter.index = -1
    · have hiter := h.unstarted hstart
      have hl : l = [] := h.cursor.null (by rw [hiter]; rfl)
      have hall : ∀ h' : Heap K V, (l ++ laterCells h'.d w.iter).map Prod.snd = h'.addresses := by
        intro h'
        rw [hl, hiter, nil_append, pending_start, map_snd_entries]
      have hnow := hall h'
      have hbefore : (w.state l).pending = w.heap.addresses := hall w.heap
      refine ⟨by rw [hl, hiter]; exact atCursor_start _, fun hne => absurd hstart hne, ?_, ?_,
        fun _ => hnow⟩
      · intro a ha hlt
        rw [hbefore]
        exact hold a (hnow ▸ ha) hlt
      · intro a _ ha
        rw [hnow]
        exact ha
    · have hevolves := dictStep_evolves h.heap (h.started hstart).ne' hop hfit hdict
      have hl : ∀ x ∈ l, op.removes ≠ some x.1 := by
        intro x hx hremoves
        refine h.last x hx ?_
        cases op with
        | delete key => exact hop.trans hremoves
        | add | replace | find | expand | resize | rehash => cases hremoves
      obtain ⟨hat, hiterators, hnew, hkept⟩ := hevolves.pending h.heap.inv h.cursor hl
      refine ⟨hat, fun hne => ?_, ?_, ?_, fun heq => absurd heq hstart⟩
      · rw [hiterators]
        exact h.started hne
      · intro a ha hlt
        obtain ⟨x, hx, rfl⟩ := mem_map.1 ha
        rcases hnew x hx with hx | heq
        · exact mem_map.2 ⟨x, hx, rfl⟩
        · exact absurd hlt (by rw [heq]; exact lt_irrefl _)
      · intro a ha hlive
        obtain ⟨x, hx, rfl⟩ := mem_map.1 ha
        rcases hkept x hx with hx' | hgone
        · exact mem_map.2 ⟨x, hx', rfl⟩
        · obtain ⟨he, hmem, rfl⟩ := mem_map.1 (h.cursor.sublist.subset hx)
          have hhe := (mem_entries_iff h.heap.inv).1 hmem
          refine absurd hlive (hdead _ ?_)
          cases op with
          | delete key =>
            have hkey : key = he.key := Option.some.inj hgone
            simp only [DictOp.frees, Heap.address, hkey, hhe]
            exact mem_singleton_self _
          | add | replace | find | expand | resize | rehash => cases hgone
  obtain ⟨hat, hstarted, hpending, hkept, hall⟩ := hcursor
  have hsublist : ((l ++ laterCells h'.d w.iter).map Prod.snd).Sublist h'.addresses := by
    rw [← map_snd_entries]
    exact hat.sublist.map _
  have hedit : Edits (w.state l) (op.frees hash w.heap) (Walk.state
      { w with heap := h', log := w.log ++ (op.frees hash w.heap).map .deleted } l) := by
    constructor
    · rfl
    · intro a ha
      obtain ⟨key, v, -, hkey⟩ := mem_frees ha
      exact h.heap.mem_addresses.2 ⟨key, v, hkey⟩
    · exact hdead
    · exact fun a ha => (Nat.lt_succ_of_lt ha).trans_eq hfresh.symm
    · intro a ha
      obtain ⟨k, v, hk⟩ := hinv.mem_addresses.1 ha
      exact hinv.below k a v hk
    · exact hold
    · exact hinv.nodup_addresses.sublist hsublist
    · exact fun a ha => hsublist.subset ha
    · exact hpending
    · exact hkept
    · intro hlog a ha
      change a ∈ (l ++ laterCells h'.d w.iter).map Prod.snd
      rw [hall (h.log hlog)]
      exact ha
  refine ⟨{ w with heap := h', log := w.log ++ (op.frees hash w.heap).map .deleted },
    by rw [walkOp, hstep]; rfl,
    ⟨hinv, hat, h.last, hstarted, h.unstarted, ?_, hedit.inv h.enumeration⟩, hedit⟩
  intro hlog
  exact h.log (unstarted_append.1 hlog).1

theorem WalkInv.next (h : WalkInv hash w l) (hindex : w.iter.index + 1 < 2 ^ 31) :
    ∃ w' l' r, walkStep hash w .next = .ok w' ∧ WalkInv hash w' l' ∧
      Next (w.state l) r (w'.state l') := by
  obtain ⟨n, iter, r, l', hnext, hpos, hne, hat, hpending, hend⟩ :=
    dictNext_spec h.heap.located h.cursor hindex h.started
  have hheap : HeapInv hash { w.heap with d := { w.heap.d with iterators := n } } :=
    ⟨h.heap.inv.set_iterators n, h.heap.below, h.heap.inj⟩
  have hstep : ∃ r', Next (w.state l) r'
      ((w.afterNext { w.heap.d with iterators := n } iter r).state l') := by
    cases r with
    | none =>
      have hnil : (w.state l).pending = [] := by
        change (l ++ laterCells w.heap.d w.iter).map Prod.snd = []
        rw [hpending, hend rfl]
        rfl
      have hstate : (w.afterNext { w.heap.d with iterators := n } iter none).state l' =
          { w.state l with log := (w.state l).log ++ [.exhausted] } := by
        have hnil' : (l' ++ laterCells { w.heap.d with iterators := n } iter).map Prod.snd =
            (w.state l).pending := by
          rw [hnil]
          exact congrArg (List.map Prod.snd) (hend rfl)
        unfold Walk.state Walk.afterNext
        simp only [hnil']
        rfl
      exact ⟨none, hstate ▸ .done hnil⟩
    | some he =>
      have hcons : (w.state l).pending =
          he.address :: (l' ++ laterCells w.heap.d iter).map Prod.snd := by
        change (l ++ laterCells w.heap.d w.iter).map Prod.snd = _
        rw [hpending]
        rfl
      exact ⟨some he.address, .item hcons⟩
  obtain ⟨r', hstep⟩ := hstep
  refine ⟨w.afterNext { w.heap.d with iterators := n } iter r, l', r', ?_, ?_, hstep⟩
  · rw [walkStep, hnext]
    rfl
  · have hlog : ¬ Unstarted (w.afterNext { w.heap.d with iterators := n } iter r).log := by
      intro hlog
      cases r with
      | none | some he =>
        obtain ⟨i, hi⟩ := (unstarted_append.1 hlog).2 _ (mem_singleton_self _)
        cases hi
    have hat' := (@atCursor_iterators K V w.heap.d n iter l').2 hat
    -- The rest of the chain has other keys than the entry just returned.
    have hlast : ∀ x ∈ l', (w.afterNext { w.heap.d with iterators := n } iter r).last ≠ some x.1 := by
      intro x hx
      cases r with
      | none =>
        have hnil := (append_eq_nil_iff.1 (hend rfl)).1
        rw [hnil] at hx
        cases hx
      | some he =>
        intro hkey
        have hsub := h.cursor.sublist
        rw [hpending] at hsub
        have hnodup : ((w.heap.d.entries.map DictEntry.cell).map Prod.fst).Nodup := by
          rw [map_map]
          exact h.heap.inv.represents.keys_nodup
        have hkeys := hnodup.sublist (hsub.map Prod.fst)
        simp only [Option.toList_some, map_cons, map_nil, cons_append,
          nil_append, nodup_cons] at hkeys
        apply hkeys.1
        rw [show he.cell.1 = x.1 from Option.some.inj hkey]
        exact mem_map_of_mem (mem_append_left _ hx)
    cases r with
    | none | some he => exact ⟨hheap, hat', hlast, fun _ => hpos, fun heq => absurd heq hne,
        fun hstart => absurd hstart hlog, hstep.inv h.enumeration⟩

/-- One call of a walk, with what it means for an entry that stays. -/
theorem walkStep_spec (h : WalkInv hash w l) {call : WalkCall K V} (hfit : CallFits hash w call) :
    ∃ w' l', walkStep hash w call = .ok w' ∧ WalkInv hash w' l' ∧
      ∀ a, Stays a w call → Enumeration.Covered a (w.state l) → Enumeration.Covered a
          (w'.state l') := by
  cases call with
  | next =>
    obtain ⟨w', l', r, hstep, hinv, hnext⟩ := h.next hfit
    exact ⟨w', l', hstep, hinv, fun a hstays => hnext.covered h.enumeration hstays⟩
  | deleteReturned =>
    cases hlast : w.last with
    | none =>
      refine ⟨w, l, ?_, h, fun a _ hcovered => hcovered⟩
      simp [walkStep, WalkCall.dictOp, hlast]
    | some key =>
      have hop : (WalkCall.deleteReturned : WalkCall K V).dictOp w.last = some (.delete key) := by
        rw [hlast]
        rfl
      obtain ⟨w', hstep, hinv, hedit⟩ := h.op (allowed_dictOp hop) (hfit _ hop)
      refine ⟨w', l, ?_, hinv, fun a _ => hedit.covered h.enumeration⟩
      simp only [walkStep, hop]
      exact hstep
  | find | add | replace | resize =>
    obtain ⟨w', hstep, hinv, hedit⟩ := h.op (by trivial) (hfit _ rfl)
    exact ⟨w', l, hstep, hinv, fun a _ => hedit.covered h.enumeration⟩

/-- A walk faults nowhere, returns no entry twice and none after its deletion, and once it has
returned NULL it has returned exactly once every entry that stayed in the dictionary. -/
theorem safe_iteration_exactly_once (hash : K → UInt32) (ops : List (DictOp K V))
    (hops : AllSteps (heapStep hash) (OpFits hash) heapCreate ops) {h : Heap K V}
    (hrun : heapRun hash ops = .ok h) (calls : List (WalkCall K V))
    (hcalls : AllSteps (walkStep hash) (CallFits hash) (startWalk h) calls) :
    ∃ w, calls.foldlM (walkStep hash) (startWalk h) = .ok w ∧
      (∀ a, w.log.count (.returned a) ≤ 1) ∧ NotAfterDeletion w.log ∧
      (.exhausted ∈ w.log → ∀ a, AllSteps (walkStep hash) (Stays a) (startWalk h) calls →
        w.log.count (.returned a) = 1) := by
  have hstart := walkInv_start (heapRun_inv hrun hops)
  have hmeets : Meets (calls.foldlM (walkStep hash) (startWalk h))
      (fun w => ∃ l, WalkInv hash w l) (fun _ => False) := by
    refine Meets.foldlM_of_allSteps (fun w call hinv hfit => ?_) ⟨[], hstart⟩ hcalls
    obtain ⟨l, hinv⟩ := hinv
    obtain ⟨w', l', hstep, hinv', -⟩ := walkStep_spec hinv hfit
    rw [hstep]
    exact ⟨l', hinv'⟩
  obtain ⟨w, hw, l, hinv⟩ := meets_false_iff.1 hmeets
  refine ⟨w, hw, hinv.enumeration.returned_once, hinv.enumeration.not_after_deletion, ?_⟩
  intro hend a hstays
  have hcovered : Meets (calls.foldlM (walkStep hash) (startWalk h))
      (fun w => ∃ l, WalkInv hash w l ∧ Enumeration.Covered a (w.state l)) (fun _ => False) := by
    refine Meets.foldlM_of_allSteps (fun w call hinv hfit => ?_)
      ⟨[], hstart, .inr ⟨not_mem_nil, .inl fun e he => by cases he⟩⟩ (hcalls.both hstays)
    obtain ⟨l, hinv, hcov⟩ := hinv
    obtain ⟨w', l', hstep, hinv', hcov'⟩ := walkStep_spec hinv hfit.1
    rw [hstep]
    exact ⟨l', hinv', hcov' a hfit.2 hcov⟩
  obtain ⟨l', hinv', hcov⟩ := hcovered.post hw
  exact hcov.count_eq hinv'.enumeration hend

def threeKeys : List (DictOp ℕ ℕ) := [.add true 0 10, .add true 4 11, .add true 1 12]

/-- The first key is deleted and added again, and the table grows in the middle of the walk. -/
def growingWalk : List (WalkCall ℕ ℕ) :=
  [.next, .deleteReturned, .add true 4 13, .add true 2 14, .add true 3 15, .next, .replace true 1 16,
    .resize true, .next, .next, .next, .next, .next]

theorem safe_iteration_exactly_once_growing :
    AllSteps (heapStep UInt32.ofNat) (OpFits UInt32.ofNat) heapCreate threeKeys ∧
    ∃ h, heapRun UInt32.ofNat threeKeys = .ok h ∧
      AllSteps (walkStep UInt32.ofNat) (CallFits UInt32.ofNat) (startWalk h) growingWalk ∧
      ∃ w, growingWalk.foldlM (walkStep UInt32.ofNat) (startWalk h) = .ok w ∧
        (∀ a, w.log.count (.returned a) ≤ 1) ∧ NotAfterDeletion w.log ∧
        (.exhausted ∈ w.log →
          ∀ a, AllSteps (walkStep UInt32.ofNat) (Stays a) (startWalk h) growingWalk →
            w.log.count (.returned a) = 1) := by
  have hops : AllSteps (heapStep UInt32.ofNat) (OpFits UInt32.ofNat) heapCreate threeKeys := by
    decide +kernel
  obtain ⟨h, hrun, hcalls⟩ : ∃ h, heapRun UInt32.ofNat threeKeys = .ok h ∧
      AllSteps (walkStep UInt32.ofNat) (CallFits UInt32.ofNat) (startWalk h) growingWalk := by
    rw [← meets_false_iff]
    decide +kernel
  exact ⟨hops, h, hrun, hcalls, safe_iteration_exactly_once _ _ hops hrun _ hcalls⟩

/-- One key in a table of `2 ^ 31` buckets. -/
def hugeTable : Heap ℕ ℕ where
  d := {
    ht0 := {
      table := Function.update (fun _ => []) 0 [⟨0, (1, 7)⟩]
      size := 2 ^ 31, sizemask := 2 ^ 31 - 1, used := 1 }
    ht1 := dictReset
    rehashidx := -1
    iterators := 0 }
  fresh := 2

theorem heapRun_hugeTable :
    heapRun (fun _ : ℕ => 0) [.expand (2 ^ 31), .add true 0 7] = .ok hugeTable := by
  have hpower : dictNextPower 2147483648 = 2147483648 := by decide +kernel
  have hzero : toInt 0 = 0 := by decide +kernel
  simp [heapRun, heapCreate, dictCreate, heapStep, dictStep, DictOp.located, dictExpand, hpower,
    dictIsRehashing, dictReset, dictAdd, dictRehashStep, dictKeyIndex, dictExpandIfNeeded,
    searchIndex, Dictht.bucket, Dictht.index, hzero, Dictht.push, hugeTable, bind, Except.bind,
    pure, Except.pure, Functor.map, Except.map]

/-- In a table of `2 ^ 31` buckets the size is negative as an `int`: the first call returns NULL, and
the only entry is never returned. -/
theorem dictNext_large_table_misses_entry :
    heapRun (fun _ : ℕ => 0) [.expand (2 ^ 31), .add true 0 7] = .ok hugeTable ∧
      AllSteps (walkStep fun _ : ℕ => 0) (Stays 1) (startWalk hugeTable) [.next] ∧
      ∃ w, [.next].foldlM (walkStep fun _ : ℕ => 0) (startWalk hugeTable) = .ok w ∧
        .exhausted ∈ w.log ∧ w.log.count (.returned 1) = 0 := by
  refine ⟨heapRun_hugeTable, ⟨fun _ => ?_, ?_⟩, meets_false_iff.1 ?_⟩
  · refine mem_map.2 ⟨⟨0, (1, 7)⟩, mem_append_left _ ?_, rfl⟩
    exact mem_flatMap.2 ⟨0, mem_range.2 (by decide +kernel), by simp [startWalk, hugeTable]⟩
  · split <;> trivial
  · decide +kernel

end ServerStack.Redis.HashTable
