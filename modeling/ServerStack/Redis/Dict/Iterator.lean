import ServerStack.Redis.Dict.Scan

/-!
# Iterators

An iterator holds pointers to entries, so the value of an entry is here a pair of its address and
the stored value.  An entry keeps its address when `dictReplace` stores a new value in it, and every
allocation takes a new address; none has the address of an entry that was freed.

Between two calls of `dictNext` the entries still to be returned are the rest of the current chain,
the later buckets of the table and, for the first table, all of the second (`pending`).
-/

namespace ServerStack.Redis.HashTable

open Outcome List

variable {K V : Type}

deriving instance DecidableEq for Which

/-! ## The functions -/

def DictEntry.address (he : DictEntry K (ℕ × V)) : ℕ := he.val.1

structure DictIterator where
  table : Which
  index : ℤ
  entry : Option ℕ
  nextEntry : Option ℕ
  deriving DecidableEq

def dictGetSafeIterator : DictIterator :=
  { table := .first, index := -1, entry := none, nextEntry := none }

def Dict.ht (d : Dict K V) : Which → Dictht K V
  | .first => d.ht0
  | .second => d.ht1

/-- Look for an address in a chain: the entry, and the address of the next one. -/
def findAt (a : ℕ) : List (DictEntry K (ℕ × V)) → Option (DictEntry K (ℕ × V) × Option ℕ)
  | [] => none
  | he :: rest =>
    if he.address = a then some (he, rest.head?.map DictEntry.address) else findAt a rest

def Dict.chains (d : Dict K V) : List (List (DictEntry K V)) :=
  (List.range d.ht0.size).map d.ht0.table ++ (List.range d.ht1.size).map d.ht1.table

/-- `*a`, with the pointer `next` of the entry. -/
def Dict.read (d : Dict K (ℕ × V)) (a : ℕ) : Except Fault (DictEntry K (ℕ × V) × Option ℕ) :=
  match d.chains.findSome? (findAt a) with
  | some r => .ok r
  | none => .error .outOfBounds

/-- `iter->entry = ht->table[iter->index]`. -/
def DictIterator.enter (iter : DictIterator) (ht : Dictht K (ℕ × V)) :
    Except Fault DictIterator := do
  let chain ← ht.bucket iter.index
  return { iter with entry := chain.head?.map DictEntry.address }

/-- `if (iter->index == -1 && iter->table == 0) iter->d->iterators++`. -/
def Dict.countIterator (d : Dict K V) (iter : DictIterator) : Dict K V :=
  if iter.index = -1 ∧ iter.table = .first then { d with iterators := d.iterators + 1 } else d

/-- Go to the next bucket; `true` when the loop is left by `break`. -/
def nextBucket (d : Dict K (ℕ × V)) (iter : DictIterator) : Except Fault (DictIterator × Bool) :=
  let iter := { iter with index := toInt (iter.index + 1) }
  if iter.index ≥ toInt (d.ht iter.table).size then
    if dictIsRehashing d ∧ iter.table = .first then do
      let iter ← { iter with table := .second, index := 0 }.enter d.ht1
      return (iter, false)
    else .ok (iter, true)
  else do
    let iter ← iter.enter (d.ht iter.table)
    return (iter, false)

/-- The first half of a round of `dictNext`: find the next pointer. -/
def nextPointer (d : Dict K (ℕ × V)) (iter : DictIterator) :
    Except Fault (Dict K (ℕ × V) × DictIterator × Bool) :=
  match iter.entry with
  | none => do
    let d := d.countIterator iter
    let (iter, stop) ← nextBucket d iter
    return (d, iter, stop)
  | some _ => .ok (d, { iter with entry := iter.nextEntry }, false)

def dictNextLoop : ℕ → Dict K (ℕ × V) → DictIterator →
    Except Fault (Dict K (ℕ × V) × DictIterator × Option (DictEntry K (ℕ × V)))
  | 0, _, _ => .error .unfinished
  | fuel + 1, d, iter => do
    let (d, iter, stop) ← nextPointer d iter
    match stop, iter.entry with
    | true, _ => return (d, iter, none)
    | false, none => dictNextLoop fuel d iter
    | false, some a =>
      let (he, next) ← d.read a
      return (d, { iter with nextEntry := next }, some he)

/-- `dictNext`; the loop makes at most one round for each bucket, one for the end of a chain and one
for the end of the walk. -/
def dictNext (d : Dict K (ℕ × V)) (iter : DictIterator) :
    Except Fault (Dict K (ℕ × V) × DictIterator × Option (DictEntry K (ℕ × V))) :=
  dictNextLoop (d.ht0.size + d.ht1.size + 2) d iter

/-! ## Cells -/

/-- The key and the address of an entry; the stored value is left out. -/
def DictEntry.cell (he : DictEntry K (ℕ × V)) : K × ℕ := (he.key, he.address)

def Dictht.cells (ht : Dictht K (ℕ × V)) (i : ℕ) : List (K × ℕ) :=
  (ht.table i).map DictEntry.cell

/-- The cells of the buckets from `i` on. -/
def Dictht.cellsFrom (ht : Dictht K (ℕ × V)) (i : ℕ) : List (K × ℕ) :=
  ((List.range ht.size).drop i).flatMap ht.cells

variable {ht : Dictht K (ℕ × V)} {i : ℕ} {d : Dict K V} {he : DictEntry K V} {t : Which}
  {iter : DictIterator} {l : List (K × ℕ)}

theorem cellsFrom_of_lt (h : i < ht.size) :
    ht.cellsFrom i = ht.cells i ++ ht.cellsFrom (i + 1) := by
  unfold Dictht.cellsFrom
  rw [drop_eq_getElem_cons (by rwa [length_range]), flatMap_cons, getElem_range]

theorem cellsFrom_of_le (h : ht.size ≤ i) : ht.cellsFrom i = [] := by
  unfold Dictht.cellsFrom
  rw [drop_of_length_le (by rwa [length_range]), flatMap_nil]

theorem cellsFrom_zero (ht : Dictht K (ℕ × V)) :
    ht.cellsFrom 0 = ht.entries.map DictEntry.cell := by
  unfold Dictht.cellsFrom Dictht.entries
  rw [map_flatMap]
  rfl

theorem mem_cellsFrom {x : K × ℕ} :
    x ∈ ht.cellsFrom i ↔ ∃ j, i ≤ j ∧ j < ht.size ∧ x ∈ ht.cells j := by
  unfold Dictht.cellsFrom
  rw [mem_flatMap]
  constructor
  · rintro ⟨j, hj, hx⟩
    obtain ⟨n, hn, rfl⟩ := mem_iff_getElem.1 hj
    rw [length_drop, length_range] at hn
    rw [getElem_drop, getElem_range] at hx
    exact ⟨i + n, by omega, by omega, hx⟩
  · rintro ⟨j, hij, hj, hx⟩
    refine ⟨j, ?_, hx⟩
    refine mem_iff_getElem.2 ⟨j - i, ?_, ?_⟩
    · rw [length_drop, length_range]
      omega
    · rw [getElem_drop, getElem_range]
      omega

/-! ## Following a pointer -/

variable {hash : K → UInt32}

theorem findAt_append {a : ℕ} {pre rest : List (DictEntry K (ℕ × V))}
    (h : ∀ he ∈ pre, he.address ≠ a) : findAt a (pre ++ rest) = findAt a rest := by
  induction pre with
  | nil => rfl
  | cons he pre ih =>
    rw [cons_append, findAt, if_neg (h he mem_cons_self)]
    exact ih fun x hx => h x (mem_cons_of_mem _ hx)

theorem findAt_eq_none {a : ℕ} {chain : List (DictEntry K (ℕ × V))}
    (h : ∀ he ∈ chain, he.address ≠ a) : findAt a chain = none := by
  have := @findAt_append K V a chain [] h
  rwa [append_nil] at this

theorem mem_chains {chain : List (DictEntry K V)} :
    chain ∈ d.chains ↔ ∃ t i, i < (d.ht t).size ∧ (d.ht t).table i = chain := by
  unfold Dict.chains
  rw [mem_append, mem_map, mem_map]
  constructor
  · rintro (⟨i, hi, rfl⟩ | ⟨i, hi, rfl⟩)
    · exact ⟨.first, i, mem_range.1 hi, rfl⟩
    · exact ⟨.second, i, mem_range.1 hi, rfl⟩
  · rintro ⟨t, i, hi, rfl⟩
    cases t with
    | first => exact .inl ⟨i, mem_range.2 hi, rfl⟩
    | second => exact .inr ⟨i, mem_range.2 hi, rfl⟩

variable [DecidableEq K]

theorem findKey_of_mem {chain : List (DictEntry K V)} (hnodup : (chain.map DictEntry.key).Nodup)
    (hmem : he ∈ chain) : findKey he.key chain = some he := by
  induction chain with
  | nil => cases hmem
  | cons x chain ih =>
    rw [map_cons, nodup_cons] at hnodup
    rw [findKey_cons]
    rcases mem_cons.1 hmem with rfl | hmem
    · exact if_pos rfl
    · have hne : he.key ≠ x.key := fun heq =>
        hnodup.1 (heq ▸ mem_map.2 ⟨he, hmem, rfl⟩)
      rw [if_neg hne]
      exact ih hnodup.2 hmem

section

variable (h : DictInv hash d)

include h

theorem DictInv.ht_cases (t : Which) : d.ht t = dictReset ∨ (d.ht t).WF hash := by
  rcases h with h | h
  · cases t with
    | first => exact h.ht0_wf
    | second => exact .inl h.ht1_eq
  · cases t with
    | first => exact .inr h.ht0_wf
    | second => exact .inr h.ht1_wf

theorem DictInv.ht_wf (hmem : he ∈ (d.ht t).table i) : (d.ht t).WF hash := by
  rcases h.ht_cases t with hreset | hwf
  · rw [hreset] at hmem
    cases hmem
  · exact hwf

theorem DictInv.set_iterators (n : ℕ) : DictInv hash { d with iterators := n } := by
  rcases h with hidle | hre
  · exact .inl ⟨hidle.1, hidle.2, hidle.3⟩
  · exact .inr ⟨hre.1, hre.2, hre.3, hre.4, hre.5, hre.6⟩

variable (hmem : he ∈ (d.ht t).table i)

include hmem

theorem DictInv.get_ht : (d.ht t).get hash he.key = some he.val := by
  have hwf := h.ht_wf hmem
  unfold Dictht.get
  rw [hwf.placed i he hmem, findKey_of_mem (hwf.nodup i) hmem]
  rfl

theorem DictInv.get_of_mem : d.get hash he.key = some he.val := by
  have hget := h.get_ht hmem
  unfold Dict.get
  cases t with
  | first =>
    change d.ht0.get hash he.key = _ at hget
    rw [hget]
    rfl
  | second =>
    change d.ht1.get hash he.key = _ at hget
    obtain ⟨-, hnone⟩ := h.rehashing_of_second (by rw [hget]; rfl)
    rw [hnone, hget]
    rfl

theorem DictInv.chain_unique {t' : Which} {i' : ℕ} {he' : DictEntry K V} (hmem' : he' ∈ (d.ht t').table i') (hkey : he.key = he'.key) :
    t = t' ∧ i = i' := by
  have hget := h.get_ht hmem
  have hget' := h.get_ht hmem'
  have ht : t = t' := by
    by_contra hne
    have hboth : (d.ht0.get hash he.key).isSome ∧ (d.ht1.get hash he.key).isSome := by
      cases t <;> cases t' <;> simp_all [Dict.ht]
    have hnone := h.second_eq_none hboth.1
    rw [hnone] at hboth
    exact Bool.false_ne_true hboth.2
  subst ht
  refine ⟨rfl, ?_⟩
  rw [← (h.ht_wf hmem).placed i he hmem, hkey, (h.ht_wf hmem).placed i' he' hmem']

end

structure Located (hash : K → UInt32) (d : Dict K (ℕ × V)) : Prop where
  inv : DictInv hash d
  inj : ∀ t i t' i', ∀ he ∈ (d.ht t).table i, ∀ he' ∈ (d.ht t').table i',
    he.address = he'.address → he.key = he'.key

variable {d : Dict K (ℕ × V)}

theorem Located.read (h : Located hash d) (hi : i < (d.ht t).size)
    {pre post : List (DictEntry K (ℕ × V))} {he : DictEntry K (ℕ × V)}
    (hchain : (d.ht t).table i = pre ++ he :: post) :
    d.read he.address = .ok (he, post.head?.map DictEntry.address) := by
  have hhe : he ∈ (d.ht t).table i := by simp [hchain]
  have hnodup := (h.inv.ht_wf hhe).nodup i
  have hfound : findAt he.address ((d.ht t).table i) =
      some (he, post.head?.map DictEntry.address) := by
    rw [hchain, findAt_append, findAt, if_pos rfl]
    intro x hx haddress
    have hkey := h.inj t i t i x (by simp [hchain, hx]) he hhe haddress
    rw [hchain, map_append, nodup_append] at hnodup
    exact hnodup.2.2 x.key (mem_map.2 ⟨x, hx, rfl⟩) he.key (by simp) hkey
  -- An entry with this address lives in no other chain.
  have hothers : ∀ chain ∈ d.chains, chain ≠ (d.ht t).table i → findAt he.address chain = none := by
    intro chain hmem hne
    obtain ⟨t', i', -, rfl⟩ := mem_chains.1 hmem
    apply findAt_eq_none
    intro x hx haddress
    apply hne
    obtain ⟨rfl, rfl⟩ := h.inv.chain_unique hx hhe (h.inj t' i' t i x hx he hhe haddress)
    rfl
  have hsearch : d.chains.findSome? (findAt he.address) =
      some (he, post.head?.map DictEntry.address) := by
    cases hresult : d.chains.findSome? (findAt he.address) with
    | none =>
      have := findSome?_eq_none_iff.1 hresult _ (mem_chains.2 ⟨t, i, hi, rfl⟩)
      rw [hfound] at this
      cases this
    | some r =>
      obtain ⟨chain, hmem, hr⟩ := exists_of_findSome?_eq_some hresult
      by_cases hsame : chain = (d.ht t).table i
      · rw [hsame, hfound] at hr
        exact hr.symm
      · rw [hothers chain hmem hsame] at hr
        cases hr
  unfold Dict.read
  rw [hsearch]

/-! ## One call -/

def InChain (d : Dict K (ℕ × V)) (iter : DictIterator) (l : List (K × ℕ)) : Prop :=
  ∃ i : ℕ, iter.index = i ∧ i < (d.ht iter.table).size ∧ l <:+ (d.ht iter.table).cells i

/-- Where an iterator stands between two calls; `l` is the rest of the current chain. -/
structure AtCursor (d : Dict K (ℕ × V)) (iter : DictIterator) (l : List (K × ℕ)) : Prop where
  index_ge : -1 ≤ iter.index
  unstarted : iter.index = -1 → iter.table = .first
  second : iter.table = .second → dictIsRehashing d = true
  null : iter.entry = none → l = []
  inside : iter.entry ≠ none → InChain d iter l ∧ iter.nextEntry = l.head?.map Prod.snd

omit [DecidableEq K] in
theorem atCursor_iterators {n : ℕ} {iter : DictIterator} {l : List (K × ℕ)} :
    AtCursor { d with iterators := n } iter l ↔ AtCursor d iter l :=
  ⟨fun h => ⟨h.index_ge, h.unstarted, h.second, h.null, h.inside⟩,
    fun h => ⟨h.index_ge, h.unstarted, h.second, h.null, h.inside⟩⟩

def laterCells (d : Dict K (ℕ × V)) (iter : DictIterator) : List (K × ℕ) :=
  (d.ht iter.table).cellsFrom (iter.index + 1).toNat ++
    if iter.table = .first then d.ht1.cellsFrom 0 else []

def roundsLeft (d : Dict K (ℕ × V)) (iter : DictIterator) : ℕ :=
  (if iter.entry = none then 0 else 1) + ((d.ht iter.table).size - (iter.index + 1).toNat) + 1 +
    if iter.table = .first then d.ht1.size else 0

omit [DecidableEq K] in
theorem countIterator_eq (d : Dict K V) (iter : DictIterator) :
    ∃ n, d.countIterator iter = { d with iterators := n } ∧ d.iterators ≤ n := by
  unfold Dict.countIterator
  split_ifs
  · exact ⟨_, rfl, Nat.le_succ _⟩
  · exact ⟨_, rfl, le_rfl⟩

omit [DecidableEq K] in
theorem enter_eq (hindex : iter.index = i) (hi : i < ht.size) :
    iter.enter ht = .ok { iter with entry := (ht.cells i).head?.map Prod.snd } := by
  unfold DictIterator.enter Dictht.cells
  rw [hindex, ht.bucket_of_lt hi, head?_map, Option.map_map]
  rfl

theorem DictInv.ht_size_le (h : DictInv hash d) (t : Which) : (d.ht t).size ≤ maxBuckets := by
  rcases h.ht_cases t with hreset | hwf
  · rw [hreset]
    exact Nat.zero_le _
  · exact hwf.size_le

theorem nextBucket_spec (h : DictInv hash d) (hat : AtCursor d iter l)
    (hnull : iter.entry = none) (hindex : iter.index + 1 < 2 ^ 31) :
    (∃ iter', nextBucket d iter = .ok (iter', true) ∧ AtCursor d iter' [] ∧
      laterCells d iter = [] ∧ laterCells d iter' = [] ∧ iter'.index ≠ -1) ∨
    (∃ iter' chunk, nextBucket d iter = .ok (iter', false) ∧ InChain d iter' chunk ∧
      (iter'.table = .second → dictIsRehashing d = true) ∧
      iter'.entry = chunk.head?.map Prod.snd ∧
      laterCells d iter = chunk ++ laterCells d iter' ∧
      (chunk = [] → roundsLeft d iter' < roundsLeft d iter)) := by
  have hmax : maxBuckets = 2 ^ 30 := rfl
  obtain ⟨i, hi⟩ := Int.eq_ofNat_of_zero_le (show 0 ≤ iter.index + 1 by linarith [hat.index_ge])
  have hsize := h.ht_size_le iter.table
  have hnext : toInt (iter.index + 1) = i := by rw [toInt_of_lt (by omega) hindex, hi]
  have hbound : toInt ((d.ht iter.table).size : ℤ) = (d.ht iter.table).size :=
    toInt_of_lt (by omega) (by omega)
  unfold nextBucket
  simp only [hnext, hbound]
  by_cases hlt : i < (d.ht iter.table).size
  · right
    rw [if_neg (by omega), enter_eq rfl hlt]
    refine ⟨_, (d.ht iter.table).cells i, rfl, ⟨i, rfl, hlt, suffix_refl _⟩, hat.second, rfl,
      ?_, fun hchunk => ?_⟩
    · unfold laterCells
      simp only [hi, Int.toNat_natCast]
      rw [cellsFrom_of_lt hlt, append_assoc]
      rfl
    · unfold roundsLeft
      simp only [hnull, hchunk, hi, head?_nil, Option.map_none, if_true, Int.toNat_natCast]
      omega
  · rw [if_pos (by omega)]
    by_cases hmore : dictIsRehashing d = true ∧ iter.table = .first
    · right
      have hpos : 0 < d.ht1.size := by
        rcases h with h | h
        · rw [h.not_rehashing] at hmore
          exact absurd hmore.1 Bool.false_ne_true
        · exact h.ht1_wf.size_pos
      rw [if_pos hmore, enter_eq (Int.natCast_zero).symm hpos]
      refine ⟨_, d.ht1.cells 0, rfl, ⟨0, rfl, hpos, suffix_refl _⟩, fun _ => hmore.1, rfl,
        ?_, fun hchunk => ?_⟩
      · unfold laterCells
        rw [if_pos hmore.2, hi, Int.toNat_natCast, cellsFrom_of_le (Nat.le_of_not_lt hlt),
          cellsFrom_of_lt hpos]
        simp [Dict.ht]
      · unfold roundsLeft
        simp only [hnull, hchunk, head?_nil, Option.map_none, if_true, if_pos hmore.2, Dict.ht]
        simp
        omega
    · left
      rw [if_neg hmore]
      have hlater : ∀ j : ℤ, (i : ℤ) ≤ j → laterCells d { iter with index := j } = [] := by
        intro j hj
        unfold laterCells
        rw [cellsFrom_of_le (show (d.ht iter.table).size ≤ (j + 1).toNat by omega)]
        split_ifs with hfirst
        · rcases h with h | h
          · rw [h.ht1_eq]
            rfl
          · exact absurd ⟨h.rehashing, hfirst⟩ hmore
        · rfl
      have hge : (-1 : ℤ) < i := by omega
      refine ⟨_, rfl, ⟨hge.le, fun heq => absurd heq hge.ne', hat.second, fun _ => rfl,
        fun hne => absurd hnull hne⟩, ?_, hlater i le_rfl, hge.ne'⟩
      unfold laterCells
      rw [hi, Int.toNat_natCast, cellsFrom_of_le (Nat.le_of_not_lt hlt)]
      have := hlater i le_rfl
      exact (append_eq_nil_iff.1 this).2

theorem nextPointer_spec (h : DictInv hash d) (hat : AtCursor d iter l)
    (hindex : iter.index + 1 < 2 ^ 31) :
    (∃ iter', nextPointer d iter = .ok (d.countIterator iter, iter', true) ∧ AtCursor d iter' [] ∧
      l ++ laterCells d iter = [] ∧ laterCells d iter' = [] ∧ iter'.index ≠ -1) ∨
    (∃ iter' chunk, nextPointer d iter = .ok (d.countIterator iter, iter', false) ∧
      InChain d iter' chunk ∧ (iter'.table = .second → dictIsRehashing d = true) ∧
      iter'.entry = chunk.head?.map Prod.snd ∧
      l ++ laterCells d iter = chunk ++ laterCells d iter' ∧
      (chunk = [] → roundsLeft d iter' < roundsLeft d iter)) := by
  unfold nextPointer
  cases hentry : iter.entry with
  | none =>
    rw [hat.null hentry]
    obtain ⟨n, hcount, -⟩ := countIterator_eq d iter
    have hsame : nextBucket (d.countIterator iter) iter = nextBucket d iter := by
      rw [hcount]
      rfl
    rcases nextBucket_spec h hat hentry hindex with
      ⟨iter', hnext, hrest⟩ | ⟨iter', chunk, hnext, hrest⟩
    · exact .inl ⟨iter', by simp only [hsame, hnext]; rfl, hrest⟩
    · exact .inr ⟨iter', chunk, by simp only [hsame, hnext]; rfl, hrest⟩
  | some a =>
    right
    obtain ⟨⟨i, hi, hchain⟩, hnext⟩ := hat.inside (by rw [hentry]; simp)
    have hcount : d.countIterator iter = d := by
      unfold Dict.countIterator
      rw [if_neg fun hstart => by omega]
    rw [hcount]
    refine ⟨_, l, rfl, ⟨i, hi, hchain⟩, hat.second, hnext, rfl, fun hl => ?_⟩
    unfold roundsLeft
    simp only [hnext, hl, hentry, head?_nil, Option.map_none, if_true, reduceCtorEq, if_false]
    omega

theorem dictNextLoop_spec (h : Located hash d) {iter : DictIterator}
    {l : List (K × ℕ)} (hat : AtCursor d iter l) (hindex : iter.index + 1 < 2 ^ 31)
    (hstarted : iter.index ≠ -1 → 0 < d.iterators) {fuel : ℕ} (hfuel : roundsLeft d iter ≤ fuel) :
    ∃ n iter' r l', dictNextLoop fuel d iter = .ok ({ d with iterators := n }, iter', r) ∧ 0 < n ∧
      iter'.index ≠ -1 ∧ AtCursor d iter' l' ∧
      l ++ laterCells d iter = r.toList.map DictEntry.cell ++ (l' ++ laterCells d iter') ∧
      (r = none → l' ++ laterCells d iter' = []) := by
  induction fuel generalizing d iter l with
  | zero =>
    unfold roundsLeft at hfuel
    omega
  | succ fuel ih =>
    obtain ⟨n, hcount, hle⟩ := countIterator_eq d iter
    have hpos : 0 < n := by
      by_cases hstart : iter.index = -1
      · have heq : d.countIterator iter = { d with iterators := d.iterators + 1 } :=
          if_pos ⟨hstart, hat.unstarted hstart⟩
        rw [heq, Dict.mk.injEq] at hcount
        omega
      · exact lt_of_lt_of_le (hstarted hstart) hle
    have hmax : maxBuckets = 2 ^ 30 := rfl
    rw [dictNextLoop]
    rcases nextPointer_spec h.inv hat hindex with
      ⟨iter', hnext, hat', hall, hlater, hne⟩ | ⟨iter', chunk, hnext, hchain, hsecond, hentry,
        hall, hrounds⟩
    · rw [hnext, hcount]
      exact ⟨n, iter', none, [], rfl, hpos, hne, hat', hall.trans hlater.symm, fun _ => hlater⟩
    · rw [hnext, hcount]
      obtain ⟨i, hi, hlt, hsuffix⟩ := hchain
      have hsize := h.inv.ht_size_le iter'.table
      cases chunk with
      | nil =>
        have hnull : iter'.entry = none := hentry
        have hat' : AtCursor d iter' [] := ⟨by omega, fun heq => by omega, hsecond, fun _ => rfl,
          fun hne => absurd hnull hne⟩
        have hlocated : Located hash { d with iterators := n } := ⟨h.inv.set_iterators n, h.inj⟩
        have hroom := hrounds rfl
        obtain ⟨n', iter'', r, l', hloop, hpos', hne, hat'', hrest⟩ := @ih
          { d with iterators := n } hlocated iter' [] (atCursor_iterators.2 hat') (by omega)
          (fun _ => hpos) (by
            change roundsLeft d iter' ≤ fuel
            omega)
        refine ⟨n', iter'', r, l', ?_, hpos', hne, atCursor_iterators.1 hat'', ?_⟩
        · simp only [bind, Except.bind, hnull]
          exact hloop
        · rw [hall]
          exact hrest
      | cons c chunk =>
        obtain ⟨pre, hpre⟩ := hsuffix
        obtain ⟨pre', post', htable, -, hcells⟩ := map_eq_append_iff.1 hpre.symm
        obtain ⟨he, post, rfl, rfl, hpost⟩ := map_eq_cons_iff.1 hcells
        have hread := h.read hlt htable
        refine ⟨n, { iter' with nextEntry := post.head?.map DictEntry.address }, some he, chunk, ?_,
          hpos, by change iter'.index ≠ -1; omega, ?_, ?_, fun hnone => by cases hnone⟩
        · have hpointer : iter'.entry = some he.address := hentry
          have hread' : Dict.read { d with iterators := n } he.address = d.read he.address := rfl
          simp only [bind, Except.bind, hpointer, hread', hread]
          rfl
        · refine ⟨by change -1 ≤ iter'.index; omega, fun heq => ?_, hsecond, fun hnull => ?_,
            fun _ => ⟨⟨i, hi, hlt, ?_⟩, ?_⟩⟩
          · change iter'.index = -1 at heq
            omega
          · rw [hentry] at hnull
            cases hnull
          · exact ⟨pre ++ [he.cell], by rw [← hpre]; simp⟩
          · rw [← hpost, head?_map, Option.map_map]
            rfl
        · exact hall

theorem dictNext_spec (h : Located hash d) (hat : AtCursor d iter l)
    (hindex : iter.index + 1 < 2 ^ 31) (hstarted : iter.index ≠ -1 → 0 < d.iterators) :
    ∃ n iter' r l', dictNext d iter = .ok ({ d with iterators := n }, iter', r) ∧ 0 < n ∧
      iter'.index ≠ -1 ∧ AtCursor d iter' l' ∧
      l ++ laterCells d iter = r.toList.map DictEntry.cell ++ (l' ++ laterCells d iter') ∧
      (r = none → l' ++ laterCells d iter' = []) := by
  apply dictNextLoop_spec h hat hindex hstarted
  unfold roundsLeft
  cases htable : iter.table with
  | first =>
    simp only [Dict.ht, if_true]
    split_ifs <;> omega
  | second =>
    simp only [Dict.ht, reduceCtorEq, if_false]
    split_ifs <;> omega

end ServerStack.Redis.HashTable
