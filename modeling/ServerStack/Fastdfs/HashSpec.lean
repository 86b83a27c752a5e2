import ServerStack.Fastdfs.Hash
import ServerStack.Lib.Run

/-!
# The hash table is a finite map

Lookups depend on the entries of the table alone (`all`), and rehashing keeps them.  The counters
account for the entries (`Accounts`).  An update that needs a new entry removes the old one first, so
that the table is failure-atomic only where the new entry can be made.
-/

namespace ServerStack.Fastdfs.HashArray

open ChainTable Function Multiset HashData

section

variable (hashFunc : Bytes → ℕ) (overloaded : ℤ → ℕ → Bool) (behind : ℕ → ℕ)

def all (h : HashArray) : Multiset HashData := entries (prime behind h.capacity) h.buckets

structure Accounts (h : HashArray) : Prop where
  valid : Valid key (bucketOf hashFunc behind h.capacity) (prime behind h.capacity)
    h.buckets
  capacity : h.capacity < primeArraySize
  mallocValue : h.isMallocValue = true
  items : h.itemCount = (h.all behind).card
  few : h.itemCount < 2 ^ 31
  bytes : h.bytesUsed = sizeofPointer * prime behind h.capacity +
    ((h.all behind).map bytes).sum
  limit : 0 < h.maxBytes → h.bytesUsed ≤ h.maxBytes

variable {hashFunc overloaded behind} {h : HashArray} {key value : Bytes} {d : HashData}

theorem bmod_eq_self {n : ℤ} (hlo : 0 ≤ n) (hhi : n < 2 ^ 31) : n.bmod (2 ^ 32) = n :=
  Int.bmod_eq_of_le (by norm_num; omega) (by norm_num; omega)

theorem prime_pos {i : ℕ} (hi : i < primeArraySize) : 0 < prime behind i := by
  unfold prime
  rw [List.getD_eq_getElem primeArray _ hi]
  exact (show ∀ p ∈ primeArray, 0 < p by decide) _ (List.getElem_mem hi)

section

variable (hA : Accounts hashFunc behind h)

include hA

theorem Accounts.bucketOf_lt (key : Bytes) :
    bucketOf hashFunc behind h.capacity key < prime behind h.capacity :=
  Nat.mod_lt _ (prime_pos hA.capacity)

theorem hashFind_eq_some : h.hashFind hashFunc behind key = some value ↔
      ∃ d ∈ h.all behind, d.key = key ∧ d.value = value := by
  unfold hashFind
  rw [Option.map_eq_some_iff]
  refine exists_congr fun d => ?_
  rw [hA.valid.find_eq_some (hA.bucketOf_lt key), and_assoc]
  rfl

/-! ## Rehashing -/

theorem rehash_spec (hcapacity : h.capacity + 1 < primeArraySize) (malloc : Bool) :
    Accounts hashFunc behind (h.rehash hashFunc behind malloc) ∧
      (h.rehash hashFunc behind malloc).all behind = h.all behind := by
  unfold rehash rehash1 hashAllocBuckets
  dsimp only
  by_cases hlimit : 0 < h.maxBytes ∧
      h.maxBytes < h.bytesUsed + sizeofPointer * (prime behind (h.capacity + 1) : ℤ)
  · rw [if_pos hlimit]
    exact ⟨hA, rfl⟩
  · rw [if_neg hlimit]
    by_cases hmalloc : malloc = false
    · rw [if_pos hmalloc]
      exact ⟨hA, rfl⟩
    · rw [if_neg hmalloc]
      have hold := coe_flatMap_range (prime behind h.capacity) h.buckets
      have hnodup : (((List.range (prime behind h.capacity)).flatMap h.buckets).map
          key).Nodup := by
        rw [← coe_nodup, ← map_coe, hold]
        exact hA.valid.nodup
      have hplace : ∀ key, bucketOf hashFunc behind (h.capacity + 1) key <
          prime behind (h.capacity + 1) := fun key => Nat.mod_lt _ (prime_pos hcapacity)
      obtain ⟨hvalid, hentries⟩ := (valid_empty key
        (bucketOf hashFunc behind (h.capacity + 1)) (prime behind (h.capacity + 1))).foldl_add
        hplace _ hnodup
        fun e _ e' he' => by
          rw [entries_empty] at he'
          exact absurd he' (notMem_zero _)
      rw [entries_empty, zero_add, hold] at hentries
      have hcard : (((List.range (prime behind h.capacity)).flatMap h.buckets).length : ℤ) =
          h.itemCount := by
        rw [hA.items, ← coe_card, hold]
        rfl
      have hint : h.itemCount.bmod (2 ^ 32) = h.itemCount :=
        bmod_eq_self (by rw [hA.items]; exact Int.natCast_nonneg _) hA.few
      have hbytes := hA.bytes
      refine ⟨⟨hvalid, hcapacity, hA.mallocValue, ?_, ?_, ?_, fun hmax => ?_⟩, hentries⟩
      · rw [hcard, hint, hA.items]
        exact congrArg (fun m => ((card m : ℕ) : ℤ)) hentries.symm
      · rw [hcard, hint]
        exact hA.few
      · have hsum := congrArg (fun m => (m.map bytes).sum) hentries
        refine Eq.trans ?_ (congrArg (_ + ·) hsum.symm)
        rw [hbytes]
        unfold all
        ring
      · have hle := not_and.1 hlimit hmax
        have hpos : (0 : ℤ) ≤ sizeofPointer * (prime behind h.capacity : ℤ) := by positivity
        dsimp only
        omega

/-! ## Insertion and deletion -/

theorem deleteFromBucket_spec
    (hfind : find HashData.key (bucketOf hashFunc behind h.capacity) h.buckets key = some d) :
    Accounts hashFunc behind (h.deleteFromBucket hashFunc behind key d) ∧
      h.all behind = d ::ₘ (h.deleteFromBucket hashFunc behind key d).all behind := by
  have hplace := hA.bucketOf_lt key
  have hall : h.all behind = d ::ₘ (h.deleteFromBucket hashFunc behind key d).all behind :=
    (entries_of_find hplace hfind).1
  have hitems := hA.items
  have hbytes := hA.bytes
  rw [hall] at hitems hbytes
  rw [card_cons] at hitems
  rw [map_cons, sum_cons] at hbytes
  have hfew := hA.few
  have hint : (h.itemCount - 1).bmod (2 ^ 32) = h.itemCount - 1 := bmod_eq_self (by omega) (by omega)
  refine ⟨⟨hA.valid.erase hplace hfind, hA.capacity, hA.mallocValue, ?_, ?_, ?_, fun hmax => ?_⟩, hall⟩
  · change (h.itemCount - 1).bmod (2 ^ 32) = _
    omega
  · change (h.itemCount - 1).bmod (2 ^ 32) < _
    omega
  · change h.bytesUsed - d.bytes = sizeofPointer * (prime behind h.capacity : ℤ) + _
    omega
  · have hle := hA.limit hmax
    have hpos : 0 ≤ d.bytes := by
      unfold bytes calcNodeMallocBytes
      positivity
    change h.bytesUsed - d.bytes ≤ h.maxBytes
    omega

theorem key_ne_of_deleteFromBucket
    (hfind : find HashData.key (bucketOf hashFunc behind h.capacity) h.buckets key = some d) :
    ∀ e ∈ (h.deleteFromBucket hashFunc behind key d).all behind, e.key ≠ key := by
  intro e he heq
  have hkey := ((hA.valid.find_eq_some (hA.bucketOf_lt key)).1 hfind).2
  have hnodup := hA.valid.nodup
  change ((h.all behind).map HashData.key).Nodup at hnodup
  rw [(deleteFromBucket_spec hA hfind).2, map_cons, nodup_cons] at hnodup
  rw [hkey.trans heq.symm] at hnodup
  exact hnodup.1 (mem_map_of_mem HashData.key he)

end

theorem calcNodeMallocBytes_nonneg (keyLen valueSize : ℕ) :
    0 ≤ calcNodeMallocBytes keyLen valueSize := by
  unfold calcNodeMallocBytes
  positivity

theorem addEntry_spec (hA : Accounts hashFunc behind h) (hnew : ∀ d ∈ h.all behind, d.key ≠ key)
    (hfew : h.itemCount + 1 < 2 ^ 31)
    (hlimit : 0 < h.maxBytes → h.bytesUsed + calcNodeMallocBytes key.length value.length ≤ h.maxBytes)
    {h' : HashArray} (hh' : h' = { h with
      buckets := add HashData.key (bucketOf hashFunc behind h.capacity) h.buckets
        ⟨key, value, value.length⟩
      itemCount := (h.itemCount + 1).bmod (2 ^ 32)
      bytesUsed := h.bytesUsed + calcNodeMallocBytes key.length value.length }) :
    Accounts hashFunc behind h' ∧ h'.all behind = ⟨key, value, value.length⟩ ::ₘ h.all behind := by
  have hplace := hA.bucketOf_lt key
  have hitems := hA.items
  have hbytes := hA.bytes
  have hint : (h.itemCount + 1).bmod (2 ^ 32) = h.itemCount + 1 :=
    bmod_eq_self (by rw [hitems]; positivity) hfew
  have hall : h'.all behind = ⟨key, value, value.length⟩ ::ₘ h.all behind := by
    rw [hh']
    exact entries_add hplace
  refine ⟨⟨?_, ?_, ?_, ?_, ?_, ?_, ?_⟩, hall⟩
  · rw [hh']
    exact hA.valid.add hplace hnew
  · rw [hh']
    exact hA.capacity
  · rw [hh']
    exact hA.mallocValue
  · rw [hall, card_cons, hh', Nat.cast_succ, ← hitems]
    exact hint
  · rw [hh']
    exact hint.trans_lt hfew
  · have hnode : bytes ⟨key, value, value.length⟩ =
        calcNodeMallocBytes key.length value.length := rfl
    rw [hall, map_cons, sum_cons, hnode, hh']
    rw [hbytes]
    ring
  · rw [hh']
    exact hlimit

theorem insertEntry_spec (hA : Accounts hashFunc behind h) (hnew : ∀ d ∈ h.all behind, d.key ≠ key)
    (hbytes : calcNodeMallocBytes key.length value.length < 2 ^ 31)
    (hfew : h.itemCount + 1 < 2 ^ 31) (hcapacity : h.capacity + 1 < primeArraySize)
    (malloc : Malloc) :
    let r := h.insertEntry hashFunc overloaded behind malloc key value
    (r.1 = h ∧ r.2 < 0 ∧ ¬ (malloc.entry = true ∧ (h.maxBytes ≤ 0 ∨
        h.bytesUsed + calcNodeMallocBytes key.length value.length ≤ h.maxBytes))) ∨
      r.2 = 1 ∧ Accounts hashFunc behind r.1 ∧
        r.1.all behind = ⟨key, value, value.length⟩ ::ₘ h.all behind := by
  have hsize : (if h.isMallocValue = true then value.length else 0) = value.length :=
    if_pos hA.mallocValue
  unfold insertEntry
  simp only [hsize, bmod_eq_self (calcNodeMallocBytes_nonneg _ _) hbytes]
  by_cases hlimit : 0 < h.maxBytes ∧
      h.maxBytes < h.bytesUsed + calcNodeMallocBytes key.length value.length
  · rw [if_pos hlimit]
    exact .inl ⟨rfl, show -enospc < 0 by decide, fun hroom => by omega⟩
  · rw [if_neg hlimit]
    by_cases hmalloc : malloc.entry = false
    · rw [if_pos hmalloc]
      refine .inl ⟨rfl, show -enomem < 0 by decide, fun hroom => ?_⟩
      rw [hroom.1] at hmalloc
      cases hmalloc
    · rw [if_neg hmalloc]
      have hroom : 0 < h.maxBytes →
          h.bytesUsed + calcNodeMallocBytes key.length value.length ≤ h.maxBytes := by omega
      obtain ⟨haccounts, hall⟩ := addEntry_spec hA hnew hfew hroom rfl
      refine .inr ⟨rfl, ?_⟩
      split_ifs
      · obtain ⟨hrehashed, hsame⟩ := rehash_spec haccounts hcapacity malloc.buckets
        exact ⟨hrehashed, hsame.trans hall⟩
      · exact ⟨haccounts, hall⟩

/-- An insertion does what can be expected of it: the limits of the types hold, the table can still
grow, and an update that does not fit in place has room and memory for its new entry. -/
def CanInsert (hashFunc : Bytes → ℕ) (behind : ℕ → ℕ) (malloc : Malloc) (key value : Bytes)
    (h : HashArray) : Prop :=
  calcNodeMallocBytes key.length value.length < 2 ^ 31 ∧ h.itemCount + 1 < 2 ^ 31 ∧
    h.capacity + 1 < primeArraySize ∧
    ∀ d ∈ find HashData.key (bucketOf hashFunc behind h.capacity) h.buckets key,
      FitsInPlace d value ∨ malloc.entry = true ∧ (h.maxBytes ≤ 0 ∨
        h.bytesUsed - d.bytes + calcNodeMallocBytes key.length value.length ≤ h.maxBytes)

instance (hashFunc : Bytes → ℕ) (behind : ℕ → ℕ) (malloc : Malloc) (key value : Bytes)
    (h : HashArray) : Decidable (CanInsert hashFunc behind malloc key value h) :=
  inferInstanceAs (Decidable (_ ∧ _ ∧ _ ∧ _))

/-- After an insertion the key has the value, and after an error nothing has changed. -/
structure Inserted (hashFunc : Bytes → ℕ) (behind : ℕ → ℕ) (key value : Bytes) (h : HashArray)
    (r : HashArray × ℤ) : Prop where
  accounts : Accounts hashFunc behind r.1
  lookup : ∀ k, r.1.hashFind hashFunc behind k =
    if 0 ≤ r.2 ∧ k = key then some value else h.hashFind hashFunc behind k

theorem lookup_of_exchange {h h' : HashArray} {rest : Multiset HashData} {d' : HashData}
    (hA : Accounts hashFunc behind h) (hA' : Accounts hashFunc behind h')
    (hold : h.all behind = rest ∨ ∃ d, h.all behind = d ::ₘ rest ∧ d.key = d'.key)
    (hnew : h'.all behind = d' ::ₘ rest) (k : Bytes) :
    h'.hashFind hashFunc behind k =
      if k = d'.key then some d'.value else h.hashFind hashFunc behind k := by
  ext v
  rw [hashFind_eq_some hA', hnew]
  split_ifs with hk
  · subst hk
    constructor
    · rintro ⟨e, he, hkey, rfl⟩
      have hmem : d' ∈ h'.all behind := hnew ▸ mem_cons_self d' rest
      rw [← hnew] at he
      rw [hA'.valid.eq_of_key he hmem hkey]
    · intro hv
      cases hv
      exact ⟨d', mem_cons_self _ _, rfl, rfl⟩
  · rw [hashFind_eq_some hA]
    refine exists_congr fun e => ?_
    refine ⟨fun ⟨he, hkey, hv⟩ => ⟨?_, hkey, hv⟩, fun ⟨he, hkey, hv⟩ => ⟨?_, hkey, hv⟩⟩
    · have hrest := (mem_cons.1 he).resolve_left fun heq => hk (heq ▸ hkey.symm)
      rcases hold with hold | ⟨d, hold, -⟩ <;> rw [hold]
      · exact hrest
      · exact mem_cons_of_mem hrest
    · apply mem_cons_of_mem
      rcases hold with hold | ⟨d, hold, hsame⟩ <;> rw [hold] at he
      · exact he
      · exact (mem_cons.1 he).resolve_left fun heq => hk (by rw [← hkey, heq, hsame])

theorem overwrite_spec (hA : Accounts hashFunc behind h)
    (hfind : find HashData.key (bucketOf hashFunc behind h.capacity) h.buckets key = some d)
    {h' : HashArray} (hh' : h' = { h with
      buckets := modify HashData.key (bucketOf hashFunc behind h.capacity) h.buckets key
        fun d => { d with value } }) :
    Accounts hashFunc behind h' ∧ ∃ rest, h.all behind = d ::ₘ rest ∧
      h'.all behind = { d with value } ::ₘ rest := by
  have hplace := hA.bucketOf_lt key
  obtain ⟨hold, hmodify⟩ := entries_of_find hplace hfind
  generalize entries (prime behind h.capacity)
    (erase HashData.key (bucketOf hashFunc behind h.capacity) h.buckets key) = rest at hold hmodify
  have hall : h.all behind = d ::ₘ rest := hold
  have hnew : h'.all behind = { d with value } ::ₘ rest := by
    rw [hh']
    exact hmodify fun d => { d with value }
  have hitems := hA.items
  have hbytes := hA.bytes
  rw [hall] at hitems hbytes
  refine ⟨⟨?_, ?_, ?_, ?_, ?_, ?_, ?_⟩, _, hall, hnew⟩
  · rw [hh']
    exact hA.valid.modify hplace hfind fun _ => rfl
  · rw [hh']
    exact hA.capacity
  · rw [hh']
    exact hA.mallocValue
  · rw [hnew, card_cons, hh']
    rw [card_cons] at hitems
    exact hitems
  · rw [hh']
    exact hA.few
  · rw [hnew, map_cons, sum_cons, hh']
    rw [map_cons, sum_cons] at hbytes
    exact hbytes
  · rw [hh']
    exact hA.limit

theorem hashInsertEx_spec (hA : Accounts hashFunc behind h) (malloc : Malloc)
    (hcan : CanInsert hashFunc behind malloc key value h) :
    Inserted hashFunc behind key value h
      (h.hashInsertEx hashFunc overloaded behind malloc key value) := by
  obtain ⟨hbytes, hfew, hcapacity, hupdate⟩ := hcan
  have hplace := hA.bucketOf_lt key
  unfold hashInsertEx
  dsimp only
  cases hfind : find HashData.key (bucketOf hashFunc behind h.capacity) h.buckets key with
  | none =>
    dsimp only
    have habsent := (hA.valid.find_eq_none hplace).1 hfind
    rcases @insertEntry_spec hashFunc overloaded behind h key value hA habsent hbytes hfew hcapacity
      malloc with ⟨hsame, hneg, -⟩ | ⟨hone, haccounts, hall⟩
    · refine ⟨?_, fun k => ?_⟩
      · rw [hsame]
        exact hA
      · rw [if_neg (by omega), hsame]
    · refine ⟨haccounts, fun k => ?_⟩
      rw [hone, lookup_of_exchange hA haccounts (.inl rfl) hall]
      simp
  | some d =>
    dsimp only
    obtain ⟨hmem, hkey⟩ := (hA.valid.find_eq_some hplace).1 hfind
    by_cases hfits : FitsInPlace d value
    · rw [if_pos (.inr hfits)]
      obtain ⟨haccounts, rest, hold, hnew⟩ := @overwrite_spec hashFunc behind h key value d hA
          hfind _ rfl
      refine ⟨haccounts, fun k => ?_⟩
      rw [lookup_of_exchange hA haccounts (.inr ⟨d, hold, by rfl⟩) hnew]
      simp only [hkey, le_refl, true_and]
    · rw [if_neg (by rw [hA.mallocValue]; simpa using hfits)]
      obtain ⟨hentry, hroom⟩ := (hupdate d hfind).resolve_left hfits
      obtain ⟨hdeleted, hall⟩ := deleteFromBucket_spec hA hfind
      have habsent := key_ne_of_deleteFromBucket hA hfind
      have hcount : (h.deleteFromBucket hashFunc behind key d).itemCount + 1 < 2 ^ 31 := by
        have hitems := hA.items
        rw [hall, card_cons, Nat.cast_succ, ← hdeleted.items] at hitems
        omega
      rcases @insertEntry_spec hashFunc overloaded behind _ key value hdeleted habsent hbytes hcount
        hcapacity malloc with ⟨-, -, hnot⟩ | ⟨hone, haccounts, hnew⟩
      · exact absurd ⟨hentry, hroom⟩ hnot
      · refine ⟨haccounts, fun k => ?_⟩
        rw [hone, lookup_of_exchange hA haccounts (.inr ⟨d, hall, hkey⟩) hnew]
        simp

theorem hashDelete_spec (hA : Accounts hashFunc behind h) (key : Bytes) :
    Accounts hashFunc behind (h.hashDelete hashFunc behind key).1 ∧
      ∀ k, (h.hashDelete hashFunc behind key).1.hashFind hashFunc behind k =
        if k = key then none else h.hashFind hashFunc behind k := by
  have hplace := hA.bucketOf_lt key
  unfold hashDelete
  cases hfind : find HashData.key (bucketOf hashFunc behind h.capacity) h.buckets key with
  | none =>
    refine ⟨hA, fun k => ?_⟩
    split_ifs with hk
    · subst hk
      unfold hashFind
      rw [hfind]
      rfl
    · rfl
  | some d =>
    obtain ⟨hdeleted, hall⟩ := deleteFromBucket_spec hA hfind
    obtain ⟨hmem, hkey⟩ := (hA.valid.find_eq_some hplace).1 hfind
    refine ⟨hdeleted, fun k => ?_⟩
    ext v
    rw [hashFind_eq_some hdeleted]
    split_ifs with hk
    · subst hk
      refine ⟨fun ⟨e, he, heq, _⟩ => ?_, (nomatch ·)⟩
      exact absurd heq (key_ne_of_deleteFromBucket hA hfind e he)
    · rw [hashFind_eq_some hA, hall]
      refine exists_congr fun e => ?_
      refine ⟨fun ⟨he, heq⟩ => ⟨mem_cons_of_mem he, heq⟩, fun ⟨he, heq⟩ => ⟨?_, heq⟩⟩
      exact (mem_cons.1 he).resolve_left fun hed => hk (by rw [← heq.1, hed, hkey])

def BucketsFit (capacity : ℕ) (maxBytes : ℤ) : Prop :=
  0 < maxBytes → ∀ n ∈ primeArray.find? fun p => decide (capacity < p),
    (sizeofPointer * n : ℤ) ≤ maxBytes

instance (capacity : ℕ) (maxBytes : ℤ) : Decidable (BucketsFit capacity maxBytes) :=
  inferInstanceAs (Decidable (_ → _))

theorem accounts_init {malloc : Bool} {capacity : ℕ} {maxBytes : ℤ}
    (hinit : hashInitEx behind malloc capacity maxBytes true = .ok h)
    (hfit : BucketsFit capacity maxBytes) :
    Accounts hashFunc behind h ∧ ∀ k, h.hashFind hashFunc behind k = none := by
  unfold hashInitEx hashAllocBuckets at hinit
  split at hinit
  · cases hinit
  · rename_i i hi
    have hlt : i < primeArraySize := (List.findIdx?_eq_some_iff_findIdx_eq.1 hi).1
    have hprime : primeArray.find? (fun p => decide (capacity < p)) = some (prime behind i) := by
      rw [List.find?_eq_bind_findIdx?_getElem?, hi]
      unfold prime
      rw [List.getD_eq_getElem primeArray _ hlt]
      exact List.getElem?_eq_getElem hlt
    dsimp only at hinit
    split_ifs at hinit
    cases hinit
    have hall : entries (prime behind i) (fun _ => ([] : List HashData)) = 0 := entries_empty _
    refine ⟨⟨valid_empty _ _ _, hlt, rfl, ?_, by norm_num, ?_, fun hmax => ?_⟩, fun k => rfl⟩
    · unfold all
      rw [hall]
      rfl
    · unfold all
      rw [hall]
      simp
    · have := hfit hmax _ hprime
      dsimp only
      omega

end

/-! ## Runs -/

inductive Op where
  | insert (malloc : Malloc) (key value : Bytes)
  | delete (key : Bytes)

section

variable (hashFunc : Bytes → ℕ) (overloaded : ℤ → ℕ → Bool) (behind : ℕ → ℕ)

/-- The table and what `hash_insert_ex` or `hash_delete` returns. -/
def apply (h : HashArray) : Op → HashArray × ℤ
  | .insert malloc key value => h.hashInsertEx hashFunc overloaded behind malloc key value
  | .delete key => h.hashDelete hashFunc behind key

/-- The values that were last inserted successfully and not deleted since, after one more operation
with its result. -/
def lastInserted (m : Bytes → Option Bytes) (result : ℤ) : Op → Bytes → Option Bytes
  | .insert _ key value => if 0 ≤ result then update m key (some value) else m
  | .delete key => update m key none

variable (st : HashArray × (Bytes → Option Bytes))

/-- One operation on the table, next to the values that it should hold. -/
def step (op : Op) : HashArray × (Bytes → Option Bytes) :=
  let r := st.1.apply hashFunc overloaded behind op
  (r.1, lastInserted st.2 r.2 op)

/-- An insertion can be made, see `CanInsert`. -/
def Cond : Op → Prop
  | .insert malloc key value => CanInsert hashFunc behind malloc key value st.1
  | .delete _ => True

instance (st : HashArray × (Bytes → Option Bytes)) : ∀ op, Decidable (Cond hashFunc behind st op)
  | .insert malloc key value =>
    inferInstanceAs (Decidable (CanInsert hashFunc behind malloc key value st.1))
  | .delete _ => inferInstanceAs (Decidable True)

structure Holds (st : HashArray × (Bytes → Option Bytes)) : Prop where
  accounts : Accounts hashFunc behind st.1
  lookup : ∀ key, st.1.hashFind hashFunc behind key = st.2 key

variable {hashFunc overloaded behind}

theorem Holds.step {st : HashArray × (Bytes → Option Bytes)} {op : Op}
    (h : Holds hashFunc behind st) (hcond : Cond hashFunc behind st op) :
    Holds hashFunc behind (step hashFunc overloaded behind st op) := by
  cases op with
  | insert malloc key value =>
    obtain ⟨haccounts, hlookup⟩ := @hashInsertEx_spec hashFunc overloaded behind st.1 key value
      h.accounts malloc hcond
    refine ⟨haccounts, fun k => (hlookup k).trans ?_⟩
    unfold HashArray.step lastInserted
    dsimp only [apply]
    rw [h.lookup]
    split_ifs with hk hres hres
    · rw [hk.2, update_self]
    · exact absurd hk.1 hres
    · rw [update_of_ne fun heq => hk ⟨hres, heq⟩]
    · rfl
  | delete key =>
    obtain ⟨haccounts, hlookup⟩ := hashDelete_spec h.accounts key
    refine ⟨haccounts, fun k => (hlookup k).trans ?_⟩
    unfold HashArray.step lastInserted
    dsimp only
    rw [h.lookup]
    split_ifs with hk
    · rw [hk, update_self]
    · rw [update_of_ne hk]

/-- In every run in which an update that does not fit in place has room and memory for its new entry
(and no machine integer overflows), from a table whose buckets are within the limit, a lookup returns
the value last inserted successfully and not deleted, the counters are those of the entries, the limit
is kept, and an insertion that fails changes no lookup. -/
theorem hash_failureAtomic (hashFunc : Bytes → ℕ) (overloaded : ℤ → ℕ → Bool) (behind : ℕ → ℕ)
    {malloc : Bool} {capacity : ℕ} {maxBytes : ℤ} {h : HashArray}
    (hinit : hashInitEx behind malloc capacity maxBytes true = .ok h)
    (hfit : BucketsFit capacity maxBytes) (ops : List Op)
    (hrun : Run.Along (step hashFunc overloaded behind) (Cond hashFunc behind) (h, fun _ => none)
      ops) :
    let st := ops.foldl (step hashFunc overloaded behind) (h, fun _ => none)
    (∀ key, st.1.hashFind hashFunc behind key = st.2 key) ∧
      st.1.itemCount = (st.1.all behind).card ∧
      st.1.bytesUsed = sizeofPointer * prime behind st.1.capacity +
        ((st.1.all behind).map bytes).sum ∧
      (0 < st.1.maxBytes → st.1.bytesUsed ≤ st.1.maxBytes) ∧
      ∀ malloc key value, CanInsert hashFunc behind malloc key value st.1 →
        (st.1.hashInsertEx hashFunc overloaded behind malloc key value).2 < 0 →
        ∀ k, (st.1.hashInsertEx hashFunc overloaded behind malloc key value).1.hashFind hashFunc
          behind k = st.1.hashFind hashFunc behind k := by
  obtain ⟨haccounts, hempty⟩ := @accounts_init hashFunc behind h malloc capacity maxBytes hinit hfit
  have hholds : Holds hashFunc behind (ops.foldl (step hashFunc overloaded behind)
    (h, fun _ => none)) :=
    hrun.foldl (fun st op hst hcond => Holds.step hst hcond) ⟨haccounts, hempty⟩
  refine ⟨hholds.lookup, hholds.accounts.items, hholds.accounts.bytes, hholds.accounts.limit,
    fun malloc key value hcan hneg k => ?_⟩
  rw [(hashInsertEx_spec hholds.accounts malloc hcan).lookup, if_neg (by omega)]

end

def smallTable : HashArray := ⟨fun _ => [], 0, 1, 100, 24, true⟩

def halfFull (items : ℤ) (capacity : ℕ) : Bool := decide ((capacity : ℤ) ≤ 2 * items)

def smallOps : List Op :=
  [.insert ⟨true, true⟩ [1] [7], .insert ⟨true, true⟩ [1] [8, 8, 8], .insert ⟨true, true⟩ [2] [9],
    .delete [1]]

/-- The value is updated with a longer one, an insertion fails, and the key is deleted. -/
theorem hash_failureAtomic_smallOps :
    let st := smallOps.foldl (step List.length halfFull fun _ => 0) (smallTable, fun _ => none)
    ∀ key, st.1.hashFind List.length (fun _ => 0) key = st.2 key :=
  (@hash_failureAtomic List.length halfFull (fun _ => 0) true 1 100 smallTable rfl (by decide)
    smallOps (by decide)).1

/-- An update with a value for which there is no room returns `-ENOSPC`, and the key is gone. -/
theorem hash_update_loses_key : hashInitEx (fun _ => 0) true 1 100 true = .ok smallTable ∧
      (let h := (smallTable.hashInsertEx List.length halfFull (fun _ => 0) ⟨true, true⟩ [1] [7]).1
      let r := h.hashInsertEx List.length halfFull (fun _ => 0) ⟨true, true⟩ [1]
        (List.replicate 60 0)
      h.hashFind List.length (fun _ => 0) [1] = some [7] ∧ r.2 = -enospc ∧
        r.1.hashFind List.length (fun _ => 0) [1] = none) := by
  refine ⟨rfl, ?_⟩
  decide

end ServerStack.Fastdfs.HashArray
