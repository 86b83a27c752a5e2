import ServerStack.Memcached.Assoc
import ServerStack.Lib.Run

/-!
# The hash table holds a set of items

Every chain of both tables holds exactly those items of the set whose hash value leads to it, also
while the table grows.
-/

namespace ServerStack.Memcached.Assoc

open List Function

variable (t : Assoc) (hv : ℕ) (ids : List ItemId)

def table : Bool × ℕ → List ItemId
  | (true, n) => t.old n
  | (false, n) => t.primary n

def slot : Bool × ℕ :=
  if t.InOld hv then (true, hv % hashsize (t.hashpower - 1)) else (false, hv % hashsize t.hashpower)

theorem chain_eq_table : t.chain hv = t.table (t.slot hv) := by
  unfold chain slot
  split_ifs <;> rfl

theorem slot_setChain (hv' : ℕ) : (t.setChain hv ids).slot hv' = t.slot hv' := by
  unfold setChain
  split_ifs <;> rfl

theorem table_setChain (sl : Bool × ℕ) :
    (t.setChain hv ids).table sl = if sl = t.slot hv then ids else t.table sl := by
  unfold setChain slot
  rcases sl with ⟨_ | _, n⟩
  · split_ifs with hold heq heq
    · cases heq
    · rfl
    · cases heq
      exact update_self _ _ _
    · exact update_of_ne (fun h => heq (by rw [h])) _ _
  · split_ifs with hold heq heq
    · cases heq
      exact update_self _ _ _
    · exact update_of_ne (fun h => heq (by rw [h])) _ _
    · cases heq
    · rfl

theorem table_hashItems (n : ℕ) (sl : Bool × ℕ) :
    ({ t with hashItems := n } : Assoc).table sl = t.table sl := by
  rcases sl with ⟨_ | _, m⟩ <;> rfl

theorem slot_hashItems (n : ℕ) (hv : ℕ) :
    ({ t with hashItems := n } : Assoc).slot hv = t.slot hv := rfl

structure Holds (hash : Bytes → ℕ) (keyOf : ItemId → Bytes) (S : ItemId → Prop) (t : Assoc) :
    Prop where
  nodup : ∀ sl, (t.table sl).Nodup
  mem : ∀ sl id, id ∈ t.table sl ↔ S id ∧ t.slot (hash (keyOf id)) = sl
  bucket : t.expanding = true → t.expandBucket < hashsize (t.hashpower - 1)

section

variable {hash : Bytes → ℕ} {keyOf : ItemId → Bytes} {S : ItemId → Prop} {t : Assoc}

theorem holds_init (hash : Bytes → ℕ) (keyOf : ItemId → Bytes) (hashpower : ℕ) :
    Holds hash keyOf (fun _ => False) (init hashpower) where
  nodup := by
    rintro ⟨_ | _, n⟩ <;> exact nodup_nil
  mem := by
    rintro ⟨_ | _, n⟩ id
    · exact ⟨(nomatch ·), fun h => h.1.elim⟩
    · exact ⟨(nomatch ·), fun h => h.1.elim⟩
  bucket h := by cases h

theorem Holds.congr {keyOf' : ItemId → Bytes} {S' : ItemId → Prop} (h : Holds hash keyOf S t)
    (hset : ∀ id, S' id ↔ S id) (hkey : ∀ id, S id → keyOf' id = keyOf id) :
    Holds hash keyOf' S' t where
  nodup := h.nodup
  mem sl id := by
    rw [h.mem, hset]
    refine and_congr_right fun hid => ?_
    rw [hkey id hid]
  bucket := h.bucket

variable {id : ItemId}

theorem Holds.mem_chain (h : Holds hash keyOf S t) {hv : ℕ} :
    id ∈ t.chain hv ↔ S id ∧ t.slot (hash (keyOf id)) = t.slot hv := by
  rw [chain_eq_table, h.mem]

theorem Holds.find_eq_some (h : Holds hash keyOf S t)
    (hkeys : ∀ id id', S id → S id' → keyOf id = keyOf id' → id = id') {key : Bytes} :
    t.find keyOf key (hash key) = some id ↔ S id ∧ keyOf id = key := by
  constructor
  · intro hfind
    have hmem := (h.mem_chain).1 (mem_of_find?_eq_some hfind)
    exact ⟨hmem.1, by simpa using find?_some hfind⟩
  · rintro ⟨hid, rfl⟩
    have hmem : id ∈ t.chain (hash (keyOf id)) := h.mem_chain.2 ⟨hid, rfl⟩
    cases hfind : t.find keyOf (keyOf id) (hash (keyOf id)) with
    | none =>
      exact absurd (decide_eq_true rfl) (find?_eq_none.1 hfind id hmem)
    | some id' =>
      have hid' := h.mem_chain.1 (mem_of_find?_eq_some hfind)
      have hkey : keyOf id' = keyOf id := by simpa using find?_some hfind
      rw [hkeys id' id hid'.1 hid hkey]

theorem Holds.insert (h : Holds hash keyOf S t) {id : ItemId} (hid : ¬ S id) :
    Holds hash keyOf (fun id' => S id' ∨ id' = id) (t.insert id (hash (keyOf id))) := by
  have htable : ∀ sl, (t.insert id (hash (keyOf id))).table sl =
      (t.setChain (hash (keyOf id)) (id :: t.chain (hash (keyOf id)))).table sl := by
    rintro ⟨_ | _, n⟩ <;> rfl
  have hslot : ∀ hv, (t.insert id (hash (keyOf id))).slot hv = t.slot hv :=
    fun hv => slot_setChain t _ _ hv
  have hnew : ∀ sl, id ∉ t.table sl := fun sl hmem => hid ((h.mem sl id).1 hmem).1
  constructor
  · intro sl
    rw [htable, table_setChain]
    split_ifs with heq
    · rw [chain_eq_table]
      exact nodup_cons.2 ⟨hnew _, h.nodup _⟩
    · exact h.nodup sl
  · intro sl id'
    rw [htable, table_setChain, hslot]
    split_ifs with heq
    · rw [mem_cons, h.mem_chain, heq]
      constructor
      · rintro (rfl | hmem)
        · exact ⟨.inr rfl, rfl⟩
        · exact ⟨.inl hmem.1, hmem.2⟩
      · rintro ⟨hmem | rfl, hsl⟩
        · exact .inr ⟨hmem, hsl⟩
        · exact .inl rfl
    · rw [h.mem]
      constructor
      · exact fun hmem => ⟨.inl hmem.1, hmem.2⟩
      · rintro ⟨hmem | rfl, hsl⟩
        · exact ⟨hmem, hsl⟩
        · exact absurd hsl.symm heq
  · unfold Assoc.insert setChain
    split_ifs <;> exact h.bucket

/-- Only the item itself has its key, so that the first match of the chain is the item. -/
theorem eraseP_eq_erase {l : List ItemId} (hkeys : ∀ id' ∈ l, keyOf id' = keyOf id → id' = id) :
    l.eraseP (fun id' => decide (keyOf id' = keyOf id)) = l.erase id := by
  rw [erase_eq_eraseP]
  induction l with
  | nil => rfl
  | cons a l ih =>
    by_cases ha : a = id
    · rw [eraseP_cons_of_pos (by simp [ha]), eraseP_cons_of_pos (by simp [ha])]
    · rw [eraseP_cons_of_neg, eraseP_cons_of_neg (by simpa using Ne.symm ha),
        ih fun id' hid' => hkeys id' (mem_cons_of_mem _ hid')]
      rw [decide_eq_true_eq]
      exact fun hkey => ha (hkeys a mem_cons_self hkey)

theorem Holds.delete (h : Holds hash keyOf S t)
    (hkeys : ∀ id id', S id → S id' → keyOf id = keyOf id' → id = id') {id : ItemId} (hid : S id) :
    Holds hash keyOf (fun id' => S id' ∧ id' ≠ id)
      (t.delete keyOf (keyOf id) (hash (keyOf id))) := by
  have herase : (t.chain (hash (keyOf id))).eraseP (fun id' => decide (keyOf id' = keyOf id)) =
      (t.chain (hash (keyOf id))).erase id :=
    eraseP_eq_erase fun id' hid' => hkeys id' id (h.mem_chain.1 hid').1 hid
  have hfound : (t.find keyOf (keyOf id) (hash (keyOf id))).isSome := by
    rw [(h.find_eq_some hkeys).2 ⟨hid, rfl⟩]
    rfl
  have htable : ∀ sl, (t.delete keyOf (keyOf id) (hash (keyOf id))).table sl =
      (t.setChain (hash (keyOf id)) ((t.chain (hash (keyOf id))).erase id)).table sl := by
    intro sl
    unfold Assoc.delete
    rw [if_pos hfound, ← herase]
    exact table_hashItems _ _ sl
  have hslot : ∀ hv, (t.delete keyOf (keyOf id) (hash (keyOf id))).slot hv = t.slot hv := by
    intro hv
    unfold Assoc.delete
    rw [if_pos hfound]
    exact (slot_hashItems _ _ hv).trans (slot_setChain t _ _ hv)
  constructor
  · intro sl
    rw [htable, table_setChain]
    split_ifs with heq
    · rw [chain_eq_table]
      exact (h.nodup _).erase id
    · exact h.nodup sl
  · intro sl id'
    rw [htable, table_setChain, hslot]
    split_ifs with heq
    · rw [chain_eq_table, (h.nodup _).mem_erase_iff, h.mem, heq]
      exact ⟨fun hmem => ⟨⟨hmem.2.1, hmem.1⟩, hmem.2.2⟩, fun hmem => ⟨hmem.1.2, hmem.1.1, hmem.2⟩⟩
    · rw [h.mem]
      refine ⟨fun hmem => ⟨⟨hmem.1, fun hne => heq ?_⟩, hmem.2⟩, fun hmem => ⟨hmem.1.1, hmem.2⟩⟩
      rw [← hmem.2, hne]
  · unfold Assoc.delete setChain
    split_ifs <;> exact h.bucket

/-! ## Growing -/

theorem Holds.expand (h : Holds hash keyOf S t) (hstill : t.expanding = false) :
    Holds hash keyOf S t.expand := by
  have hslot : ∀ hv, t.slot hv = (false, hv % hashsize t.hashpower) := fun hv =>
    if_neg fun hold => absurd hold.1 (by rw [hstill]; decide)
  have hslot' : ∀ hv, t.expand.slot hv = (true, hv % hashsize t.hashpower) := fun hv =>
    if_pos ⟨rfl, Nat.zero_le _⟩
  constructor
  · rintro ⟨_ | _, n⟩
    · exact nodup_nil
    · exact h.nodup (false, n)
  · rintro ⟨_ | _, n⟩ id
    · exact ⟨(nomatch ·), fun hmem => nomatch hmem.2⟩
    · have hmem := h.mem (false, n) id
      rw [hslot] at hmem
      rw [hslot']
      refine Iff.trans hmem ?_
      simp only [Prod.mk.injEq, true_and]
  · intro _
    exact Nat.pow_pos (by decide)

theorem mem_foldl_update {dest : ItemId → ℕ} {ids : List ItemId} {primary : ℕ → List ItemId} {n : ℕ} :
    id ∈ ids.foldl (fun primary id => update primary (dest id)
      (id :: primary (dest id))) primary n ↔ id ∈ primary n ∨ id ∈ ids ∧ dest id = n := by
  induction ids generalizing primary with
  | nil => simp
  | cons a ids ih =>
    rw [foldl_cons, ih, mem_cons]
    by_cases hn : n = dest a
    · subst hn
      rw [update_self, mem_cons]
      constructor
      · rintro ((rfl | hmem) | hmem)
        · exact .inr ⟨.inl rfl, rfl⟩
        · exact .inl hmem
        · exact .inr ⟨.inr hmem.1, hmem.2⟩
      · rintro (hmem | ⟨rfl | hmem, hdest⟩)
        · exact .inl (.inr hmem)
        · exact .inl (.inl rfl)
        · exact .inr ⟨hmem, hdest⟩
    · rw [update_of_ne hn]
      constructor
      · rintro (hmem | hmem)
        · exact .inl hmem
        · exact .inr ⟨.inr hmem.1, hmem.2⟩
      · rintro (hmem | ⟨rfl | hmem, hdest⟩)
        · exact .inl hmem
        · exact absurd hdest.symm hn
        · exact .inr ⟨hmem, hdest⟩

theorem nodup_foldl_update {dest : ItemId → ℕ} {ids : List ItemId} {primary : ℕ → List ItemId}
    (hids : ids.Nodup) (hprimary : ∀ n, (primary n).Nodup)
    (hnew : ∀ n, ∀ id ∈ ids, id ∉ primary n) (n : ℕ) :
    (ids.foldl (fun primary id => update primary (dest id)
      (id :: primary (dest id))) primary n).Nodup := by
  induction ids generalizing primary with
  | nil => exact hprimary n
  | cons a ids ih =>
    rw [nodup_cons] at hids
    refine ih hids.2 (fun m => ?_) fun m id hid => ?_ <;> dsimp only
    · by_cases hm : m = dest a
      · rw [hm, update_self]
        exact nodup_cons.2 ⟨hnew _ a mem_cons_self, hprimary _⟩
      · rw [update_of_ne hm]
        exact hprimary m
    · have hid' := hnew m id (mem_cons_of_mem _ hid)
      by_cases hm : m = dest a
      · rw [hm, update_self, mem_cons, not_or]
        exact ⟨fun heq => hids.1 (heq ▸ hid), hm ▸ hid'⟩
      · rwa [update_of_ne hm]

/-- With 31 bits the index of the maintenance thread is not negative. -/
theorem putPrimary_bucketOf (hpower : t.hashpower ≤ 31) (primary : ℕ → List ItemId) (hv : ℕ)
    (id : ItemId) : putPrimary primary (t.bucketOf hv) id =
      update primary (hv % hashsize t.hashpower)
        (id :: primary (hv % hashsize t.hashpower)) := by
  have hlt : hv % hashsize t.hashpower < 2 ^ 31 :=
    lt_of_lt_of_le (Nat.mod_lt _ (Nat.pow_pos (by decide))) (Nat.pow_le_pow_right (by decide) hpower)
  have hbucket : t.bucketOf hv = (hv % hashsize t.hashpower : ℕ) := by
    apply Int.bmod_eq_of_le <;> push_cast <;> omega
  unfold putPrimary
  rw [hbucket, if_neg (by omega), Int.toNat_natCast]

variable (h : Holds hash keyOf S t)

include h

/-- The thread counts the buckets of a table of 30 bits exactly. -/
theorem moveBucket_expandBucket (hpower : t.hashpower ≤ 31)
    (hgrows : t.expanding = true) : (t.expandBucket + 1) % 2 ^ 32 = t.expandBucket + 1 := by
  have hbucket := h.bucket hgrows
  have hle : hashsize (t.hashpower - 1) ≤ 2 ^ 30 := Nat.pow_le_pow_right (by decide) (by omega)
  exact Nat.mod_eq_of_lt (by omega)

theorem Holds.moved {t' : Assoc} (hgrows : t.expanding = true)
    (hhashpower : t'.hashpower = t.hashpower)
    (hprimary : t'.primary = (t.old t.expandBucket).foldl
      (fun primary id => update primary (hash (keyOf id) % hashsize t.hashpower)
        (id :: primary (hash (keyOf id) % hashsize t.hashpower))) t.primary)
    (hold' : t'.old = update t.old t.expandBucket [])
    (hexpandBucket : t'.expandBucket = t.expandBucket + 1)
    (hexpanding : t'.expanding = decide (t.expandBucket + 1 ≠ hashsize (t.hashpower - 1))) :
    Holds hash keyOf S t' := by
  have hbucket := h.bucket hgrows
  -- only the hash values of the bucket change their place
  have hslot : ∀ hv, t'.slot hv =
      if hv % hashsize (t.hashpower - 1) = t.expandBucket then (false, hv % hashsize t.hashpower)
      else t.slot hv := by
    intro hv
    have hlt : hv % hashsize (t.hashpower - 1) < hashsize (t.hashpower - 1) :=
      Nat.mod_lt _ (Nat.pow_pos (by decide))
    have hold : t'.InOld hv ↔ t.expandBucket + 1 ≤ hv % hashsize (t.hashpower - 1) := by
      unfold InOld
      rw [hexpanding, hexpandBucket, hhashpower, decide_eq_true_eq]
      omega
    have hin' : t.InOld hv ↔ t.expandBucket ≤ hv % hashsize (t.hashpower - 1) :=
      ⟨fun hold => hold.2, fun hle => ⟨hgrows, hle⟩⟩
    unfold slot
    simp only [hold, hin', hhashpower]
    split_ifs <;> first | rfl | omega
  have hold : ∀ hv, hv % hashsize (t.hashpower - 1) = t.expandBucket →
      t.slot hv = (true, t.expandBucket) := by
    intro hv heq
    have hin : t.InOld hv := ⟨hgrows, heq.ge⟩
    unfold slot
    rw [if_pos hin, heq]
  have hmoved : ∀ id, id ∈ t.old t.expandBucket ↔ S id ∧
      hash (keyOf id) % hashsize (t.hashpower - 1) = t.expandBucket := by
    intro id
    refine (h.mem (true, t.expandBucket) id).trans (and_congr_right fun _ => ⟨fun hsl => ?_, hold _⟩)
    unfold slot at hsl
    split_ifs at hsl with hin
    · exact congrArg Prod.snd hsl
    · cases congrArg Prod.fst hsl
  constructor
  · rintro ⟨_ | _, n⟩
    · change (t'.primary n).Nodup
      rw [hprimary]
      refine nodup_foldl_update (h.nodup (true, _)) (fun n => h.nodup (false, n)) ?_ n
      intro n id hid hmem
      have hsl := ((h.mem (true, _) id).1 hid).2
      rw [((h.mem (false, n) id).1 hmem).2] at hsl
      cases congrArg Prod.fst hsl
    · change (t'.old n).Nodup
      rw [hold']
      by_cases hn : n = t.expandBucket
      · rw [hn, update_self]
        exact nodup_nil
      · rw [update_of_ne hn]
        exact h.nodup (true, n)
  · rintro ⟨_ | _, n⟩ id
    · change id ∈ t'.primary n ↔ _
      rw [hslot, hprimary]
      refine mem_foldl_update.trans ?_
      rw [hmoved, show id ∈ t.primary n ↔ _ from h.mem (false, n) id]
      split_ifs with heq
      · rw [hold _ heq]
        simp only [Prod.mk.injEq, reduceCtorEq, false_and, and_false, false_or, heq, and_true,
          true_and]
      · simp only [heq, and_false, false_and, or_false]
    · change id ∈ t'.old n ↔ _
      rw [hslot, hold']
      by_cases hn : n = t.expandBucket
      · rw [hn, update_self]
        refine ⟨(nomatch ·), fun ⟨hid, hsl⟩ => ?_⟩
        split_ifs at hsl with heq
        · cases congrArg Prod.fst hsl
        · exact absurd ((hmoved id).1 ((h.mem (true, _) id).2 ⟨hid, hsl⟩)).2 heq
      · rw [update_of_ne hn, show id ∈ t.old n ↔ _ from h.mem (true, n) id]
        split_ifs with heq
        · rw [hold _ heq]
          simp only [Prod.mk.injEq, Ne.symm hn, and_false, reduceCtorEq, false_and]
        · rfl
  · intro hstill
    rw [hexpanding, decide_eq_true_eq] at hstill
    rw [hexpandBucket, hhashpower]
    omega

theorem Holds.moveBucket (hpower : t.hashpower ≤ 31)
    (hgrows : t.expanding = true) : Holds hash keyOf S (t.moveBucket keyOf hash) := by
  have hcount := moveBucket_expandBucket h hpower hgrows
  unfold Assoc.moveBucket
  simp only [putPrimary_bucketOf hpower, hcount]
  exact h.moved hgrows rfl rfl rfl rfl rfl

theorem Holds.maintain (hpower : t.expanding = true → t.hashpower ≤ 31)
    (calloc : Bool) : Holds hash keyOf S (t.maintain keyOf hash calloc) := by
  unfold Assoc.maintain
  split_ifs with hgrows hcalloc
  · exact h.moveBucket (hpower hgrows) hgrows
  · exact h.expand (by simpa using hgrows)
  · exact ⟨h.nodup, h.mem, h.bucket⟩

end

/-! ## The finite map -/

structure Store where
  table : Assoc
  keyOf : ItemId → Bytes
  entries : List (Bytes × ItemId)

inductive Op where
  | insert (id : ItemId) (key : Bytes)
  | delete (key : Bytes)
  | maintain (calloc : Bool)
  deriving DecidableEq, Repr

namespace Store

def init (hashpower : ℕ) : Store := ⟨Assoc.init hashpower, fun _ => [], []⟩

variable (hash : Bytes → ℕ)

def step (w : Store) : Op → Store
  | .insert id key =>
    { table := w.table.insert id (hash key)
      keyOf := update w.keyOf id key
      entries := (key, id) :: w.entries }
  | .delete key =>
    { w with
      table := w.table.delete w.keyOf key (hash key)
      entries := w.entries.filter fun p => decide (p.1 ≠ key) }
  | .maintain calloc => { w with table := w.table.maintain w.keyOf hash calloc }

/-- Keys that are absent are inserted, fewer than 2 ^ 32 at a time, and keys that are present are
deleted; a table of more than 31 bits does not grow any more. -/
def Cond (w : Store) : Op → Prop
  | .insert id key => key ∉ w.entries.map Prod.fst ∧ id ∉ w.entries.map Prod.snd ∧
      w.entries.length + 1 < 2 ^ 32
  | .delete key => key ∈ w.entries.map Prod.fst
  | .maintain _ => w.table.expanding = true → w.table.hashpower ≤ 31

instance (w : Store) : ∀ o, Decidable (w.Cond o)
  | .insert _ _ => inferInstanceAs (Decidable (_ ∧ _))
  | .delete _ => inferInstanceAs (Decidable (_ ∈ _))
  | .maintain _ => inferInstanceAs (Decidable (_ → _))

/-- The table finds what the map has, and each of its items once. -/
structure IsMap (w : Store) : Prop where
  find : ∀ key, w.table.find w.keyOf key (hash key) = w.entries.lookup key
  once : ∀ id ∈ w.entries.map Prod.snd, ∃! sl, id ∈ w.table.table sl
  nodup : ∀ sl, (w.table.table sl).Nodup
  only : ∀ sl, ∀ id ∈ w.table.table sl, id ∈ w.entries.map Prod.snd
  moved : w.table.expanding = true → ∀ n < w.table.expandBucket, w.table.old n = []
  hashItems : w.table.hashItems = w.entries.length

structure Inv (w : Store) : Prop where
  holds : w.table.Holds hash w.keyOf (fun id => id ∈ w.entries.map Prod.snd)
  keys : (w.entries.map Prod.fst).Nodup
  items : (w.entries.map Prod.snd).Nodup
  keyOf : ∀ p ∈ w.entries, w.keyOf p.2 = p.1
  hashItems : w.table.hashItems = w.entries.length
  bound : w.entries.length < 2 ^ 32

variable {hash} {w : Store} {id : ItemId}

theorem Inv.keyOf_mem (h : w.Inv hash) (hid : id ∈ w.entries.map Prod.snd) :
    (w.keyOf id, id) ∈ w.entries := by
  obtain ⟨p, hp, rfl⟩ := mem_map.1 hid
  rw [h.keyOf p hp]
  exact hp

theorem Inv.keys_inj (h : w.Inv hash) (id id' : ItemId) (hid : id ∈ w.entries.map Prod.snd)
    (hid' : id' ∈ w.entries.map Prod.snd) (heq : w.keyOf id = w.keyOf id') : id = id' := by
  have := inj_on_of_nodup_map h.keys (h.keyOf_mem hid) (h.keyOf_mem hid') heq
  exact congrArg Prod.snd this

variable {key : Bytes}

theorem Inv.mem_iff (h : w.Inv hash) :
    (key, id) ∈ w.entries ↔ id ∈ w.entries.map Prod.snd ∧ w.keyOf id = key := by
  constructor
  · exact fun hmem => ⟨mem_map_of_mem hmem, h.keyOf _ hmem⟩
  · rintro ⟨hid, rfl⟩
    exact h.keyOf_mem hid

theorem lookup_eq_some {l : List (Bytes × ItemId)} (h : (l.map Prod.fst).Nodup) :
    l.lookup key = some id ↔ (key, id) ∈ l := by
  induction l with
  | nil => simp
  | cons p l ih =>
    obtain ⟨k, i⟩ := p
    rw [map_cons, nodup_cons] at h
    rw [lookup_cons, mem_cons, Prod.mk.injEq]
    by_cases hkey : key = k
    · subst hkey
      rw [beq_self_eq_true]
      rw [Option.some_inj]
      constructor
      · exact fun heq => .inl ⟨rfl, heq.symm⟩
      · rintro (heq | hmem)
        · exact heq.2.symm
        · exact absurd (mem_map_of_mem hmem) h.1
    · rw [beq_false_of_ne hkey]
      rw [ih h.2]
      simp [hkey]

theorem Inv.isMap (h : w.Inv hash) : w.IsMap hash where
  find key := by
    refine Option.ext fun id => ?_
    rw [h.holds.find_eq_some h.keys_inj, lookup_eq_some h.keys, h.mem_iff]
  once id hid := by
    refine ⟨_, (h.holds.mem _ id).2 ⟨hid, rfl⟩, fun sl hsl => ?_⟩
    exact ((h.holds.mem sl id).1 hsl).2.symm
  nodup := h.holds.nodup
  only sl id hid := ((h.holds.mem sl id).1 hid).1
  moved hgrows n hn := by
    refine eq_nil_iff_forall_not_mem.2 fun id hid => ?_
    have hsl := ((h.holds.mem (true, n) id).1 hid).2
    unfold slot at hsl
    split_ifs at hsl with hold
    · have := congrArg Prod.snd hsl
      have := hold.2
      omega
    · cases congrArg Prod.fst hsl
  hashItems := h.hashItems

theorem inv_init (hashpower : ℕ) : (init hashpower).Inv hash where
  holds := (holds_init hash (fun _ => []) hashpower).congr (fun _ => ⟨(nomatch ·), False.elim⟩)
    fun _ _ => rfl
  keys := nodup_nil
  items := nodup_nil
  keyOf _ hp := absurd hp not_mem_nil
  hashItems := rfl
  bound := Nat.two_pow_pos 32

theorem hashItems_setChain : (t.setChain hv ids).hashItems = t.hashItems := by
  unfold setChain
  split_ifs <;> rfl

theorem Inv.insert (h : w.Inv hash) {id : ItemId} (hcond : w.Cond (.insert id key)) :
    (w.step hash (.insert id key)).Inv hash := by
  obtain ⟨hkey, hid, hbound⟩ := hcond
  have hsame : ∀ id', id' ∈ w.entries.map Prod.snd →
      update w.keyOf id key id' = w.keyOf id' := by
    intro id' hid'
    apply update_of_ne
    rintro rfl
    exact hid hid'
  have hnew : update w.keyOf id key id = key := update_self _ _ _
  have hholds := (h.holds.congr (fun _ => Iff.rfl) hsame).insert hid
  rw [hnew] at hholds
  refine ⟨hholds.congr (fun id' => ?_) fun _ _ => rfl, ?_, ?_, ?_, ?_, hbound⟩
  · dsimp only [Store.step]
    rw [map_cons, mem_cons, or_comm]
  · exact nodup_cons.2 ⟨hkey, h.keys⟩
  · exact nodup_cons.2 ⟨hid, h.items⟩
  · intro p hp
    rcases mem_cons.1 hp with rfl | hp
    · exact hnew
    · exact (hsame _ (mem_map_of_mem hp)).trans (h.keyOf p hp)
  · dsimp only [Store.step, Assoc.insert]
    rw [hashItems_setChain, h.hashItems]
    exact Nat.mod_eq_of_lt hbound

theorem Inv.delete (h : w.Inv hash) (hcond : w.Cond (.delete key)) :
    (w.step hash (.delete key)).Inv hash := by
  obtain ⟨⟨k, id⟩, hmem, rfl⟩ := mem_map.1 hcond
  have hid := h.mem_iff.1 hmem
  obtain ⟨hid, hkey⟩ := hid
  have hholds := h.holds.delete h.keys_inj hid
  rw [hkey] at hholds
  have hsub : (w.entries.filter fun p => decide (p.1 ≠ k)).Sublist w.entries := filter_sublist
  -- the key is in the map once
  have hlength : (w.entries.filter fun p => decide (p.1 ≠ k)).length + 1 = w.entries.length := by
    have hcount : (w.entries.map Prod.fst).count k = 1 :=
      count_eq_one_of_mem h.keys (mem_map_of_mem hmem)
    have hsplit := length_eq_length_filter_add (l := w.entries) fun p => decide (p.1 ≠ k)
    rw [count_eq_countP, countP_map, countP_eq_length_filter] at hcount
    have hnot : (fun p : Bytes × ItemId => !decide (p.1 ≠ k)) = (fun x => x == k) ∘ Prod.fst := by
      funext p
      simp [Bool.beq_eq_decide_eq]
    rw [hnot] at hsplit
    omega
  refine ⟨hholds.congr (fun id' => ?_) fun _ _ => rfl, hsub.map _ |>.nodup h.keys,
    hsub.map _ |>.nodup h.items, fun p hp => h.keyOf p (hsub.subset hp), ?_, ?_⟩
  · dsimp only [Store.step]
    constructor
    · intro hid'
      obtain ⟨p, hp, rfl⟩ := mem_map.1 hid'
      rw [mem_filter, decide_eq_true_eq] at hp
      refine ⟨mem_map_of_mem hp.1, fun heq => hp.2 ?_⟩
      rw [← h.keyOf p hp.1, heq, hkey]
    · rintro ⟨hid', hne⟩
      refine mem_map.2 ⟨(w.keyOf id', id'), mem_filter.2 ⟨h.keyOf_mem hid', ?_⟩, rfl⟩
      rw [decide_eq_true_eq]
      exact fun heq => hne (h.keys_inj id' id hid' hid (heq.trans hkey.symm))
  · have hfound : (w.table.find w.keyOf k (hash k)).isSome := by
      rw [(h.holds.find_eq_some h.keys_inj).2 ⟨hid, hkey⟩]
      rfl
    dsimp only [Store.step]
    unfold Assoc.delete
    rw [if_pos hfound]
    dsimp only
    rw [h.hashItems]
    have := h.bound
    omega
  · dsimp only [Store.step]
    have := h.bound
    omega

theorem Inv.maintain (h : w.Inv hash) {calloc : Bool} (hcond : w.Cond (.maintain calloc)) :
    (w.step hash (.maintain calloc)).Inv hash where
  holds := h.holds.maintain hcond calloc
  keys := h.keys
  items := h.items
  keyOf := h.keyOf
  hashItems := by
    dsimp only [Store.step]
    rw [← h.hashItems]
    unfold Assoc.maintain
    split_ifs <;> rfl
  bound := h.bound

theorem Inv.step (h : w.Inv hash) (o : Op) (hcond : w.Cond o) : (w.step hash o).Inv hash := by
  cases o with
  | insert id key => exact h.insert hcond
  | delete key => exact h.delete hcond
  | maintain calloc => exact h.maintain hcond

/-- The table is the finite map of the keys that were inserted and not deleted since, however it
grows. -/
theorem assoc_isMap (hash : Bytes → ℕ) (hashpower : ℕ) (os : List Op)
    (h : Run.Along (step hash) Cond (init hashpower) os) :
    (os.foldl (step hash) (init hashpower)).IsMap hash :=
  (h.foldl (fun _ o hw hcond => Inv.step hw o hcond) (inv_init hashpower)).isMap

/-- Two items, one of them inserted while the table grows. -/
theorem assoc_isMap_grow : (([.insert 0 [97], .maintain true, .maintain true, .insert 1 [98],
      .delete [97], .maintain true] : List Op).foldl (step fun key => key.sum.toNat)
      (init 1)).IsMap (fun key => key.sum.toNat) :=
  assoc_isMap _ _ _ (by decide +kernel)

/-- A table of 31 bits grows, and an item whose hash value is 2 ^ 31 is lost when its bucket is
moved. -/
theorem assoc_isMap_lost :
    let w := ([.insert 0 [97], .maintain true, .maintain true] : List Op).foldl
      (step fun _ => 2 ^ 31) (init 31)
    w.entries.lookup [97] = some 0 ∧ w.table.find w.keyOf [97] (2 ^ 31) = none := by
  decide +kernel

end Store

end ServerStack.Memcached.Assoc
