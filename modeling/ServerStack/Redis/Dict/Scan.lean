import ServerStack.Lib.BitReversal
import ServerStack.Redis.Dict.Refinement

/-!
# `dictScan`

A scan is a sequence of calls that hand each returned cursor to the next, with other calls in
between.  The cursor counts in bit-reversed order, so every key not yet returned has a hash at or
after the cursor in that order, whatever the sizes of the tables.  The inner loop over the larger
table counts upwards in the ordinary order instead: a cursor with other bits than a block of ones
between the two masks makes it skip buckets.
-/

namespace ServerStack.Redis.HashTable

open Outcome BitReversal BitVec

variable {K V : Type}

/-! ## The function -/

/-- Swap neighbouring blocks of `s` bits. -/
def revRound (s : ℕ) (mask v : BitVec 64) : BitVec 64 :=
  ((v >>> s) &&& mask) ||| ((v <<< s) &&& ~~~mask)

def revLoop : ℕ → ℕ → BitVec 64 → BitVec 64 → BitVec 64
  | 0, _, _, v => v
  | fuel + 1, s, mask, v =>
    let s := s >>> 1
    if s > 0 then
      let mask := mask ^^^ (mask <<< s)
      revLoop fuel s mask (revRound s mask v)
    else v

def rev (v : BitVec 64) : BitVec 64 := revLoop 64 64 (~~~0) v

/-- Increment the reverse cursor on the masked bits of the smaller table. -/
def nextCursor (m0 v : BitVec 64) : BitVec 64 := rev (rev (v ||| ~~~m0) + 1)

/-- The loop over the indices in the larger table that are the expansion of the cursor. -/
def scanExpansions (t1 : Dictht K V) (m0 m1 : BitVec 64) :
    ℕ → BitVec 64 → Except Fault (BitVec 64 × List (DictEntry K V))
  | 0, _ => .error .unfinished
  | fuel + 1, v => do
    let chain ← t1.bucket (v &&& m1).toNat
    let v := (((v ||| m0) + 1) &&& ~~~m0) ||| (v &&& m0)
    if v &&& (m0 ^^^ m1) ≠ 0 then do
      let (v, rest) ← scanExpansions t1 m0 m1 fuel v
      return (v, chain ++ rest)
    else return (v, chain)

/-- The smaller of the two tables; the first one when they have the same size. -/
def Dict.smaller (d : Dict K V) : Dictht K V := if d.ht0.size > d.ht1.size then d.ht1 else d.ht0

def Dict.larger (d : Dict K V) : Dictht K V := if d.ht0.size > d.ht1.size then d.ht0 else d.ht1

/-- `dictScan`: the new cursor and the entries passed to the callback. -/
def dictScan (d : Dict K V) (v : BitVec 64) : Except Fault (BitVec 64 × List (DictEntry K V)) :=
  if dictSize d = 0 then .ok (0, [])
  else if dictIsRehashing d = false then do
    let m0 := BitVec.ofNat 64 d.ht0.sizemask
    let chain ← d.ht0.bucket (v &&& m0).toNat
    return (nextCursor m0 v, chain)
  else do
    let m0 := BitVec.ofNat 64 d.smaller.sizemask
    let m1 := BitVec.ofNat 64 d.larger.sizemask
    let chain ← d.smaller.bucket (v &&& m0).toNat
    let (v, rest) ← scanExpansions d.larger m0 m1 (d.larger.size + 1) v
    return (nextCursor m0 v, chain ++ rest)

/-! ## The reversed cursor -/

/-- The mask of a round selects the bits that move down. -/
def SwapMask (s : ℕ) (mask : BitVec 64) : Prop :=
  ∀ i < 64, if mask.getLsbD i then i ^^^ s = i + s else s ≤ i ∧ i ^^^ s = i - s

instance (s : ℕ) (mask : BitVec 64) : Decidable (SwapMask s mask) :=
  inferInstanceAs (Decidable (∀ i < 64, _))

/-- One round of `rev` reads bit `i ^^^ s` for bit `i`. -/
theorem getLsbD_revRound {s : ℕ} {mask : BitVec 64} (hmask : SwapMask s mask) (v : BitVec 64) {i : ℕ}
    (hi : i < 64) : (revRound s mask v).getLsbD i = v.getLsbD (i ^^^ s) := by
  have hbit := hmask i hi
  simp only [revRound, getLsbD_or, getLsbD_and, getLsbD_ushiftRight,
    getLsbD_shiftLeft, getLsbD_not, hi, decide_true, Bool.true_and]
  split_ifs at hbit with hm
  · rw [hbit, hm, Nat.add_comm]
    simp
  · rw [hbit.2, Bool.eq_false_of_not_eq_true hm]
    simp [show ¬ i < s by omega]

theorem rev_eq_reverse (v : BitVec 64) : rev v = v.reverse := by
  have hrounds : rev v = revRound 1 0x5555555555555555 (revRound 2 0x3333333333333333
      (revRound 4 0x0F0F0F0F0F0F0F0F (revRound 8 0x00FF00FF00FF00FF
        (revRound 16 0x0000FFFF0000FFFF (revRound 32 0x00000000FFFFFFFF v))))) := rfl
  have hxor : ∀ i < 64, i ^^^ 1 < 64 ∧ i ^^^ 2 < 64 ∧ i ^^^ 4 < 64 ∧ i ^^^ 8 < 64 ∧ i ^^^ 16 < 64 ∧
      i ^^^ 1 ^^^ 2 ^^^ 4 ^^^ 8 ^^^ 16 ^^^ 32 = 63 - i := by decide
  apply eq_of_getLsbD_eq
  intro i hi
  have h1 := (hxor i hi).1
  have h2 := (hxor _ h1).2.1
  have h4 := (hxor _ h2).2.2.1
  have h8 := (hxor _ h4).2.2.2.1
  have h16 := (hxor _ h8).2.2.2.2.1
  rw [hrounds, getLsbD_revRound (by decide) _ hi, getLsbD_revRound (by decide) _ h1,
    getLsbD_revRound (by decide) _ h2, getLsbD_revRound (by decide) _ h4,
    getLsbD_revRound (by decide) _ h8, getLsbD_revRound (by decide) _ h16, (hxor i hi).2.2.2.2.2,
    getLsbD_reverse, getMsbD_eq_getLsbD]
  simp [hi]

theorem nextCursor_eq (p : ℕ) (v : BitVec 64) : nextCursor (lowMask 64 p) v = next p v := by
  rw [nextCursor, rev_eq_reverse, rev_eq_reverse, next]

/-! ## The loop over the larger table -/

variable {p : ℕ} {ht : Dictht K V} {d : Dict K V}

theorem bucket_cursor (hp : p ≤ 64) (hsize : ht.size = 2 ^ p) (v : BitVec 64) :
    ht.bucket (v &&& lowMask 64 p).toNat = .ok (ht.table (v.toNat % 2 ^ p)) := by
  rw [toNat_and_lowMask hp]
  exact ht.bucket_of_lt (by rw [hsize]; exact Nat.mod_lt _ (Nat.two_pow_pos p))

/-- The loop ends, keeps the low bits of the cursor, and emits every bucket from the cursor upwards
that shares its low bits. -/
theorem scanExpansions_spec {t1 : Dictht K V} {n : ℕ} (hn : p + n ≤ 64)
    (hsize : t1.size = 2 ^ (p + n)) :
    ∀ (fuel : ℕ) (v : BitVec 64), 2 ^ n ≤ fuel + v.toNat / 2 ^ p % 2 ^ n → 0 < fuel →
      ∃ v' out, scanExpansions t1 (lowMask 64 p) (lowMask 64 (p + n)) fuel v = .ok (v', out) ∧
        v'.toNat % 2 ^ p = v.toNat % 2 ^ p ∧
        ∀ u < 2 ^ (p + n), u % 2 ^ p = v.toNat % 2 ^ p → v.toNat % 2 ^ (p + n) ≤ u →
          ∀ he ∈ t1.table u, he ∈ out
  | 0, v, _, hfuel => absurd hfuel (Nat.lt_irrefl 0)
  | fuel + 1, v, hfuel, _ => by
      have hp : p ≤ 64 := by omega
      have hmod : ∀ x : ℕ, x % 2 ^ (p + n) = x % 2 ^ p + 2 ^ p * (x / 2 ^ p % 2 ^ n) := by
        intro x
        rw [pow_add, Nat.mod_mul]
      have hlt : v.toNat / 2 ^ p % 2 ^ n < 2 ^ n := Nat.mod_lt _ (Nat.two_pow_pos n)
      have hbump := bump_div hn (by decide) v
      have hlow := bump_mod hp (by decide) v
      have hsucc : (v.toNat / 2 ^ p + 1) % 2 ^ n =
          if v.toNat / 2 ^ p % 2 ^ n + 1 = 2 ^ n then 0 else v.toNat / 2 ^ p % 2 ^ n + 1 := by
        rw [← Nat.mod_add_mod]
        split_ifs with hlast
        · rw [hlast, Nat.mod_self]
        · exact Nat.mod_eq_of_lt (by omega)
      have htest := and_xor_lowMask_eq_zero hn (bump p v)
      rw [scanExpansions, bucket_cursor hn hsize, ← bump]
      simp only [bind, Except.bind]
      by_cases hlast : v.toNat / 2 ^ p % 2 ^ n + 1 = 2 ^ n
      · rw [if_pos hlast] at hsucc
        rw [if_neg (not_not.2 (htest.2 (hbump.trans hsucc)))]
        refine ⟨_, _, rfl, hlow, fun u hu hclass hle he hhe => ?_⟩
        have hmax : u / 2 ^ p % 2 ^ n ≤ v.toNat / 2 ^ p % 2 ^ n := by
          omega
        have hmul := Nat.mul_le_mul_left (2 ^ p) hmax
        have heq : v.toNat % 2 ^ (p + n) = u := by
          have hu' := hmod u
          have hv' := hmod v.toNat
          rw [Nat.mod_eq_of_lt hu] at hu'
          omega
        rwa [heq]
      · rw [if_neg hlast] at hsucc
        rw [if_pos fun hzero => by
          have := hbump.symm.trans (htest.1 hzero)
          omega]
        obtain ⟨v', out, hrec, hlow', hcover⟩ := scanExpansions_spec hn hsize fuel (bump p v)
          (by rw [hbump, hsucc]; omega) (by omega)
        rw [hrec]
        refine ⟨v', _, rfl, hlow'.trans hlow, fun u hu hclass hle he hhe => ?_⟩
        rcases Nat.eq_or_lt_of_le hle with heq | hgt
        · exact List.mem_append_left _ (by rwa [heq])
        · refine List.mem_append_right _ (hcover u hu (hclass.trans hlow.symm) ?_ he hhe)
          have hu' := hmod u
          have hv' := hmod v.toNat
          rw [Nat.mod_eq_of_lt hu] at hu'
          have hstep : v.toNat / 2 ^ p % 2 ^ n + 1 ≤ u / 2 ^ p % 2 ^ n := by
            have hlt' : 2 ^ p * (v.toNat / 2 ^ p % 2 ^ n) < 2 ^ p * (u / 2 ^ p % 2 ^ n) := by omega
            exact Nat.lt_of_mul_lt_mul_left hlt'
          have hmul := Nat.mul_le_mul_left (2 ^ p) hstep
          rw [hmod, hbump, hsucc]
          omega

/-- With a block of ones between the masks, the words after the cursor in reversed order are after
it in the ordinary order too. -/
theorem bucket_le_of_aligned {n : ℕ} (hn : p + n ≤ 64) {u v : BitVec 64}
    (halign : ((v.toNat &&& (2 ^ (p + n) - 1) ||| (2 ^ p - 1)) + 1).isPowerOfTwo)
    (hle : revNat v ≤ revNat u) (hclass : u.toNat % 2 ^ p = v.toNat % 2 ^ p) :
    v.toNat % 2 ^ (p + n) ≤ u.toNat % 2 ^ (p + n) := by
  obtain ⟨j, hj⟩ := halign
  have hones : v.toNat &&& (2 ^ (p + n) - 1) ||| (2 ^ p - 1) = 2 ^ j - 1 := by omega
  have hbit : ∀ i, (decide (i < p + n) && v.toNat.testBit i || decide (i < p)) = decide (i < j) := by
    intro i
    have := congrArg (fun x => x.testBit i) hones
    simpa [Nat.testBit_or, Nat.testBit_and, Nat.testBit_two_pow_sub_one, Bool.and_comm] using this
  have hpj : p ≤ j := by
    by_contra hlt
    have := hbit j
    simp [show j < p by omega] at this
  have hjn : j ≤ p + n := by
    by_contra hlt
    have := hbit (p + n)
    simp [show p + n < j by omega] at this
  have hv : v.toNat % 2 ^ (p + n) = v.toNat % 2 ^ j := by
    apply Nat.eq_of_testBit_eq
    intro i
    have := hbit i
    by_cases hi : i < j
    · simp [hi, show i < p + n by omega]
    · by_cases hin : i < p + n
      · simpa [hi, hin, show ¬ i < p by omega] using this
      · simp [hi, hin]
  have hu := mod_eq_of_ones hpj (hjn.trans hn) (fun i hpi hij => by
    have := hbit i
    simpa [hij, show ¬ i < p by omega, show i < p + n by omega] using this) hle hclass
  rw [hv, ← hu, ← Nat.mod_mod_of_dvd u.toNat (pow_dvd_pow 2 hjn)]
  exact Nat.mod_le _ _

/-! ## One call -/

def hashWord (hash : K → UInt32) (key : K) : BitVec 64 := BitVec.ofNat 64 (hash key).toNat

theorem toNat_hashWord (hash : K → UInt32) (key : K) :
    (hashWord hash key).toNat = (hash key).toNat := by
  have := (hash key).toNat_lt
  rw [hashWord, toNat_ofNat, Nat.mod_eq_of_lt (by omega)]

/-- While rehashing, the bits of the cursor above the smaller mask and inside the larger one are a
block of ones right above the smaller mask, or none. -/
def CursorAligned (d : Dict K V) (v : BitVec 64) : Prop :=
  dictIsRehashing d = true →
    ((v.toNat &&& d.larger.sizemask ||| d.smaller.sizemask) + 1).isPowerOfTwo

instance (d : Dict K V) (v : BitVec 64) : Decidable (CursorAligned d v) :=
  inferInstanceAs (Decidable (_ → _))

def Dict.entries (d : Dict K V) : List (DictEntry K V) := d.ht0.entries ++ d.ht1.entries

/-- The entry was emitted, or its hash is at or after the returned cursor. -/
def Passed (hash : K → UInt32) (v : BitVec 64) (out : List (DictEntry K V)) (he : DictEntry K V) :
    Prop :=
  he ∈ out ∨ v ≠ 0 ∧ revNat v ≤ revNat (hashWord hash he.key)

variable {hash : K → UInt32}

theorem Dictht.WF.mask_lowMask (h : ht.WF hash) :
    ∃ p ≤ 30, ht.size = 2 ^ p ∧ ht.sizemask = 2 ^ p - 1 ∧
      BitVec.ofNat 64 ht.sizemask = lowMask 64 p := by
  obtain ⟨p, hp⟩ := h.size_pow
  have hle := h.size_le
  rw [hp, maxBuckets, Nat.pow_le_pow_iff_right (by decide)] at hle
  have hmask : ht.sizemask = 2 ^ p - 1 := by rw [h.mask_eq, hp]
  exact ⟨p, hle, hp, hmask, by rw [hmask, lowMask]⟩

theorem Dictht.WF.mem_bucket (h : ht.WF hash) (hp : ht.size = 2 ^ p) {he : DictEntry K V}
    (hhe : he ∈ ht.entries) {u : ℕ} (hclass : (hashWord hash he.key).toNat % 2 ^ p = u) :
    he ∈ ht.table u := by
  rw [toNat_hashWord, ← hp, ← h.index_eq] at hclass
  rw [← hclass]
  exact h.mem_entries.1 hhe

theorem Idle.scan (h : Idle hash d) (hsize : dictSize d ≠ 0) (v : BitVec 64) :
    ∃ v' out, dictScan d v = .ok (v', out) ∧ ∀ he ∈ d.entries,
      revNat v ≤ revNat (hashWord hash he.key) → Passed hash v' out he := by
  have hwf : d.ht0.WF hash := by
    rcases h.ht0_wf with hreset | hwf
    · refine absurd ?_ hsize
      rw [h.size_eq, hreset]
      rfl
    · exact hwf
  obtain ⟨p, hp, hpow, -, hmask⟩ := hwf.mask_lowMask
  refine ⟨next p v, d.ht0.table (v.toNat % 2 ^ p), ?_, ?_⟩
  · rw [dictScan, if_neg hsize, if_pos h.not_rehashing]
    simp only [hmask, bucket_cursor (show p ≤ 64 by omega) hpow, nextCursor_eq, bind, Except.bind]
    rfl
  · intro he hhe hle
    have hhe0 : he ∈ d.ht0.entries := by
      rw [Dict.entries, h.ht1_eq] at hhe
      simpa [Dictht.entries, dictReset] using hhe
    rcases same_class_or_next_le (show p ≤ 64 by omega) hle with hclass | hnext
    · exact .inl (hwf.mem_bucket hpow hhe0 hclass)
    · exact .inr hnext

theorem Dict.mem_entries_iff (d : Dict K V) (he : DictEntry K V) :
    he ∈ d.entries ↔ he ∈ d.smaller.entries ∨ he ∈ d.larger.entries := by
  rw [Dict.entries, List.mem_append, Dict.smaller, Dict.larger]
  split_ifs
  · exact Or.comm
  · exact Iff.rfl

variable [DecidableEq K]

theorem Rehashing.smaller_larger (h : Rehashing hash d) :
    d.smaller.WF hash ∧ d.larger.WF hash ∧ d.smaller.size ≤ d.larger.size := by
  rw [Dict.smaller, Dict.larger]
  split_ifs with hlt
  · exact ⟨h.ht1_wf, h.ht0_wf, hlt.le⟩
  · exact ⟨h.ht0_wf, h.ht1_wf, Nat.not_lt.1 hlt⟩

theorem Rehashing.scan (h : Rehashing hash d) (hsize : dictSize d ≠ 0) (v : BitVec 64) :
    ∃ v' out, dictScan d v = .ok (v', out) ∧ (CursorAligned d v → ∀ he ∈ d.entries,
      revNat v ≤ revNat (hashWord hash he.key) → Passed hash v' out he) := by
  obtain ⟨hwf0, hwf1, hle⟩ := h.smaller_larger
  obtain ⟨p, hp, hpow0, hmask0, hlow0⟩ := hwf0.mask_lowMask
  obtain ⟨q, hq, hpow1, hmask1, hlow1⟩ := hwf1.mask_lowMask
  rw [hpow0, hpow1, Nat.pow_le_pow_iff_right (by decide)] at hle
  obtain ⟨n, rfl⟩ := Nat.exists_eq_add_of_le hle
  have hp64 : p ≤ 64 := by omega
  have hfuel : 2 ^ n ≤ d.larger.size + 1 + v.toNat / 2 ^ p % 2 ^ n := by
    have := Nat.pow_le_pow_right (show 0 < 2 by decide) (Nat.le_add_left n p)
    omega
  obtain ⟨v₁, rest, hloop, hlow, hcover⟩ :=
    scanExpansions_spec (show p + n ≤ 64 by omega) hpow1 (d.larger.size + 1) v hfuel (by omega)
  have hnext : next p v₁ = next p v := by
    have hcursor : v₁ ||| ~~~(lowMask 64 p) = v ||| ~~~(lowMask 64 p) := by
      apply eq_of_getLsbD_eq
      intro i hi
      have hbit := congrArg (fun x => x.testBit i) hlow
      simp only [Nat.testBit_mod_two_pow, testBit_toNat] at hbit
      simp only [getLsbD_or, getLsbD_not, lowMask, getLsbD_ofNat, Nat.testBit_two_pow_sub_one]
      by_cases hip : i < p
      · simpa [hip, hi] using hbit
      · simp [hip, hi]
    rw [next, next, hcursor]
  refine ⟨next p v, d.smaller.table (v.toNat % 2 ^ p) ++ rest, ?_, ?_⟩
  · rw [dictScan, if_neg hsize, if_neg (by rw [h.rehashing]; decide)]
    simp only [hlow0, hlow1, bucket_cursor hp64 hpow0, hloop, nextCursor_eq, hnext, bind,
      Except.bind]
    rfl
  · intro halign he hhe hrev
    rcases same_class_or_next_le hp64 hrev with hclass | hnext
    · left
      rw [List.mem_append]
      rcases (d.mem_entries_iff he).1 hhe with hsmall | hlarge
      · exact .inl (hwf0.mem_bucket hpow0 hsmall hclass)
      · right
        have haligned := halign h.rehashing
        rw [hmask0, hmask1] at haligned
        refine hcover _ (Nat.mod_lt _ (Nat.two_pow_pos _)) ?_
          (bucket_le_of_aligned (by omega) haligned hrev hclass) he
          (hwf1.mem_bucket hpow1 hlarge rfl)
        rw [Nat.mod_mod_of_dvd _ (pow_dvd_pow 2 (by omega)), hclass]
    · exact .inr hnext

theorem DictInv.entries_length (h : DictInv hash d) : d.entries.length = dictSize d := by
  have hrep := h.represents
  rw [Dict.entries, List.length_append, ← hrep.used0_eq, ← hrep.used1_eq, dictSize]

/-- A call emits every entry whose hash the cursor passes. -/
theorem DictInv.scan (h : DictInv hash d) (v : BitVec 64) :
    ∃ v' out, dictScan d v = .ok (v', out) ∧ (CursorAligned d v → ∀ he ∈ d.entries,
      revNat v ≤ revNat (hashWord hash he.key) → Passed hash v' out he) := by
  by_cases hsize : dictSize d = 0
  · refine ⟨0, [], by rw [dictScan, if_pos hsize], fun _ he hhe => ?_⟩
    rw [← h.entries_length] at hsize
    rw [List.eq_nil_of_length_eq_zero hsize] at hhe
    cases hhe
  · rcases h with h | h
    · obtain ⟨v', out, hscan, hpassed⟩ := h.scan hsize v
      exact ⟨v', out, hscan, fun _ => hpassed⟩
    · exact h.scan hsize v

/-! ## Whole scans -/

/-- A scan in progress: the dictionary, the cursor for the next call, and what was emitted. -/
structure ScanState (K V : Type) where
  d : Dict K V
  cursor : BitVec 64
  emitted : List (DictEntry K V)
  finished : Bool

inductive ScanEvent (K V : Type) where
  | scan
  | call (op : DictOp K V)

def startScan (d : Dict K V) : ScanState K V :=
  { d := d, cursor := 0, emitted := [], finished := false }

def scanStep (hash : K → UInt32) (s : ScanState K V) : ScanEvent K V → Except Fault (ScanState K V)
  | .scan =>
    if s.finished then .ok s
    else do
      let (v, out) ← dictScan s.d s.cursor
      return { s with cursor := v, emitted := s.emitted ++ out, finished := v == 0 }
  | .call op => do
    let d ← dictStep hash s.d op
    return { s with d := d }

/-- The condition on one event: an aligned cursor for a call of the scan, and no oversized table
for any other call. -/
def EventFits (s : ScanState K V) : ScanEvent K V → Prop
  | .scan => s.finished = true ∨ CursorAligned s.d s.cursor
  | .call op => bucketRequest s.d op ≤ maxBuckets

def Present (key : K) (s : ScanState K V) : Prop :=
  s.finished = true ∨ key ∈ s.d.entries.map DictEntry.key

instance (s : ScanState K V) : DecidablePred (EventFits s)
  | .scan => inferInstanceAs (Decidable (_ ∨ _))
  | .call _ => inferInstanceAs (Decidable (_ ≤ _))

instance (key : K) : DecidablePred (Present key : ScanState K V → Prop) := fun _ =>
  inferInstanceAs (Decidable (_ ∨ _))

def Covered (hash : K → UInt32) (key : K) (s : ScanState K V) : Prop :=
  key ∈ s.emitted.map DictEntry.key ∨
    s.finished = false ∧ revNat s.cursor ≤ revNat (hashWord hash key)

/-- One event, with what it means for a key that is in the dictionary. -/
theorem scanStep_spec {s : ScanState K V} (hinv : DictInv hash s.d) {e : ScanEvent K V}
    (hfit : EventFits s e) :
    ∃ s', scanStep hash s e = .ok s' ∧ DictInv hash s'.d ∧
      ∀ key, Present key s → Covered hash key s → Covered hash key s' := by
  cases e with
  | scan =>
    rw [scanStep]
    split_ifs with hfinished
    · exact ⟨s, rfl, hinv, fun key _ => id⟩
    · obtain ⟨v', out, hscan, hpassed⟩ := hinv.scan s.cursor
      rw [hscan]
      refine ⟨_, rfl, hinv, fun key hpresent hcovered => ?_⟩
      rcases hcovered with hemitted | ⟨-, hrev⟩
      · exact .inl (by simpa using .inl (by simpa using hemitted))
      · obtain ⟨he, hhe, rfl⟩ := List.mem_map.1 (hpresent.resolve_left hfinished)
        rcases hpassed (hfit.resolve_left hfinished) he hhe hrev with hout | ⟨hne, hrev'⟩
        · exact .inl (List.mem_map.2 ⟨he, List.mem_append_right _ hout, rfl⟩)
        · exact .inr ⟨by simpa using hne, hrev'⟩
  | call op =>
    obtain ⟨d', hstep, hinv', -⟩ := dictStep_spec hinv hfit
    rw [scanStep, hstep]
    exact ⟨_, rfl, hinv', fun key _ hcovered => hcovered⟩

/-- A finished scan has emitted every key that was there all the time. -/
theorem dictScan_complete (hash : K → UInt32) (ops : List (DictOp K V)) (hops : RunFits hash ops)
    {d : Dict K V} (hrun : dictRun hash ops = .ok d) (events : List (ScanEvent K V))
    (hevents : AllSteps (scanStep hash) EventFits (startScan d) events) :
    ∃ s, events.foldlM (scanStep hash) (startScan d) = .ok s ∧ (s.finished = true → ∀ key,
        AllStates (scanStep hash) (Present key) (startScan d) events →
          key ∈ s.emitted.map DictEntry.key) := by
  obtain ⟨d₀, hrun₀, hinv, -⟩ := dictRun_spec ops hops
  obtain rfl : d = d₀ := by
    rw [hrun] at hrun₀
    exact Except.ok.inj hrun₀
  have hmeets : Meets (events.foldlM (scanStep hash) (startScan d))
      (fun s => DictInv hash s.d) (fun _ => False) := by
    refine Meets.foldlM_of_allSteps (fun s e hs hfit => ?_) hinv hevents
    obtain ⟨s', hstep, hinv', -⟩ := scanStep_spec hs hfit
    rw [hstep]
    exact hinv'
  obtain ⟨s, hs, -⟩ := meets_false_iff.1 hmeets
  refine ⟨s, hs, fun hfinished key hpresent => ?_⟩
  have hstart : Covered hash key (startScan d) := .inr ⟨rfl, by
    show revNat (0 : BitVec 64) ≤ _
    rw [revNat_zero]
    exact Nat.zero_le _⟩
  have hcovered : Meets (events.foldlM (scanStep hash) (startScan d))
      (fun s => DictInv hash s.d ∧ Covered hash key s) (fun _ => False) := by
    refine Meets.foldlM_of_allSteps (fun s e hs hfit => ?_) ⟨hinv, hstart⟩ (hevents.and hpresent)
    obtain ⟨s', hstep, hinv', hkept⟩ := scanStep_spec hs.1 hfit.1
    rw [hstep]
    exact ⟨hinv', hkept key hfit.2 hs.2⟩
  rcases (hcovered.post hs).2 with hemitted | ⟨hnot, -⟩
  · exact hemitted
  · rw [hfinished] at hnot
    cases hnot

def sixteenBuckets : List (DictOp ℕ ℕ) := [.expand 16, .add true 4 0]

/-- The table grows to 64 buckets in the middle of a scan, and the rehash goes on during it. -/
def growingScan : List (ScanEvent ℕ ℕ) :=
  [.scan, .call (.expand 64), .call (.rehash 1), .scan, .call (.rehash 1), .scan]

theorem dictScan_complete_growing :
    RunFits UInt32.ofNat sixteenBuckets ∧ ∃ d, dictRun UInt32.ofNat sixteenBuckets = .ok d ∧
      AllSteps (scanStep UInt32.ofNat) EventFits (startScan d) growingScan ∧
      ∃ s, growingScan.foldlM (scanStep UInt32.ofNat) (startScan d) = .ok s ∧
        (s.finished = true → ∀ key,
          AllStates (scanStep UInt32.ofNat) (Present key) (startScan d) growingScan →
            key ∈ s.emitted.map DictEntry.key) := by
  have hops : RunFits UInt32.ofNat sixteenBuckets := by
    unfold RunFits
    decide +kernel
  obtain ⟨d, hrun, hevents⟩ : ∃ d, dictRun UInt32.ofNat sixteenBuckets = .ok d ∧
      AllSteps (scanStep UInt32.ofNat) EventFits (startScan d) growingScan := by
    refine ⟨_, rfl, ?_⟩
    decide +kernel
  exact ⟨hops, d, hrun, hevents, dictScan_complete _ _ hops hrun _ hevents⟩

/-- The table shrinks to 4 buckets after the first call: the cursor 8 makes the second call visit
the buckets 8 and 12 of the old table, and the key in bucket 4 is never emitted. -/
theorem dictScan_shrinking_misses_key : ∃ d, dictRun UInt32.ofNat sixteenBuckets = .ok d ∧
      AllStates (scanStep UInt32.ofNat) (Present 4) (startScan d)
        [.scan, .call (.resize true), .scan, .scan, .scan, .scan] ∧
      ∃ s, [.scan, .call (.resize true), .scan, .scan, .scan, .scan].foldlM
          (scanStep UInt32.ofNat) (startScan d) = .ok s ∧
        s.finished = true ∧ 4 ∉ s.emitted.map DictEntry.key := by
  refine ⟨_, rfl, ?_, _, rfl, ?_, ?_⟩
  · decide +kernel
  · decide +kernel
  · decide +kernel

/-! ## A dictionary that does not change -/

/-- The bucket that the call after `i` calls visits. -/
def visited (p i : ℕ) : ℕ := ((next p)^[i] (0 : BitVec 64)).toNat % 2 ^ p

theorem visited_perm (hp : p ≤ 64) : ((List.range (2 ^ p)).map (visited p)).Perm
    (List.range (2 ^ p)) := by
  have hinj : ∀ i ∈ List.range (2 ^ p), ∀ j ∈ List.range (2 ^ p),
      visited p i = visited p j → i = j := by
    intro i hi j hj hij
    have hrev : ∀ k ∈ List.range (2 ^ p),
        revNat ((next p)^[k] (0 : BitVec 64)) / 2 ^ (64 - p) = k := by
      intro k hk
      have hk := List.mem_range.1 hk
      rw [revNat_iterate_next hp hk.le, Nat.mod_eq_of_lt (high_lt hp hk),
        Nat.mul_div_cancel_left _ (Nat.two_pow_pos _)]
    rw [← hrev i hi, ← hrev j hj]
    exact (prefix_eq_iff hp _ _).2 hij
  refine (List.subperm_of_subset (List.nodup_range.map_on hinj) fun x hx => ?_).perm_of_length_le
    (by simp)
  obtain ⟨i, -, rfl⟩ := List.mem_map.1 hx
  exact List.mem_range.2 (Nat.mod_lt _ (Nat.two_pow_pos p))

theorem scan_calls (hwf : d.ht0.WF hash) (hidle : dictIsRehashing d = false)
    (hsize : dictSize d ≠ 0) (hp : p ≤ 64) (hpow : d.ht0.size = 2 ^ p) {i : ℕ} (hi : i ≤ 2 ^ p) :
    (List.replicate i .scan).foldlM (scanStep hash) (startScan d) =
      .ok ⟨d, (next p)^[i] 0, ((List.range i).map (visited p)).flatMap d.ht0.table,
        decide (i = 2 ^ p)⟩ := by
  have hmask : BitVec.ofNat 64 d.ht0.sizemask = lowMask 64 p := by
    rw [hwf.mask_eq, hpow, lowMask]
  induction i with
  | zero => simp [startScan, pure, Except.pure, (Nat.two_pow_pos p).ne]
  | succ i ih =>
    have hscan : dictScan d ((next p)^[i] 0) =
        .ok ((next p)^[i + 1] 0, d.ht0.table (visited p i)) := by
      rw [dictScan, if_neg hsize, if_pos hidle]
      simp only [hmask, bucket_cursor hp hpow, nextCursor_eq, bind, Except.bind]
      rw [Function.iterate_succ_apply']
      rfl
    have hzero : ((next p)^[i + 1] (0 : BitVec 64) == 0) = decide (i + 1 = 2 ^ p) := by
      rw [Bool.eq_iff_iff, beq_iff_eq, decide_eq_true_iff, iterate_next_eq_zero_iff hp hi]
      exact or_iff_right (Nat.succ_ne_zero i)
    have hstep : ∀ e, scanStep hash ⟨d, (next p)^[i] 0, e, false⟩ .scan =
        .ok ⟨d, (next p)^[i + 1] 0, e ++ d.ht0.table (visited p i), decide (i + 1 = 2 ^ p)⟩ := by
      intro e
      rw [← hzero, scanStep, hscan]
      rfl
    rw [List.replicate_succ', List.foldlM_append, ih (by omega), List.range_succ, List.map_append,
      List.flatMap_append, decide_eq_false (show i ≠ 2 ^ p by omega), List.map_singleton,
      List.flatMap_singleton]
    exact congrArg (· >>= pure) (hstep _)

/-- A scan of a dictionary that does not change, outside of a rehash, visits one bucket in each call
and each bucket once, is finished after as many calls as there are buckets and not before, and has
then emitted every entry exactly once. -/
theorem dictScan_unchanged (ops : List (DictOp K V)) (hops : RunFits hash ops)
    (hrun : dictRun hash ops = .ok d) (hidle : dictIsRehashing d = false) (hsize : dictSize d ≠ 0) :
    ∃ order : List ℕ, order.Perm (List.range d.ht0.size) ∧
      (∀ i ≤ d.ht0.size, ∃ s,
        (List.replicate i .scan).foldlM (scanStep hash) (startScan d) = .ok s ∧
        (s.finished = true ↔ i = d.ht0.size) ∧
        s.emitted = (order.take i).flatMap d.ht0.table) ∧
      (order.flatMap d.ht0.table).Perm d.entries := by
  obtain ⟨d₀, hrun₀, hinv, -⟩ := dictRun_spec ops hops
  obtain rfl : d = d₀ := Except.ok.inj (hrun.symm.trans hrun₀)
  have hidle' : Idle hash d := hinv.resolve_right fun h => by
    have := h.rehashidx_nonneg
    simp only [dictIsRehashing, bne_eq_false_iff_eq] at hidle
    omega
  have hwf : d.ht0.WF hash := hidle'.ht0_wf.resolve_left fun hreset => hsize <| by
    rw [hidle'.size_eq, hreset]
    rfl
  obtain ⟨p, hp, hpow, -, -⟩ := hwf.mask_lowMask
  have hp : p ≤ 64 := hp.trans (by decide)
  rw [hpow]
  refine ⟨(List.range (2 ^ p)).map (visited p), visited_perm hp, fun i hi => ?_, ?_⟩
  · refine ⟨_, scan_calls hwf hidle hsize hp hpow hi, decide_eq_true_iff, ?_⟩
    rw [← List.map_take, List.take_range, Nat.min_eq_left hi]
  · rw [Dict.entries, hidle'.ht1_eq, Dictht.entries, hpow]
    exact ((visited_perm hp).flatMap_right _).trans (by simp [Dictht.entries, dictReset])

theorem dictScan_unchanged_sixteen : ∃ d, dictRun UInt32.ofNat sixteenBuckets = .ok d ∧
    d.ht0.size = 16 ∧ ∃ order : List ℕ, order.Perm (List.range d.ht0.size) ∧
      (∀ i ≤ d.ht0.size, ∃ s,
        (List.replicate i .scan).foldlM (scanStep UInt32.ofNat) (startScan d) = .ok s ∧
        (s.finished = true ↔ i = d.ht0.size) ∧
        s.emitted = (order.take i).flatMap d.ht0.table) ∧
      (order.flatMap d.ht0.table).Perm d.entries := by
  refine ⟨_, rfl, rfl, dictScan_unchanged sixteenBuckets ?_ rfl rfl ?_⟩
  · unfold RunFits
    decide +kernel
  · decide

end ServerStack.Redis.HashTable
