import ServerStack.Nginx.RadixTreeSpec

/-!
# Runs of radix tree operations

The two cursors run through the bits of their keys, so every run of insertions, deletions and
searches on a new tree returns what the map from prefixes returns.  A deletion must not meet a leaf
without a value or the root alone, and a 128-bit search must not get to a node at the end of its key.
-/

namespace ServerStack.Nginx.RadixTree

open Outcome List

/-! ## Bits -/

section

variable {κ : Type} (bit : κ → ℕ → Bool) (width : ℕ)

def keyBits (key : κ) : List Bool := (List.range width).map (bit key)

def maskedBits (key mask : κ) : List Bool := ((List.range width).filter (bit mask)).map (bit key)

def Contiguous (mask : κ) : Prop := ∃ n ≤ width, ∀ i < width, bit mask i = decide (i < n)

variable {bit width} {n k : ℕ}

theorem maskedBits_eq {mask : κ} (hn : n ≤ width) (hmask : ∀ i < width, bit mask i = decide (i < n))
    (key : κ) : maskedBits bit width key mask = (List.range n).map (bit key) := by
  have hfilter : (List.range width).filter (bit mask) = List.range n := by
    rw [filter_congr fun i hi => hmask i (mem_range.1 hi)]
    obtain ⟨k, rfl⟩ := Nat.exists_eq_add_of_le hn
    rw [range_add, filter_append, filter_eq_self.2 (by simp),
      filter_eq_nil_iff.2 (by simp), append_nil]
  rw [maskedBits, hfilter]

theorem spells_range {P : Type} {c : Cursor P} {pos : ℕ → P} {f : ℕ → Bool}
    (hnext : ∀ i < n, c.next (pos i) = pos (i + 1)) (hright : ∀ i < n, c.right (pos i) = .ok (f i))
    (hmore : ∀ i ≤ n, c.more (pos i) = decide (i < n)) {i : ℕ} (hi : i + k = n) :
    Spells c (pos i) ((List.range' i k).map f) := by
  induction k generalizing i with
  | zero => exact .stop (by simp [hmore i (by omega)]; omega)
  | succ k ih =>
    refine .step (by simp [hmore i (by omega)]; omega) (hright i (by omega)) ?_
    rw [hnext i (by omega)]
    exact ih (by omega)

theorem leads_range {P : Type} {c : Cursor P} {pos : ℕ → P} {f : ℕ → Bool}
    (hnext : ∀ i < n, c.next (pos i) = pos (i + 1)) (hright : ∀ i < n, c.right (pos i) = .ok (f i))
    {i : ℕ} (hi : i + k = n) : Leads c (pos i) ((List.range' i k).map f) (pos n) := by
  induction k generalizing i with
  | zero =>
    obtain rfl : i = n := by omega
    exact .nil _
  | succ k ih =>
    refine .cons (hright i (by omega)) ?_
    rw [hnext i (by omega)]
    exact ih (by omega)

theorem and_twoPow_ne_zero_iff {w : ℕ} (x : BitVec w) (hk : k < w) :
    x &&& BitVec.twoPow w k ≠ 0#w ↔ x.getLsbD k = true := by
  have hne : BitVec.twoPow w k ≠ 0#w := by
    intro h0
    have := congrArg BitVec.toNat h0
    rw [BitVec.toNat_twoPow_of_lt hk] at this
    simp at this
  rw [BitVec.and_twoPow]
  split_ifs with h <;> simp [h, hne]

end

structure Reads {κ P : Type} (cursor : κ → κ → Cursor P) (bit : κ → ℕ → Bool) (width : ℕ)
    (last : P) : Prop where
  masked : ∀ key mask, Contiguous bit width mask →
    Spells (cursor key mask) (cursor key mask).first (maskedBits bit width key mask)
  whole : ∀ key mask, Leads (cursor key mask) (cursor key mask).first (keyBits bit width key) last

variable {width depth : ℕ} {t : Tree}

theorem reads_of_positions {κ P : Type} {cursor : κ → κ → Cursor P} {bit : κ → ℕ → Bool}
    {pos : ℕ → P} (hfirst : ∀ key mask, (cursor key mask).first = pos 0)
    (hnext : ∀ key mask, ∀ i < width, (cursor key mask).next (pos i) = pos (i + 1))
    (hright : ∀ key mask, ∀ i < width, (cursor key mask).right (pos i) = .ok (bit key i))
    (hmore : ∀ key mask, ∀ i < width, (cursor key mask).more (pos i) = bit mask i)
    (hend : ∀ key mask, (cursor key mask).more (pos width) = false) :
    Reads cursor bit width (pos width) := by
  constructor
  · rintro key mask ⟨n, hn, hmask⟩
    rw [hfirst, maskedBits_eq hn hmask, range_eq_range']
    refine spells_range (fun i hi => hnext key mask i (by omega))
      (fun i hi => hright key mask i (by omega)) ?_ (Nat.zero_add n)
    intro i hi
    rcases Nat.lt_or_ge i width with hlt | hge
    · rw [hmore key mask i hlt, hmask i hlt]
    · obtain rfl : i = width := by omega
      rw [hend]
      exact (decide_eq_false (by omega)).symm
  · intro key mask
    rw [hfirst, keyBits, range_eq_range']
    exact leads_range (hnext key mask) (hright key mask) (Nat.zero_add width)

/-! ## The two cursors -/

def bit32 (key : UInt32) (i : ℕ) : Bool := key.toBitVec.getMsbD i

def pos32 (i : ℕ) : UInt32 := ⟨0x80000000#32 >>> i⟩

theorem and_pos32 (key : UInt32) {i : ℕ} (hi : i < 32) :
    key &&& pos32 i ≠ 0 ↔ bit32 key i = true := by
  have hpos : 0x80000000#32 >>> i = BitVec.twoPow 32 (31 - i) := by
    revert i
    decide
  have h := and_twoPow_ne_zero_iff key.toBitVec (by omega : 31 - i < 32)
  rw [← hpos] at h
  simpa [pos32, bit32, BitVec.getMsbD, hi, Nat.mod_eq_of_lt hi, ← UInt32.toBitVec_inj] using h

theorem reads32 : Reads cursor32 bit32 32 (pos32 32) := by
  refine reads_of_positions (fun _ _ => rfl) ?_ ?_ ?_ ?_
  · intro _ _
    change ∀ i < 32, pos32 i >>> 1 = pos32 (i + 1)
    decide
  · intro key mask i hi
    change Except.ok (decide (key &&& pos32 i ≠ 0)) = _
    simp only [and_pos32 key hi, Bool.decide_eq_true]
  · intro key mask i hi
    change decide (pos32 i &&& mask ≠ 0) = _
    rw [UInt32.and_comm]
    simp only [and_pos32 mask hi, Bool.decide_eq_true]
  · intro key mask
    change decide (pos32 32 &&& mask ≠ 0) = false
    have hzero : pos32 32 = 0 := by decide
    simp [hzero]

def bit128 (key : Key128) (i : ℕ) : Bool :=
  if h : i / 8 < 16 then (key ⟨i / 8, h⟩).toBitVec.getMsbD (i % 8) else false

def pos128 (i : ℕ) : ℕ × UInt8 := (i / 8, ⟨0x80#8 >>> (i % 8)⟩)

theorem and_pos128 (b : UInt8) {r : ℕ} (hr : r < 8) :
    b &&& ⟨0x80#8 >>> r⟩ ≠ 0 ↔ b.toBitVec.getMsbD r = true := by
  have hpos : 0x80#8 >>> r = BitVec.twoPow 8 (7 - r) := by
    revert r
    decide
  have h := and_twoPow_ne_zero_iff b.toBitVec (by omega : 7 - r < 8)
  rw [← hpos] at h
  simpa [BitVec.getMsbD, hr, Nat.mod_eq_of_lt hr, ← UInt8.toBitVec_inj] using h

theorem reads128 : Reads cursor128 bit128 128 (pos128 128) := by
  refine reads_of_positions (fun _ _ => rfl) ?_ ?_ ?_ ?_
  · intro _ _
    change ∀ i < 128, (if (pos128 i).2 >>> 1 = 0 then ((pos128 i).1 + 1, (0x80 : UInt8))
      else ((pos128 i).1, (pos128 i).2 >>> 1)) = pos128 (i + 1)
    decide +kernel
  · intro key mask i hi
    have hbyte : i / 8 < 16 := by omega
    have hr : i % 8 < 8 := Nat.mod_lt i (by decide)
    simp only [cursor128, pos128, bit128, hbyte, dif_pos, and_pos128 _ hr, Bool.decide_eq_true]
  · intro key mask i hi
    have hbyte : i / 8 < 16 := by omega
    have hr : i % 8 < 8 := Nat.mod_lt i (by decide)
    simp only [cursor128, pos128, bit128, hbyte, dif_pos]
    rw [UInt8.and_comm]
    simp only [and_pos128 _ hr, Bool.decide_eq_true]
  · intro key mask
    rfl

/-! ## Runs -/

inductive Op (κ : Type) where
  | insert (key mask : κ) (value : UInt64)
  | delete (key mask : κ)
  | find (key : κ)

inductive Result where
  | status (s : Status)
  | value (v : UInt64)
  deriving DecidableEq

section

variable {κ : Type}

def step (insert : Tree → κ → κ → UInt64 → Except Fault (Tree × Status))
    (delete : Tree → κ → κ → Except Fault (Tree × Status)) (find : Tree → κ → Except Fault UInt64)
    (s : Tree × List Result) : Op κ → Except Fault (Tree × List Result)
  | .insert key mask v => do
    let (t, status) ← insert s.1 key mask v
    return (t, s.2 ++ [.status status])
  | .delete key mask => do
    let (t, status) ← delete s.1 key mask
    return (t, s.2 ++ [.status status])
  | .find key => do
    return (s.1, s.2 ++ [.value (← find s.1 key)])

def step32 : Tree × List Result → Op UInt32 → Except Fault (Tree × List Result) :=
  step radix32treeInsert radix32treeDelete radix32treeFind

def step128 : Tree × List Result → Op Key128 → Except Fault (Tree × List Result) :=
  step radix128treeInsert radix128treeDelete radix128treeFind

variable (bit : κ → ℕ → Bool) (width : ℕ)

def mapStep (s : Map × List Result) : Op κ → Map × List Result
  | .insert key mask v =>
    let p := maskedBits bit width key mask
    if s.1 p = none then (Function.update s.1 p (some v), s.2 ++ [.status .ok])
    else (s.1, s.2 ++ [.status .busy])
  | .delete key mask =>
    let p := maskedBits bit width key mask
    if s.1 p = none then (s.1, s.2 ++ [.status .error])
    else (Function.update s.1 p none, s.2 ++ [.status .ok])
  | .find key => (s.1, s.2 ++ [.value ((longest s.1 (keyBits bit width key)).getD noValue)])

def Op.Valid : Op κ → Prop
  | .insert _ mask v => Contiguous bit width mask ∧ v ≠ noValue
  | .delete _ mask => Contiguous bit width mask
  | .find _ => True

/-- Deletions meet no bare leaf and not the root alone; searches that would overrun their key do not
get to its end. -/
def Op.Fits (overruns : Bool) (s : Tree × List Result) : Op κ → Prop
  | .insert _ _ _ => True
  | .delete key mask => Deletable s.1 (maskedBits bit width key mask)
  | .find key => overruns = true → nodeAt s.1.mem (some s.1.root) (keyBits bit width key) = none

instance : DecidablePred (Contiguous bit width) := fun mask =>
  inferInstanceAs (Decidable (∃ n ≤ width, ∀ i < width, bit mask i = decide (i < n)))

instance : DecidablePred (Op.Valid bit width)
  | .insert _ mask v => inferInstanceAs (Decidable (Contiguous bit width mask ∧ v ≠ noValue))
  | .delete _ mask => inferInstanceAs (Decidable (Contiguous bit width mask))
  | .find _ => .isTrue trivial

instance (t : Tree) (p : List Bool) : Decidable (Deletable t p) :=
  inferInstanceAs (Decidable (∀ a ∈ nodeAt t.mem (some t.root) p, (t.mem a).right = none →
    (t.mem a).left = none → p ≠ [] ∧ (t.mem a).value ≠ noValue))

instance (overruns : Bool) (s : Tree × List Result) : DecidablePred (Op.Fits bit width overruns s)
  | .insert _ _ _ => .isTrue trivial
  | .delete key mask => inferInstanceAs (Decidable (Deletable s.1 (maskedBits bit width key mask)))
  | .find key => inferInstanceAs (Decidable (overruns = true →
      nodeAt s.1.mem (some s.1.root) (keyBits bit width key) = none))

variable {bit width}

theorem length_maskedBits_le (key mask : κ) : (maskedBits bit width key mask).length ≤ width := by
  rw [maskedBits, length_map]
  exact (length_filter_le _ _).trans (length_range).le

theorem step_spec {P : Type} {cursor : κ → κ → Cursor P} {last : P}
    (hreads : Reads cursor bit width last) (zero : κ) {overruns : Bool}
    (hlast : overruns = false → ∀ key mask, ∃ b, (cursor key mask).right last = .ok b)
    {s : Tree × List Result} {a : Map × List Result} (hs : Stores width s.1 a.1 ∧ s.2 = a.2)
    {op : Op κ} (hvalid : op.Valid bit width) (hfits : op.Fits bit width overruns s) :
    Meets (step (fun t key mask v => insert (cursor key mask) (width + 1) t v)
        (fun t key mask => delete (cursor key mask) (width + 1) t)
        (fun t key => find (cursor key zero) (width + 2) t) s op)
      (fun s' => Stores width s'.1 (mapStep bit width a op).1 ∧ s'.2 = (mapStep bit width a op).2)
      fun _ => False := by
  obtain ⟨hstores, hresults⟩ := hs
  cases op with
  | insert key mask v =>
    have hlen := @length_maskedBits_le κ bit width key mask
    obtain ⟨t', hrun, ht'⟩ := insert_spec hstores (hreads.masked key mask hvalid.1) hlen
      (Nat.lt_succ_of_le hlen) v
    rw [if_neg hvalid.2] at ht'
    by_cases hp : a.1 (maskedBits bit width key mask) = none
    · rw [if_pos hp] at hrun ht'
      simp [step, mapStep, hrun, hp, hresults, ht']
    · rw [if_neg hp] at hrun ht'
      simp [step, mapStep, hrun, hp, hresults, ht']
  | delete key mask =>
    have hlen := @length_maskedBits_le κ bit width key mask
    obtain ⟨t', hrun, ht'⟩ := delete_spec hstores (hreads.masked key mask hvalid) hfits
      (Nat.lt_succ_of_le hlen)
    by_cases hp : a.1 (maskedBits bit width key mask) = none
    · rw [Function.update_eq_self_iff.2 hp.symm] at ht'
      simp [step, mapStep, hrun, hp, hresults, ht']
    · simp [step, mapStep, hrun, hp, hresults, ht']
  | find key =>
    have hrun := find_spec hstores (by simp [keyBits]) (hreads.whole key zero) (by
      intro hne
      cases overruns with
      | false => exact hlast rfl key zero
      | true => exact absurd (hfits rfl) hne)
    simp [step, mapStep, hrun, hresults, hstores]

end

/-! ## Creation -/

/-- The mask of a level, `depth` bits long. -/
def levelMask (depth : ℕ) : UInt32 := UInt32.ofNat (2 ^ 32 - 2 ^ (32 - depth))

def levelInc (depth : ℕ) : UInt32 := UInt32.ofNat (2 ^ (32 - depth))

theorem contiguous_levelMask (h : depth ≤ 8) : Contiguous bit32 32 (levelMask depth) := by
  refine ⟨depth, by omega, ?_⟩
  revert depth
  decide +kernel

theorem insert_noValue (h : Stores 32 t fun _ => none) (key : UInt32) {mask : UInt32}
    (hmask : Contiguous bit32 32 mask) : ∃ t',
      radix32treeInsert t key mask noValue = .ok (t', .ok) ∧ Stores 32 t' fun _ => none := by
  have hlen := @length_maskedBits_le UInt32 bit32 32 key mask
  obtain ⟨t', hrun, ht'⟩ := insert_spec h (reads32.masked key mask hmask) hlen
    (Nat.lt_succ_of_le hlen) noValue
  exact ⟨t', hrun, by simpa using ht'⟩

theorem preallocateLevel_spec (hpos : 0 < depth) (hdepth : depth ≤ 8)
    (h : Stores 32 t fun _ => none) {key : UInt32} {j : ℕ} (hj : j < 2 ^ depth)
    (hkey : key.toNat = j * 2 ^ (32 - depth)) {fuel : ℕ} (hfuel : 2 ^ depth ≤ j + fuel) : ∃ t',
      preallocateLevel (levelMask depth) (levelInc depth) fuel t key = .ok (some t') ∧
        Stores 32 t' fun _ => none := by
  have hpow : 2 ^ depth * 2 ^ (32 - depth) = 2 ^ 32 := by
    rw [← pow_add]
    congr 1
    omega
  have hsmall : 2 ^ (32 - depth) < 2 ^ 32 := Nat.pow_lt_pow_right Nat.one_lt_two (by omega)
  have hinc : (levelInc depth).toNat = 2 ^ (32 - depth) := UInt32.toNat_ofNat_of_lt' hsmall
  induction fuel generalizing t key j with
  | zero => omega
  | succ fuel ih =>
    obtain ⟨t', hrun, ht'⟩ := insert_noValue h key (contiguous_levelMask hdepth)
    have hsum : (key + levelInc depth).toNat = (j + 1) * 2 ^ (32 - depth) % 2 ^ 32 := by
      rw [UInt32.toNat_add, hkey, hinc, Nat.succ_mul]
    by_cases hlast : j + 1 = 2 ^ depth
    · have hzero : key + levelInc depth = 0 := by
        rw [← UInt32.toNat_inj, hsum, hlast, hpow]
        rfl
      exact ⟨t', by simp [preallocateLevel, hrun, hzero, bind, Except.bind, pure, Except.pure], ht'⟩
    · have hlt : (j + 1) * 2 ^ (32 - depth) < 2 ^ 32 := by
        rw [← hpow]
        exact Nat.mul_lt_mul_of_pos_right (by omega) (by positivity)
      rw [Nat.mod_eq_of_lt hlt] at hsum
      have hne : key + levelInc depth ≠ 0 := by
        intro hzero
        rw [hzero] at hsum
        exact absurd hsum (by simp)
      obtain ⟨t'', hrun', ht''⟩ := ih ht' (by omega : j + 1 < 2 ^ depth) hsum (by omega)
      exact ⟨t'', by simp [preallocateLevel, hrun, hne, hrun', bind, Except.bind], ht''⟩

theorem levelMask_succ (h : depth < 8) :
    levelMask depth >>> 1 ||| 0x80000000 = levelMask (depth + 1) := by
  revert depth
  decide +kernel

theorem levelInc_succ (h : depth < 8) : levelInc (depth + 1) >>> 1 = levelInc (depth + 2) := by
  revert depth
  decide +kernel

theorem preallocateLevels_spec {n : ℕ} (hn : depth + n ≤ 8) (h : Stores 32 t fun _ => none) : ∃ t',
      preallocateLevels n t (levelMask depth) (levelInc (depth + 1)) = .ok (some t') ∧
        Stores 32 t' fun _ => none := by
  induction n generalizing depth t with
  | zero => exact ⟨t, rfl, h⟩
  | succ n ih =>
    obtain ⟨t₁, hrun, h₁⟩ := preallocateLevel_spec (Nat.succ_pos depth) (by omega) h
      (Nat.two_pow_pos _) (by simp : (0 : UInt32).toNat = 0 * 2 ^ (32 - (depth + 1)))
      (by
        rw [Nat.zero_add]
        exact Nat.pow_le_pow_right Nat.two_pos (by omega) : 2 ^ (depth + 1) ≤ 0 + 2 ^ 32)
    obtain ⟨t', hrun', ht'⟩ := ih (by omega : depth + 1 + n ≤ 8) h₁
    refine ⟨t', ?_, ht'⟩
    rw [preallocateLevels, levelMask_succ (by omega), hrun, levelInc_succ (by omega)]
    exact hrun'

theorem stores_createRoot : Stores 32 createRoot fun _ => none := by
  have hplace : ∀ p a, (if p = ([] : List Bool) then some pageSize else none) = some a →
      p = [] ∧ a = pageSize := by
    intro p a ha
    split_ifs at ha with hp
    exact ⟨hp, (Option.some.inj ha).symm⟩
  have hroot : createRoot.mem pageSize = ⟨none, none, none, noValue⟩ := rfl
  refine ⟨fun p => if p = [] then some pageSize else none, [], ⟨rfl, by simp, ?_, ?_, rfl, by simp,
    ?_, rfl, nodup_nil, by simp, by simp, ?_, by decide⟩, ?_⟩
  · intro p q a hp hq
    rw [(hplace p a hp).1, (hplace q a hq).1]
  · intro p a b hp
    rw [(hplace p a hp).2, hroot]
    cases b <;> simp [Node.child]
  · intro p a hp
    simp [(hplace p a hp).1]
  · intro p a hp
    rw [(hplace p a hp).2]
    decide
  · funext p
    by_cases hp : p = []
    · simp [contents, hp, hroot, Node.stored]
    · simp [contents, hp]

theorem radixTreeCreate_spec (hdepth : depth ≤ 8) : ∃ t,
    radixTreeCreate (some depth) = .ok (some t) ∧ Stores 32 t fun _ => none :=
  preallocateLevels_spec (by omega : 0 + depth ≤ 8) stores_createRoot

theorem Stores.mono {width' : ℕ} (hle : width ≤ width') {m : Map} (h : Stores width t m) :
    Stores width' t m := by
  obtain ⟨place, idle, h, hm⟩ := h
  exact ⟨place, idle, { h with short := fun p a ha => (h.short p a ha).trans hle }, hm⟩

/-! ## The longest-prefix map -/

def lookup (t : Tree) (p : List Bool) : Option UInt64 :=
  (nodeAt t.mem (some t.root) p).bind fun a => (t.mem a).stored

theorem Stores.lookup_eq {m : Map} (h : Stores width t m) : lookup t = m := by
  obtain ⟨place, idle, h, rfl⟩ := h
  funext p
  rw [lookup, ← h.root, nodeAt_eq h]
  rfl

/-- The run on the tree ends, with the results and the contents of the run on the map. -/
def Implements {κ : Type} (bit : κ → ℕ → Bool) (width : ℕ)
    (step : Tree × List Result → Op κ → Except Fault (Tree × List Result)) (t : Tree)
    (ops : List (Op κ)) : Prop :=
  ∃ t', ops.foldlM step (t, []) = .ok (t', (ops.foldl (mapStep bit width) (fun _ => none, [])).2) ∧
    lookup t' = (ops.foldl (mapStep bit width) (fun _ => none, [])).1

theorem implements_of_step {κ : Type} {bit : κ → ℕ → Bool}
    {step : Tree × List Result → Op κ → Except Fault (Tree × List Result)} {overruns : Bool}
    (hstep : ∀ s a op, (Stores width s.1 a.1 ∧ s.2 = a.2) →
      (op.Valid bit width ∧ op.Fits bit width overruns s) →
      Meets (step s op) (fun s' => Stores width s'.1 (mapStep bit width a op).1 ∧
        s'.2 = (mapStep bit width a op).2) fun _ => False) (ht : Stores width t fun _ => none)
    {ops : List (Op κ)}
    (hops : AllSteps step (fun s op => op.Valid bit width ∧ op.Fits bit width overruns s) (t, [])
      ops) :
    Implements bit width step t ops := by
  obtain ⟨⟨t', results⟩, hrun, hstores, hresults⟩ := meets_false_iff.1
    (Meets.simulate _ hstep ops (t, []) (fun _ => none, []) ⟨ht, rfl⟩ hops)
  exact ⟨t', by rw [hrun, ← hresults], hstores.lookup_eq⟩

/-- On a new tree, every run of operations behaves as on the map from prefixes, as long as no bare
leaf and no lonely root is deleted and no 128-bit search gets to the end of its key. -/
theorem radixTree_longestPrefix {depth : ℕ} (hdepth : depth ≤ 8) : ∃ t,
    radixTreeCreate (some depth) = .ok (some t) ∧
    (∀ ops : List (Op UInt32), AllSteps step32
        (fun s op => op.Valid bit32 32 ∧ op.Fits bit32 32 false s) (t, []) ops →
      Implements bit32 32 step32 t ops) ∧
    ∀ ops : List (Op Key128), AllSteps step128
        (fun s op => op.Valid bit128 128 ∧ op.Fits bit128 128 true s) (t, []) ops →
      Implements bit128 128 step128 t ops := by
  obtain ⟨t, hcreate, ht⟩ := radixTreeCreate_spec hdepth
  refine ⟨t, hcreate, fun ops hops => implements_of_step ?_ ht hops,
    fun ops hops => implements_of_step ?_ (ht.mono (by decide)) hops⟩
  · intro s a op hs hop
    exact step_spec reads32 0 (fun _ _ _ => ⟨_, rfl⟩) hs hop.1 hop.2
  · intro s a op hs hop
    exact step_spec reads128 (fun _ => 0) (fun h : true = false => nomatch h) hs hop.1 hop.2

/-- A prefix of one bit is stored, found and deleted. -/
theorem radixTree_longestPrefix_small : ∃ t, radixTreeCreate (some 0) = .ok (some t) ∧
    Implements bit32 32 step32 t [.insert 0x80000000 0x80000000 7, .find 0xc0000000,
      .delete 0x80000000 0x80000000] ∧
    Implements bit128 128 step128 t [.insert (fun _ => 0) (fun i => if i = 0 then 0x80 else 0) 7,
      .find fun _ => 1] := by
  obtain ⟨t, hcreate, h32, h128⟩ := radixTree_longestPrefix (Nat.zero_le 8)
  obtain rfl : createRoot = t := Option.some.inj (Except.ok.inj hcreate)
  exact ⟨_, hcreate, h32 _ (by decide +kernel), h128 _ (by decide +kernel)⟩

/-- The root of an empty tree has no parent to be taken from, a preallocated leaf is deleted although
it stores nothing, and a search that ends at a 128-bit prefix reads a seventeenth byte. -/
theorem radixTree_faults :
    Meets (radix32treeDelete createRoot 0 0) (fun _ => False) (· = .nullPointer) ∧
    Meets (radixTreeCreate (some 1)) (fun o => ∃ t ∈ o, lookup t [false] = none ∧
      Meets (radix32treeDelete t 0 0x80000000) (·.2 = .ok) fun _ => False) (fun _ => False) ∧
    Meets (radix128treeInsert createRoot (fun _ => 1) (fun _ => 0xff) 7) (fun r => r.2 = .ok ∧
      Meets (radix128treeFind r.1 fun _ => 1) (fun _ => False) (· = .keyOverrun)) fun _ => False := by
  decide +kernel

end ServerStack.Nginx.RadixTree
