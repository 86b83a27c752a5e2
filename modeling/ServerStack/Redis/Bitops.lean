import ServerStack.Redis.StringCommands

/-!
# Bit operations

`redisBitpos` and `bitopCommand` of `bitops.c`.  Both go through their strings word by word; a word
is read with its first byte as the most significant one, since neither a comparison with `skipval`
nor a bitwise operation depends on the byte order of the host.
-/

namespace ServerStack.Redis.Bitops

open Util List BitVec Networking StringCommands

/-! ## `redisBitpos` -/

/-- Load `j` more bytes, the first one as the most significant. -/
def loadWord : ℕ → Bytes → BitVec 64 → BitVec 64
  | 0, _, word => word
  | j + 1, [], word => loadWord j [] (word <<< 8)
  | j + 1, c :: s, word => loadWord j s (word <<< 8 ||| c.toBitVec.setWidth 64)

/-- `skipval` for a byte. -/
def skipByte (bit : Bool) : UInt8 := if bit then 0 else 255

/-- `skipval` for a word. -/
def skipWord (bit : Bool) : BitVec 64 := if bit then 0 else BitVec.allOnes 64

def skipBytes (bit : Bool) : ℕ → Bytes → ℕ → Bytes × ℕ
  | _, [], pos => ([], pos)
  | addr, c :: s, pos =>
    if addr % 8 = 0 ∨ c ≠ skipByte bit then (c :: s, pos) else skipBytes bit (addr + 1) s (pos + 8)

def skipWords (bit : Bool) : ℕ → Bytes → ℕ → Bytes × ℕ
  | 0, s, pos => (s, pos)
  | fuel + 1, s, pos =>
    if s.length < 8 ∨ loadWord 8 s 0 ≠ skipWord bit then (s, pos)
    else skipWords bit fuel (s.drop 8) (pos + 64)

/-- `while(one)`; `none` is the panic behind the loop. -/
def scanWord (word : BitVec 64) (bit : Bool) : ℕ → BitVec 64 → ℕ → Option ℤ
  | 0, _, _ => none
  | fuel + 1, one, pos =>
    if one = 0 then none
    else if decide (one &&& word ≠ 0) = bit then some pos
    else scanWord word bit fuel (one >>> 1) (pos + 1)

def bitposWord (bit : Bool) (word : BitVec 64) (pos : ℕ) : Option ℤ :=
  if bit = true ∧ word = 0 then some (-1)
  else scanWord word bit 65 (~~~ (BitVec.allOnes 64 >>> 1)) pos

def redisBitpos (addr : ℕ) (s : Bytes) (bit : Bool) : Option ℤ :=
  let (s, pos) := skipBytes bit addr s 0
  let (s, pos) := skipWords bit s.length s pos
  bitposWord bit (loadWord 8 s 0) pos

/-! ## Bits -/

/-- Bit `i` of an array that is followed by zeros, the most significant bit of a byte first. -/
def bitAt (s : Bytes) (i : ℕ) : Bool := (s.getD (i / 8) 0).toBitVec.getMsbD (i % 8)

/-- The index of the first bit of a value, or `-1` if there is none. -/
def IsFirst (s : Bytes) (bit : Bool) (r : ℤ) : Prop :=
  (∃ i : ℕ, r = i ∧ bitAt s i = bit ∧ ∀ j < i, bitAt s j ≠ bit) ∨
    r = -1 ∧ bit = true ∧ ∀ i, bitAt s i = false

variable {bit : Bool} {s : Bytes} {i j : ℕ}

theorem getD_drop (s : Bytes) (k i : ℕ) : (s.drop k).getD i 0 = s.getD (k + i) 0 := by
  rw [getD_eq_getElem?_getD, getD_eq_getElem?_getD, getElem?_drop]

theorem bitAt_drop (s : Bytes) (k i : ℕ) : bitAt (s.drop k) i = bitAt s (8 * k + i) := by
  rw [bitAt, bitAt, Nat.mul_add_mod, Nat.mul_add_div (by decide), getD_drop]

theorem bitAt_of_ge (hi : 8 * s.length ≤ i) : bitAt s i = false := by
  rw [bitAt, getD_eq_default _ _ (by omega)]
  simp

theorem bitAt_cons_of_lt (c : UInt8) (s : Bytes) (hi : i < 8) :
    bitAt (c :: s) i = c.toBitVec.getMsbD i := by
  rw [bitAt, Nat.div_eq_of_lt hi, Nat.mod_eq_of_lt hi, getD_cons_zero]

theorem loadWord_succ (j : ℕ) (s : Bytes) (word : BitVec 64) : loadWord (j + 1) s word =
    loadWord j (s.drop 1) (word <<< 8 ||| (s.headD 0).toBitVec.setWidth 64) := by
  cases s with
  | nil => simp [loadWord]
  | cons c s => rfl

theorem getLsbD_append_byte (word : BitVec 64) (c : UInt8) (hi : i < 64) :
    (word <<< 8 ||| c.toBitVec.setWidth 64).getLsbD i =
      if i < 8 then c.toBitVec.getLsbD i else word.getLsbD (i - 8) := by
  rw [getLsbD_or, getLsbD_shiftLeft]
  split_ifs with hlow
  · simp [hi, hlow]
  · simp [hi, hlow, getLsbD_of_ge c.toBitVec i (by omega)]

theorem getLsbD_loadWord_high (s : Bytes) (word : BitVec 64) (hi : 8 * j + i < 64) :
    (loadWord j s word).getLsbD (8 * j + i) = word.getLsbD i := by
  induction j generalizing s word i with
  | zero => rw [loadWord, Nat.zero_add]
  | succ j ih =>
    rw [loadWord_succ, show 8 * (j + 1) + i = 8 * j + (8 + i) by omega, ih _ _ (by omega),
      getLsbD_append_byte _ _ (by omega), if_neg (by omega), Nat.add_sub_cancel_left]

theorem getLsbD_loadWord (hj : j ≤ 8) (s : Bytes) (word : BitVec 64) (hi : i < 8 * j) :
    (loadWord j s word).getLsbD (8 * j - 1 - i) = bitAt s i := by
  induction j generalizing s word i with
  | zero => omega
  | succ j ih =>
    rw [loadWord_succ]
    rcases Nat.lt_or_ge i 8 with hlow | hhigh
    · rw [show 8 * (j + 1) - 1 - i = 8 * j + (7 - i) by omega, getLsbD_loadWord_high _ _ (by omega),
        getLsbD_append_byte _ _ (by omega), if_pos (by omega), bitAt, Nat.div_eq_of_lt hlow,
        Nat.mod_eq_of_lt hlow, getMsbD_eq_getLsbD]
      cases s <;> simp [hlow]
    · obtain ⟨d, rfl⟩ := Nat.exists_eq_add_of_le hhigh
      rw [show 8 * (j + 1) - 1 - (8 + d) = 8 * j - 1 - d by omega, ih (by omega) _ _ (by omega),
        bitAt_drop]

/-- The bits of a word are those of the array. -/
theorem getMsbD_loadWord (s : Bytes) (hi : i < 64) : (loadWord 8 s 0).getMsbD i = bitAt s i := by
  rw [getMsbD_eq_getLsbD, decide_eq_true hi]
  exact getLsbD_loadWord le_rfl s 0 hi

theorem loadWord_eq_iff (s : Bytes) (word : BitVec 64) :
    loadWord 8 s 0 = word ↔ ∀ i < 64, bitAt s i = word.getMsbD i := by
  constructor
  · rintro rfl i hi
    rw [getMsbD_loadWord s hi]
  · intro h
    apply eq_of_getMsbD_eq
    intro i hi
    rw [getMsbD_loadWord s hi, h i hi]

theorem bitAt_ne_of_drop {k n : ℕ} (hskip : ∀ i < 8 * k, bitAt s i ≠ bit)
    (hrest : ∀ i < n, bitAt (s.drop k) i ≠ bit) : ∀ i < 8 * k + n, bitAt s i ≠ bit := by
  intro i hi
  rcases Nat.lt_or_ge i (8 * k) with hlt | hge
  · exact hskip i hlt
  · obtain ⟨d, rfl⟩ := Nat.exists_eq_add_of_le hge
    rw [← bitAt_drop]
    exact hrest d (by omega)

/-! ## The loops -/

/-- The bytes before `s'` have been skipped. -/
def Skipped (bit : Bool) (s s' : Bytes) (pos : ℕ) : Prop :=
  ∃ k, s' = s.drop k ∧ pos = 8 * k ∧ ∀ i < 8 * k, bitAt s i ≠ bit

theorem Skipped.step {s' : Bytes} {pos : ℕ} (h : Skipped bit s s' pos) {n : ℕ}
    (hbits : ∀ i < 8 * n, bitAt s' i ≠ bit) : Skipped bit s (s'.drop n) (pos + 8 * n) := by
  obtain ⟨k, rfl, rfl, hskip⟩ := h
  refine ⟨k + n, by rw [drop_drop], by omega, ?_⟩
  rw [Nat.mul_add]
  exact bitAt_ne_of_drop hskip hbits

theorem skipBytes_spec {s' : Bytes} {pos : ℕ} (addr : ℕ) (h : Skipped bit s s' pos) :
    Skipped bit s (skipBytes bit addr s' pos).1 (skipBytes bit addr s' pos).2 := by
  have hbyte : ∀ (bit : Bool), ∀ r < 8, (skipByte bit).toBitVec.getMsbD r ≠ bit := by decide
  induction s' generalizing addr pos with
  | nil => exact h
  | cons c s' ih =>
    rw [skipBytes]
    split_ifs with hstop
    · exact h
    · refine ih (addr + 1) (h.step (n := 1) fun i hi => ?_)
      rw [bitAt_cons_of_lt c s' hi, not_not.1 (not_or.1 hstop).2]
      exact hbyte bit i hi

theorem skipWords_spec {fuel : ℕ} {s' : Bytes} {pos : ℕ} (hfuel : s'.length ≤ fuel)
    (h : Skipped bit s s' pos) :
    Skipped bit s (skipWords bit fuel s' pos).1 (skipWords bit fuel s' pos).2 ∧
      ((skipWords bit fuel s' pos).1.length < 8 ∨
        ∃ i < 64, bitAt (skipWords bit fuel s' pos).1 i = bit) := by
  have hword : ∀ (bit : Bool), ∀ r < 64, (skipWord bit).getMsbD r ≠ bit := by decide
  induction fuel generalizing s' pos with
  | zero => exact ⟨h, .inl (show s'.length < 8 by omega)⟩
  | succ fuel ih =>
    rw [skipWords]
    split_ifs with hstop
    · refine ⟨h, hstop.imp_right fun hne => ?_⟩
      by_contra hnone
      push Not at hnone
      refine hne ((loadWord_eq_iff s' _).2 fun i hi => ?_)
      rw [Bool.eq_not_of_ne (hnone i hi), Bool.eq_not_of_ne (hword bit i hi)]
    · obtain ⟨hlong, heq⟩ := not_or.1 hstop
      refine ih (by rw [length_drop]; omega) (h.step fun i hi => ?_)
      rw [(loadWord_eq_iff s' _).1 (not_not.1 heq) i hi]
      exact hword bit i hi

theorem scanWord_step (word : BitVec 64) (bit : Bool) {k : ℕ} (hk : k < 64) (pos : ℕ) :
    scanWord word bit (65 - k) (BitVec.twoPow 64 63 >>> k) pos =
      if word.getMsbD k = bit then some (pos : ℤ)
      else scanWord word bit (64 - k) (BitVec.twoPow 64 63 >>> (k + 1)) (pos + 1) := by
  have hone : ∀ k < 64, BitVec.twoPow 64 63 >>> k = BitVec.twoPow 64 (63 - k) ∧
      BitVec.twoPow 64 (63 - k) ≠ 0 := by decide
  obtain ⟨hshift, hne⟩ := hone k hk
  have hmsb : decide (BitVec.twoPow 64 (63 - k) &&& word ≠ 0) = word.getMsbD k := by
    rw [twoPow_and, getMsbD_eq_getLsbD, decide_eq_true hk, Bool.true_and]
    split_ifs with hbit
    · rw [hbit, decide_eq_true hne]
    · simp [hbit]
  rw [show 65 - k = 64 - k + 1 by omega, scanWord, shiftRight_add, hshift, if_neg hne, hmsb]

theorem scanWord_eq {word : BitVec 64} (hi : i < 64) (hbit : word.getMsbD i = bit)
    (hmin : ∀ j < i, word.getMsbD j ≠ bit) (pos : ℕ) :
    scanWord word bit 65 (BitVec.twoPow 64 63) pos = some ((pos + i : ℕ) : ℤ) := by
  have hloop : ∀ d k, k + d = i → ∀ pos,
      scanWord word bit (65 - k) (BitVec.twoPow 64 63 >>> k) pos = some ((pos + d : ℕ) : ℤ) := by
    intro d
    induction d with
    | zero =>
      intro k hk pos
      obtain rfl : k = i := hk
      rw [scanWord_step word bit hi, if_pos hbit, Nat.add_zero]
    | succ d ih =>
      intro k hk pos
      rw [scanWord_step word bit (by omega), if_neg (hmin k (by omega)),
        show 64 - k = 65 - (k + 1) by omega, ih (k + 1) (by omega), Nat.add_right_comm,
        Nat.add_assoc]
  exact hloop i 0 (Nat.zero_add i) pos

theorem bitposWord_spec {k : ℕ} (hskip : ∀ i < 8 * k, bitAt s i ≠ bit)
    (hstop : (s.drop k).length < 8 ∨ ∃ i < 64, bitAt (s.drop k) i = bit) :
    ∃ r, bitposWord bit (loadWord 8 (s.drop k) 0) (8 * k) = some r ∧ IsFirst s bit r := by
  unfold bitposWord
  by_cases hfound : ∃ i, i < 64 ∧ bitAt (s.drop k) i = bit
  · obtain ⟨hi, hbit⟩ := Nat.find_spec hfound
    have hmin : ∀ j < Nat.find hfound, bitAt (s.drop k) j ≠ bit := fun j hj heq =>
      Nat.find_min hfound hj ⟨by omega, heq⟩
    rw [if_neg]
    · refine ⟨_, scanWord_eq hi (by rwa [getMsbD_loadWord _ hi]) (fun j hj => ?_) _, .inl ⟨_, rfl,
        by rwa [← bitAt_drop], bitAt_ne_of_drop hskip hmin⟩⟩
      rw [getMsbD_loadWord _ (by omega)]
      exact hmin j hj
    · rintro ⟨rfl, hzero⟩
      have := (loadWord_eq_iff _ _).1 hzero _ hi
      simp [hbit] at this
  · push Not at hfound
    have hshort : (s.drop k).length < 8 := hstop.resolve_right fun ⟨i, hi, h⟩ => hfound i hi h
    have hbehind : ∀ i ≥ 64, bitAt (s.drop k) i = false := fun i hi => bitAt_of_ge (by omega)
    -- the byte behind the array is zero
    obtain rfl : bit = true := by
      have := hfound 63 (by decide)
      rw [bitAt_of_ge (by omega)] at this
      simpa using this.symm
    have hrest : ∀ i, bitAt (s.drop k) i = false := fun i =>
      (Nat.lt_or_ge i 64).elim (fun hi => Bool.eq_false_of_not_eq_true (hfound i hi)) (hbehind i)
    rw [if_pos ⟨rfl, (loadWord_eq_iff _ _).2 fun i _ => by simp [hrest]⟩]
    refine ⟨-1, rfl, .inr ⟨rfl, rfl, fun i => Bool.eq_false_of_not_eq_true ?_⟩⟩
    exact bitAt_ne_of_drop hskip (fun i _ => by simp [hrest]) i
      (Nat.lt_add_left _ (Nat.lt_succ_self i))

/-- `redisBitpos` finds the first bit, at every alignment, and never comes to the panic. -/
theorem redisBitpos_first (addr : ℕ) (s : Bytes) (bit : Bool) :
    ∃ r, redisBitpos addr s bit = some r ∧ IsFirst s bit r := by
  have hbytes := skipBytes_spec addr (show Skipped bit s s 0 from ⟨0, rfl, rfl, by simp⟩)
  obtain ⟨⟨k, hdrop, hpos, hskip⟩, hstop⟩ := skipWords_spec le_rfl hbytes
  rw [hdrop] at hstop
  simp only [redisBitpos]
  rw [hdrop, hpos]
  exact bitposWord_spec hskip hstop

/-! ## `BITOP` -/

inductive BitOp where
  | and
  | or
  | xor
  | not
  deriving DecidableEq, Repr

/-- The operation of two words, or of two bytes; `NOT` has only one source. -/
def BitOp.apply {α : Type} [AndOp α] [OrOp α] [XorOp α] : BitOp → α → α → α
  | .and, a, b => a &&& b
  | .or, a, b => a ||| b
  | .xor, a, b => a ^^^ b
  | .not, a, _ => a

/-- Word `w` behind a pointer. -/
def wordAt (p : Bytes) (w : ℕ) : BitVec 64 := loadWord 8 (p.drop (8 * w)) 0

/-- The bytes of `lres[0]` to `lres[3]`. -/
def fourWords (word : ℕ → BitVec 64) : Bytes :=
  (range 4).flatMap fun w => (range 8).map fun k => ⟨(word w).extractLsb' (56 - 8 * k) 8⟩

def BitOp.round (op : BitOp) (lres : Bytes) (lp : List Bytes) : Bytes :=
  if op = .not then fourWords fun w => ~~~wordAt lres w
  else lp.foldl (fun lres p => fourWords fun w => op.apply (wordAt lres w) (wordAt p w)) lres

/-- `while(minlen >= sizeof(unsigned long)*4)`: the bytes that are ready.  In memory other bytes lie
behind each string. -/
def fastLoop (behind : Bytes) (op : BitOp) (src : Bytes) (others : List Bytes) :
    ℕ → ℕ → Bytes → Bytes
  | 0, _, res => res
  | fuel + 1, minlen, res =>
    if minlen ≥ 32 then
      let lp (s : Bytes) := (s ++ behind).drop res.length
      fastLoop behind op src others fuel (minlen - 32)
        (res ++ op.round ((lp src).take 32) (others.map lp))
    else res

/-- Byte `j` of the result, as the last loop computes it. -/
def BitOp.byteAt (op : BitOp) (src : Bytes) (others : List Bytes) (j : ℕ) : UInt8 :=
  others.foldl (fun output s => op.apply output (s.getD j 0))
    (if op = .not then ~~~src.getD j 0 else src.getD j 0)

def bitop (behind : Bytes) (op : BitOp) (src : Bytes) (others : List Bytes) (maxlen minlen : ℕ) :
    Bytes :=
  let res := if minlen ≠ 0 ∧ others.length + 1 ≤ 16 then
    fastLoop behind op src others minlen minlen [] else []
  res ++ (range' res.length (maxlen - res.length)).map (op.byteAt src others)

/-- `maxlen` and `minlen` after the source of index `j`. -/
def addLength (j : ℕ) (lens : ℕ × ℕ) : Option Robj → ℕ × ℕ
  | none => (lens.1, 0)
  | some o =>
    let len := o.string.length
    (if len > lens.1 then len else lens.1, if j = 0 ∨ len < lens.2 then len else lens.2)

/-- The loop over the sources from index `j` on; `none` if one is not a string. -/
def lookupSources (db : Db) : ℕ → List Bytes → ℕ × ℕ → Option (List Bytes × ℕ × ℕ)
  | _, [], lens => some ([], lens)
  | j, key :: keys, lens => do
    let o ← lookupString db key
    let (src, lens) ← lookupSources db (j + 1) keys (addLength j lens o)
    return (contents o :: src, lens)

/-- `bitopCommand`, for an operation name that was recognised. -/
def bitopCommand (behind : Bytes) (db : Db) (op : BitOp) (target : Bytes) (keys : List Bytes) :
    Db × Reply :=
  if op = .not ∧ keys.length ≠ 1 then
    (db, .error "BITOP NOT must be called with a single source key.")
  else
    match lookupSources db 0 keys (0, 0) with
    | none => (db, .wrongType)
    | some (src, maxlen, minlen) =>
      let res := bitop behind op (src.headD []) src.tail maxlen minlen
      let o := if maxlen ≠ 0 then some (.string (.sds .raw res)) else none
      (Function.update db target o, .integer maxlen)

variable {behind : Bytes} {op : BitOp} {src : Bytes} {others : List Bytes}

theorem extractLsb'_wordAt (p : Bytes) (w : ℕ) {k : ℕ} (hk : k < 8) :
    (wordAt p w).extractLsb' (56 - 8 * k) 8 = (p.getD (8 * w + k) 0).toBitVec := by
  apply eq_of_getMsbD_eq
  intro r hr
  have hbit := getMsbD_loadWord (p.drop (8 * w)) (show 8 * k + r < 64 by omega)
  rw [bitAt_drop, bitAt, show 8 * (8 * w) + (8 * k + r) = 8 * (8 * w + k) + r by omega,
    Nat.mul_add_mod, Nat.mod_eq_of_lt hr, Nat.mul_add_div (by decide), Nat.div_eq_of_lt hr,
    Nat.add_zero] at hbit
  rw [← hbit, getMsbD_extractLsb', decide_eq_true hr, decide_eq_true (by omega),
    show 64 - (56 - 8 * k + 8 - r) = 8 * k + r by omega]
  rfl

theorem fourWords_eq {word : ℕ → BitVec 64} {byte : ℕ → UInt8} (h : ∀ w < 4, ∀ k < 8,
    (word w).extractLsb' (56 - 8 * k) 8 = (byte (8 * w + k)).toBitVec) :
    fourWords word = (range 32).map byte := by
  have hbytes : fourWords word =
      (range 4).flatMap fun w => (range 8).map fun k => byte (8 * w + k) := by
    refine flatMap_congr fun w hw => map_congr_left fun k hk => ?_
    rw [h w (mem_range.1 hw) k (mem_range.1 hk)]
  rw [hbytes]
  rfl

theorem getD_map_range (f : ℕ → UInt8) {n j : ℕ} (hj : j < n) :
    ((range n).map f).getD j 0 = f j := by
  rw [getD_eq_getElem _ _ (by simpa using hj), getElem_map, getElem_range]

theorem BitOp.fourWords_apply (hop : op ≠ .not) (f : ℕ → UInt8) (p : Bytes) :
    (fourWords fun w => op.apply (wordAt ((range 32).map f) w) (wordAt p w)) =
      (range 32).map fun j => op.apply (f j) (p.getD j 0) := by
  apply fourWords_eq
  intro w hw k hk
  have hf := getD_map_range f (show 8 * w + k < 32 by omega)
  cases op with
  | and =>
    rw [BitOp.apply, extractLsb'_and, extractLsb'_wordAt _ _ hk, extractLsb'_wordAt _ _ hk, hf]
    rfl
  | or =>
    rw [BitOp.apply, extractLsb'_or, extractLsb'_wordAt _ _ hk, extractLsb'_wordAt _ _ hk, hf]
    rfl
  | xor =>
    rw [BitOp.apply, extractLsb'_xor, extractLsb'_wordAt _ _ hk, extractLsb'_wordAt _ _ hk, hf]
    rfl
  | not => exact absurd rfl hop

theorem BitOp.round_eq (hnot : op = .not → others = []) {n : ℕ}
    (h : ∀ s ∈ src :: others, n + 32 ≤ s.length) :
    op.round (((src ++ behind).drop n).take 32) (others.map fun s => (s ++ behind).drop n) =
      (range' n 32).map (op.byteAt src others) := by
  obtain ⟨hsrc, hothers⟩ := forall_mem_cons.1 h
  have hblock : ((src ++ behind).drop n).take 32 = (range 32).map fun j => src.getD (n + j) 0 := by
    apply ext_getElem
    · simp
      omega
    · intro i hi _
      rw [length_take] at hi
      rw [getElem_take, getElem_drop, getElem_map, getElem_range, getD_eq_getElem _ _ (by omega),
        getElem_append_left]
  rw [range'_eq_map_range, map_map, hblock, round]
  split_ifs with hop
  · obtain rfl := hnot hop
    apply fourWords_eq
    intro w hw k hk
    have hflip : ∀ x : BitVec 64,
        (~~~x).extractLsb' (56 - 8 * k) 8 = ~~~(x.extractLsb' (56 - 8 * k) 8) := fun x => by
      ext i hi
      simp [show 56 - 8 * k + i < 64 by omega]
    rw [hflip, extractLsb'_wordAt _ _ hk, getD_map_range _ (show 8 * w + k < 32 by omega),
      Function.comp, byteAt, if_pos hop]
    rfl
  · have hfold : ∀ f : ℕ → UInt8, (others.map fun s => (s ++ behind).drop n).foldl
        (fun lres p => fourWords fun w => op.apply (wordAt lres w) (wordAt p w))
          ((range 32).map f) = (range 32).map fun j =>
          others.foldl (fun output s => op.apply output (s.getD (n + j) 0)) (f j) := by
      clear hnot h
      induction others with
      | nil => exact fun f => rfl
      | cons s others ih =>
        intro f
        obtain ⟨hs, hothers⟩ := forall_mem_cons.1 hothers
        rw [map_cons, foldl_cons, fourWords_apply hop, ih hothers]
        refine map_congr_left fun j hj => ?_
        have hj := mem_range.1 hj
        rw [foldl_cons, getD_drop, getD_append _ _ _ _ (by omega)]
    rw [hfold]
    exact map_congr_left fun j _ => by rw [Function.comp, byteAt, if_neg hop]

theorem map_range_append {α : Type} (f : ℕ → α) (a b : ℕ) :
    (range a).map f ++ (range' a b).map f = (range (a + b)).map f := by
  have happend := @range'_append_1 0 a b
  rw [Nat.zero_add] at happend
  rw [← map_append, range_eq_range', range_eq_range', happend]

theorem fastLoop_eq (hnot : op = .not → others = []) {fuel minlen n : ℕ}
    (hsrc : ∀ s ∈ src :: others, n + minlen ≤ s.length) : ∃ n' ≤ n + minlen,
      fastLoop behind op src others fuel minlen ((range n).map (op.byteAt src others)) =
        (range n').map (op.byteAt src others) := by
  induction fuel generalizing minlen n with
  | zero => exact ⟨n, by omega, rfl⟩
  | succ fuel ih =>
    rw [fastLoop]
    split_ifs with hlong
    · simp only [length_map, length_range]
      rw [BitOp.round_eq hnot fun s hs => (by have := hsrc s hs; omega), map_range_append]
      obtain ⟨n', hn', heq⟩ := @ih (minlen - 32) (n + 32) fun s hs => by
        have := hsrc s hs
        omega
      exact ⟨n', by omega, heq⟩
    · exact ⟨n, by omega, rfl⟩

/-- The fast path and the byte loop compute the same bytes. -/
theorem bitop_eq (hnot : op = .not → others = []) {maxlen minlen : ℕ}
    (hmin : ∀ s ∈ src :: others, minlen ≤ s.length) (hmax : minlen ≤ maxlen) :
    bitop behind op src others maxlen minlen = (range maxlen).map (op.byteAt src others) := by
  obtain ⟨n, hn, hres⟩ : ∃ n ≤ minlen, (if minlen ≠ 0 ∧ others.length + 1 ≤ 16 then
      fastLoop behind op src others minlen minlen [] else []) =
        (range n).map (op.byteAt src others) := by
    split_ifs
    · simpa using @fastLoop_eq behind op src others hnot minlen minlen 0 (by simpa using hmin)
    · exact ⟨0, Nat.zero_le _, rfl⟩
  simp only [bitop, hres, length_map, length_range]
  rw [map_range_append, Nat.add_sub_cancel' (by omega)]

def sources (db : Db) (keys : List Bytes) : List Bytes :=
  keys.map fun key => contents ((lookupString db key).getD none)

def longest (n : ℕ) (src : List Bytes) : ℕ := src.foldl (fun n s => max n s.length) n

variable {db : Db} {keys : List Bytes}

theorem addLength_spec (j : ℕ) (o : Option Robj) {lens : ℕ × ℕ} (h : lens.2 ≤ lens.1) :
    (addLength j lens o).1 = max lens.1 (contents o).length ∧
      (addLength j lens o).2 ≤ (contents o).length ∧
      (addLength j lens o).2 ≤ (addLength j lens o).1 ∧
      (0 < j → (addLength j lens o).2 ≤ lens.2) := by
  cases o with
  | none => simp [addLength, contents]
  | some o =>
    simp only [addLength, contents, Option.map_some, Option.getD_some]
    split_ifs <;> omega

theorem lookupSources_spec (hkeys : ∀ key ∈ keys, lookupString db key ≠ none) {j : ℕ} {lens : ℕ × ℕ}
    (h : lens.2 ≤ lens.1) : ∃ minlen, lookupSources db j keys lens =
        some (sources db keys, longest lens.1 (sources db keys), minlen) ∧
      (∀ s ∈ sources db keys, minlen ≤ s.length) ∧ minlen ≤ longest lens.1 (sources db keys) ∧
      (0 < j → minlen ≤ lens.2) := by
  induction keys generalizing j lens with
  | nil => exact ⟨lens.2, rfl, by simp [sources], h, fun _ => le_rfl⟩
  | cons key keys ih =>
    obtain ⟨hkey, hkeys⟩ := forall_mem_cons.1 hkeys
    obtain ⟨o, ho⟩ := Option.ne_none_iff_exists'.1 hkey
    obtain ⟨hmax, hmin, hle, hless⟩ := addLength_spec j o h
    obtain ⟨minlen, heq, hall, hlongest, hnext⟩ := @ih hkeys (j + 1) (addLength j lens o) hle
    have hsources : sources db (key :: keys) = contents o :: sources db keys := by
      rw [sources, map_cons, ho, Option.getD_some, ← sources]
    have hlong : longest lens.1 (sources db (key :: keys)) =
        longest (addLength j lens o).1 (sources db keys) := by
      rw [hsources, longest, foldl_cons, ← hmax, ← longest]
    have hnext := hnext (Nat.succ_pos j)
    refine ⟨minlen, ?_, ?_, hlong ▸ hlongest, fun hj => hnext.trans (hless hj)⟩
    · rw [lookupSources, ho, Option.bind_eq_bind, Option.bind_some, heq, hlong, hsources]
      rfl
    · rw [hsources]
      exact forall_mem_cons.2 ⟨hnext.trans hmin, hall⟩

/-- `BITOP` stores the operation of the bytes of all sources, and no string of length 0. -/
theorem bitopCommand_bytes (hkeys : ∀ key ∈ keys, lookupString db key ≠ none)
    (hnot : op = .not → keys.length = 1) (target : Bytes) :
    bitopCommand behind db op target keys =
      (Function.update db target (if longest 0 (sources db keys) = 0 then none else
        some (.string (.sds .raw ((range (longest 0 (sources db keys))).map
          (op.byteAt ((sources db keys).headD []) (sources db keys).tail))))),
        .integer (longest 0 (sources db keys))) := by
  obtain ⟨minlen, heq, hall, hlongest, -⟩ := @lookupSources_spec db keys hkeys 0 (0, 0) le_rfl
  have hbytes : bitop behind op ((sources db keys).headD []) (sources db keys).tail
      (longest 0 (sources db keys)) minlen = (range (longest 0 (sources db keys))).map
        (op.byteAt ((sources db keys).headD []) (sources db keys).tail) := by
    apply bitop_eq _ _ hlongest
    · intro hop
      obtain ⟨key, rfl⟩ := length_eq_one_iff.1 (hnot hop)
      rfl
    · cases hsources : sources db keys with
      | nil => simpa [hsources, longest] using hlongest
      | cons s src => exact fun t ht => hall t (hsources ▸ ht)
  rw [bitopCommand, if_neg (by simpa using hnot), heq]
  simp only [hbytes, ite_not]

/-- Strings of 33 and 34 bytes. -/
def twoKeys : Db := Function.update (oneKey (.sds .raw (List.replicate 33 97))) [108]
  (some (.string (.sds .raw (List.replicate 34 98))))

theorem bitopCommand_bytes_and :
    (bitopCommand [] twoKeys .and [116] [[107], [108]]).1 [116] =
      some (.string (.sds .raw (List.replicate 33 96 ++ [0]))) := by
  rw [@bitopCommand_bytes [] .and twoKeys [[107], [108]] (by decide) (by decide)]
  rfl

end ServerStack.Redis.Bitops
