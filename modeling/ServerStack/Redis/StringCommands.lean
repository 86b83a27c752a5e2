import ServerStack.Redis.Networking.Reply

/-!
# String commands

`INCRBY`, `DECRBY`, `GETRANGE` and `SETRANGE` of `t_string.c`.  A `long` and a `long long` are 64-bit
integers whose operations wrap around, a `size_t` is an unsigned one.  The free space of an `sds` is
not tracked: a string that grows is reallocated.
-/

namespace ServerStack.Redis.StringCommands

open Util Decimal Networking List Function

/-! ## Values and replies -/

inductive Value where
  | string (o : Robj)
  /-- A value of another type. -/
  | other

abbrev Db := Bytes → Option Value

inductive Reply where
  | integer (v : ℤ)
  | bulk (s : Bytes)
  | error (text : String)
  /-- `shared.wrongtypeerr`. -/
  | wrongType
  deriving DecidableEq, Repr

inductive Fault where
  /-- `zmalloc_oom_handler`. -/
  | outOfMemory
  /-- Bytes that do not belong to the string are read. -/
  | readOutside
  deriving DecidableEq, Repr

/-- A result that is stored into a signed 64-bit integer. -/
def wrap (x : ℤ) : ℤ := x.bmod (2 ^ 64)

theorem isLongLong_wrap (x : ℤ) : IsLongLong (wrap x) := by
  rw [IsLongLong, wrap, Int.bmod_def]
  split_ifs <;> omega

theorem wrap_of_isLongLong {x : ℤ} (h : IsLongLong x) : wrap x = x := by
  obtain ⟨hmin, hmax⟩ := h
  rw [wrap, Int.bmod_def]
  split_ifs <;> omega

/-- `lookupKey` with `checkType(c,o,REDIS_STRING)`: `none` for a value of another type. -/
def lookupString (db : Db) (key : Bytes) : Option (Option Robj) :=
  match db key with
  | none => some none
  | some (.string o) => some (some o)
  | some .other => none

/-- The string that a key holds; a missing key holds the empty one. -/
def contents (o : Option Robj) : Bytes := (o.map Robj.string).getD []

/-! ## Numbers -/

variable (s : Bytes)

/-- `errno == ERANGE` after `strtoll`. -/
def strtollErange : Bool :=
  let (neg, t) := readSign (s.dropWhile isSpace)
  let n := value 0 (t.takeWhile fun b => decide (IsDigit b))
  decide (¬ IsLongLong (if neg then -(n : ℤ) else n))

/-- `getLongLongFromObject` and `getLongFromObject`; a C string ends at its first NUL. -/
def getLongLongFromObject : Option Robj → Option ℤ
  | none => some 0
  | some (.sds _ ptr) =>
    let s := ptr.takeWhile (· ≠ 0)
    if s.head?.any isSpace ∨ (strtoll s).2 ≠ [] ∨ strtollErange s then none
    else some (strtoll s).1
  | some (.int n _) => some n

def notAnInteger : Reply := .error "value is not an integer or out of range"

variable {db : Db} {key : Bytes} {arg : Robj} {v n : ℤ}

theorem isLongLong_of_get {o : Option Robj} (h : getLongLongFromObject o = some v) :
    IsLongLong v := by
  cases o with
  | none =>
    cases h
    decide
  | some o =>
    cases o with
    | int n hn =>
      cases h
      exact hn
    | sds encoding ptr =>
      rw [getLongLongFromObject] at h
      split_ifs at h
      cases h
      exact isLongLong_strtoll _

/-! ## `INCRBY` and `DECRBY` -/

/-- `dbOverwrite` or `dbAdd` of `createStringObjectFromLongLong`. -/
def setLongLong (db : Db) (key : Bytes) (x : ℤ) : Db :=
  update db key (some (.string (.int (wrap x) (isLongLong_wrap x))))

def wouldOverflow : Reply := .error "increment or decrement would overflow"

def incrDecrCommand (db : Db) (key : Bytes) (incr : ℤ) : Db × Reply :=
  match lookupString db key with
  | none => (db, .wrongType)
  | some o =>
    match getLongLongFromObject o with
    | none => (db, notAnInteger)
    | some oldvalue =>
      if (incr < 0 ∧ oldvalue < 0 ∧ incr < -2 ^ 63 - oldvalue) ∨
          (incr > 0 ∧ oldvalue > 0 ∧ incr > 2 ^ 63 - 1 - oldvalue) then (db, wouldOverflow)
      else (setLongLong db key (oldvalue + incr), .integer (wrap (oldvalue + incr)))

def incrbyCommand (db : Db) (key : Bytes) (arg : Robj) : Db × Reply :=
  match getLongLongFromObject (some arg) with
  | none => (db, notAnInteger)
  | some incr => incrDecrCommand db key incr

/-- `decrbyCommand`; the argument is negated as a `long long`. -/
def decrbyCommand (db : Db) (key : Bytes) (arg : Robj) : Db × Reply :=
  match getLongLongFromObject (some arg) with
  | none => (db, notAnInteger)
  | some incr => incrDecrCommand db key (wrap (-incr))

/-- The number is stored and replied if it is a `long long`. -/
def storeExact (db : Db) (key : Bytes) (x : ℤ) : Db × Reply :=
  if h : IsLongLong x then (update db key (some (.string (.int x h))), .integer x)
  else (db, wouldOverflow)

theorem incrDecrCommand_eq {o : Option Robj} (hkey : lookupString db key = some o)
    (hv : getLongLongFromObject o = some v) (hn : IsLongLong n) :
    incrDecrCommand db key n = storeExact db key (v + n) := by
  obtain ⟨hmin, hmax⟩ := isLongLong_of_get hv
  obtain ⟨hmin', hmax'⟩ := hn
  simp only [incrDecrCommand, hkey, hv, storeExact]
  by_cases hfits : IsLongLong (v + n)
  · simp only [dif_pos hfits, setLongLong, wrap_of_isLongLong hfits]
    rw [if_neg]
    obtain ⟨hlow, hhigh⟩ := hfits
    omega
  · rw [dif_neg hfits, if_pos]
    rw [IsLongLong] at hfits
    omega

/-- Sums and differences are exact; the smallest `long long` cannot be negated. -/
theorem incrby_decrby_exact {o : Option Robj} (hkey : lookupString db key = some o)
    (hv : getLongLongFromObject o = some v) (hn : getLongLongFromObject (some arg) = some n) :
    incrbyCommand db key arg = storeExact db key (v + n) ∧
      (decrbyCommand db key arg = storeExact db key (v - n) ↔ n ≠ -2 ^ 63) := by
  obtain ⟨hmin, hmax⟩ := isLongLong_of_get hn
  have hdecr : decrbyCommand db key arg = storeExact db key (v + wrap (-n)) := by
    simp only [decrbyCommand, hn]
    exact incrDecrCommand_eq hkey hv (isLongLong_wrap (-n))
  refine ⟨?_, ?_, ?_⟩
  · simp only [incrbyCommand, hn]
    exact incrDecrCommand_eq hkey hv ⟨hmin, hmax⟩
  · -- of `v - 2 ^ 63` and `v + 2 ^ 63` exactly one is a `long long`
    rintro hexact rfl
    obtain ⟨hv₀, hv₁⟩ := isLongLong_of_get hv
    have hone : IsLongLong (v + -2 ^ 63) ↔ ¬ IsLongLong (v - -2 ^ 63) := by
      rw [IsLongLong, IsLongLong]
      omega
    rw [hdecr, show wrap (- -2 ^ 63) = -2 ^ 63 by decide, storeExact, storeExact] at hexact
    by_cases hfits : IsLongLong (v - -2 ^ 63)
    · rw [dif_neg fun h => hone.1 h hfits, dif_pos hfits] at hexact
      cases congrArg Prod.snd hexact
    · rw [dif_pos (hone.2 hfits), dif_neg hfits] at hexact
      cases congrArg Prod.snd hexact
  · intro hne
    rw [hdecr, wrap_of_isLongLong ⟨by omega, by omega⟩, sub_eq_add_neg]

def oneKey (o : Robj) : Db := fun key => if key = [107] then some (.string o) else none

def smallest : Robj := .int (-9223372036854775808) (by decide)

theorem incrby_decrby_exact_five :
    (decrbyCommand (oneKey (.int 5 (by decide))) [107] (.sds .raw [55])).2 = .integer (-2) := by
  rw [(incrby_decrby_exact (o := some (.int 5 (by decide))) rfl rfl
    (show getLongLongFromObject (some (.sds .raw [55])) = some 7 by decide)).2.2 (by decide)]
  rfl

/-- `-1 - (-2 ^ 63)` is a `long long` and is refused; `0 - (-2 ^ 63)` is none and is stored. -/
theorem decrby_smallest_wrong :
    (decrbyCommand (oneKey (.int (-1) (by decide))) [107] smallest).2 = wouldOverflow ∧
      IsLongLong (-1 - -2 ^ 63) ∧
      (decrbyCommand (oneKey (.int 0 (by decide))) [107] smallest).2 = .integer (-2 ^ 63) ∧
      ¬ IsLongLong (0 - -2 ^ 63) := by
  refine ⟨rfl, by decide, rfl, by decide⟩

/-! ## `GETRANGE` -/

def addReplyBulkCBuffer (str : Bytes) (start len : ℕ) : Except Fault Reply :=
  if start + len ≤ str.length then .ok (.bulk ((str.drop start).take len)) else .error .readOutside

def convertIndex (strlen : ℕ) (i : ℤ) : ℤ :=
  let i := if i < 0 then wrap (strlen + i) else i
  if i < 0 then 0 else i

/-- The range of a string; `end` is compared as an `unsigned`. -/
def getrange (str : Bytes) (start stop : ℤ) : Except Fault Reply :=
  let strlen := str.length
  let start := convertIndex strlen start
  let stop := convertIndex strlen stop
  let stop := if stop % 2 ^ 32 ≥ strlen then wrap (strlen - 1) else stop
  if start > stop then .ok (.bulk [])
  else addReplyBulkCBuffer str start.toNat (stop - start + 1).toNat

def getrangeCommand (db : Db) (key : Bytes) (argStart argEnd : Robj) : Except Fault Reply :=
  match getLongLongFromObject (some argStart) with
  | none => .ok notAnInteger
  | some start =>
    match getLongLongFromObject (some argEnd) with
    | none => .ok notAnInteger
    | some stop =>
      match lookupString db key with
      | none => .ok .wrongType
      | some none => .ok (.bulk [])
      | some (some (.int n _)) => getrange (ll2string 32 n) start stop
      | some (some (.sds _ ptr)) => getrange ptr start stop

/-- A position from the end if it is negative, and at least 0. -/
def position (n : ℕ) (i : ℤ) : ℤ := if i < 0 then max 0 (n + i) else i

def substring (start stop : ℤ) : Bytes :=
  let a := position s.length start
  let b := min (position s.length stop) (s.length - 1)
  (s.drop a.toNat).take (b - a + 1).toNat

theorem convertIndex_eq {n : ℕ} {i : ℤ} (hn : n < 2 ^ 29) (hi : IsLongLong i) :
    convertIndex n i = position n i := by
  obtain ⟨hmin, hmax⟩ := hi
  rw [convertIndex, position]
  by_cases hneg : i < 0
  · have hfits : IsLongLong (n + i) := ⟨by omega, by omega⟩
    simp only [if_pos hneg, wrap_of_isLongLong hfits]
    split_ifs <;> omega
  · simp only [if_neg hneg]

/-- The `unsigned` cast hides that the end is behind the last byte if it has the end of another
range. -/
theorem getrange_eq_iff {str : Bytes} {start stop : ℤ} (hlen : str.length < 2 ^ 29)
    (hstart : IsLongLong start) (hstop : IsLongLong stop) :
    getrange str start stop = .ok (.bulk (substring str start stop)) ↔
      stop < 2 ^ 32 ∨ str.length ≤ stop % 2 ^ 32 ∨ stop < start := by
  have hlast : IsLongLong (str.length - 1) := ⟨by omega, by omega⟩
  have ha : 0 ≤ position str.length start ∧ (0 ≤ start ∧ position str.length start = start ∨
      start < 0 ∧ position str.length start ≤ str.length) := by
    rw [position]
    split_ifs <;> omega
  simp only [getrange, convertIndex_eq hlen hstart, convertIndex_eq hlen hstop,
    wrap_of_isLongLong hlast, substring]
  by_cases hcast : stop < 2 ^ 32 ∨ str.length ≤ stop % 2 ^ 32
  · have hb : (if position str.length stop % 2 ^ 32 ≥ str.length then (str.length - 1 : ℤ)
        else position str.length stop) = min (position str.length stop) (str.length - 1) := by
      rw [position]
      split_ifs <;> omega
    rw [hb, iff_true_right (or_assoc.1 (.inl hcast))]
    split_ifs with hempty
    · rw [Int.toNat_of_nonpos (by omega), take_zero]
    · rw [addReplyBulkCBuffer, if_pos (by omega)]
  · have hb : position str.length stop = stop := if_neg (by omega)
    have hclamp : ¬ stop % 2 ^ 32 ≥ str.length := by omega
    simp only [hb, if_neg hclamp]
    split_ifs with hempty
    · rw [Int.toNat_of_nonpos (by omega), take_zero]
      exact iff_of_true rfl (by omega)
    · rw [addReplyBulkCBuffer, if_neg (by omega)]
      exact iff_of_false (fun h => by cases h) (by omega)

/-- `GETRANGE` replies the substring, unless the `unsigned` cast changes the end of a range that is
not empty. -/
theorem getrangeCommand_substring {o argStart argEnd : Robj} {start stop : ℤ}
    (hkey : lookupString db key = some (some o)) (hlen : o.string.length < 2 ^ 29)
    (hstart : getLongLongFromObject (some argStart) = some start)
    (hstop : getLongLongFromObject (some argEnd) = some stop) :
    getrangeCommand db key argStart argEnd = .ok (.bulk (substring o.string start stop)) ↔
      stop < 2 ^ 32 ∨ o.string.length ≤ stop % 2 ^ 32 ∨ stop < start := by
  simp only [getrangeCommand, hstart, hstop, hkey]
  have hstart := isLongLong_of_get hstart
  have hstop := isLongLong_of_get hstop
  cases o with
  | sds encoding ptr => exact getrange_eq_iff hlen hstart hstop
  | int n hn =>
    simp only [ll2string_eq hn (show 21 ≤ 32 by decide)]
    exact getrange_eq_iff hlen hstart hstop

theorem getrangeCommand_substring_last :
    getrangeCommand (oneKey (.sds .raw [97, 98, 99])) [107] (.sds .raw [45, 50])
      (.sds .raw [57]) = .ok (.bulk [98, 99]) := by
  rw [(getrangeCommand_substring (o := .sds .raw [97, 98, 99]) rfl (by decide)
    (show getLongLongFromObject (some (.sds .raw [45, 50])) = some (-2) by decide)
    (show getLongLongFromObject (some (.sds .raw [57])) = some 9 by decide)).2 (by decide)]
  decide

/-- `GETRANGE k 0 4294967296` reads behind a string of three bytes. -/
theorem getrangeCommand_reads_outside :
    getrangeCommand (oneKey (.sds .raw [97, 98, 99])) [107] (.int 0 (by decide))
      (.int (2 ^ 32) (by decide)) = .error .readOutside := by
  rfl

/-! ## `SETRANGE` -/

def maxStringLength : ℕ := 512 * 1024 * 1024

/-- `checkStringLength`; the `size_t` that is passed becomes a `long long`. -/
def checkStringLength (size : ℕ) : Bool := wrap size ≤ maxStringLength

/-- `sdsMakeRoomFor`; `malloc` has no object of more than `PTRDIFF_MAX` bytes. -/
def sdsMakeRoomFor (addlen : ℕ) : Except Fault Bytes :=
  let newlen := s.length + addlen
  let newlen := if newlen < 1024 * 1024 then newlen * 2 else newlen + 1024 * 1024
  if 8 + newlen + 1 > 2 ^ 63 - 1 then .error .outOfMemory else .ok s

def sdsgrowzero (len : ℕ) : Except Fault Bytes :=
  if len ≤ s.length then .ok s
  else do
    let s ← sdsMakeRoomFor s (len - s.length)
    return s ++ replicate (len - s.length) 0

/-- `memcpy(ptr+offset,value,sdslen(value))`. -/
def memcpyAt (ptr : Bytes) (offset : ℕ) (value : Bytes) : Bytes :=
  ptr.take offset ++ value ++ ptr.drop (offset + value.length)

/-- `setrangeCommand`; a missing key is treated as an empty string. -/
def setrangeCommand (db : Db) (key : Bytes) (arg : Robj) (value : Bytes) :
    Except Fault (Db × Reply) :=
  match getLongLongFromObject (some arg) with
  | none => .ok (db, notAnInteger)
  | some offset =>
    if offset < 0 then .ok (db, .error "offset is out of range")
    else
      match lookupString db key with
      | none => .ok (db, .wrongType)
      | some o =>
        let size := (offset.toNat + value.length) % 2 ^ 64
        if value = [] then .ok (db, .integer (contents o).length)
        else if checkStringLength size = false then
          .ok (db, .error "string exceeds maximum allowed size (512MB)")
        else do
          let ptr ← sdsgrowzero (contents o) size
          let ptr := memcpyAt ptr offset.toNat value
          return (update db key (some (.string (.sds .raw ptr))), .integer ptr.length)

/-- `new` is `old` with `value` written at `offset`, and zeros in between. -/
structure Written (old value : Bytes) (offset : ℕ) (new : Bytes) : Prop where
  length : new.length = max old.length (offset + value.length)
  limit : old.length < new.length → new.length ≤ maxStringLength
  bytes : ∀ i, new.getD i 0 =
    if offset ≤ i ∧ i < offset + value.length then value.getD (i - offset) 0 else old.getD i 0

theorem getElem?_memcpyAt {ptr value : Bytes} {offset : ℕ}
    (h : offset + value.length ≤ ptr.length) (i : ℕ) : (memcpyAt ptr offset value)[i]? =
      if offset ≤ i ∧ i < offset + value.length then value[i - offset]? else ptr[i]? := by
  have htake : (ptr.take offset).length = offset := by
    rw [length_take]
    omega
  rw [memcpyAt, append_assoc, getElem?_append, getElem?_append, getElem?_take, getElem?_drop]
  split_ifs
  all_goals first | rfl | omega | (congr 1; omega)

theorem getD_append_zeros (k i : ℕ) : (s ++ replicate k 0).getD i 0 = s.getD i 0 := by
  rcases Nat.lt_or_ge i s.length with hi | hi
  · rw [getD_append _ _ _ _ hi]
  · rw [getD_append_right _ _ _ _ hi, getD_eq_default s 0 hi, getD_eq_getElem?_getD,
      getElem?_replicate]
    split_ifs <;> rfl

theorem written_memcpyAt {old value : Bytes} {offset : ℕ}
    (hlimit : offset + value.length ≤ maxStringLength) :
    Written old value offset
      (memcpyAt (old ++ replicate (offset + value.length - old.length) 0) offset value) := by
  have hlength : (memcpyAt (old ++ replicate (offset + value.length - old.length) 0)
      offset value).length = max old.length (offset + value.length) := by
    simp only [memcpyAt, length_append, length_take, length_drop, length_replicate]
    omega
  refine ⟨hlength, by omega, fun i => ?_⟩
  rw [getD_eq_getElem?_getD, getElem?_memcpyAt (by rw [length_append, length_replicate]; omega),
    ← getD_append_zeros old (offset + value.length - old.length) i]
  split_ifs <;> rw [getD_eq_getElem?_getD]

theorem sdsgrowzero_eq {s : Bytes} {len : ℕ} (hlen : len ≤ maxStringLength) :
    sdsgrowzero s len = .ok (s ++ replicate (len - s.length) 0) := by
  rw [sdsgrowzero]
  split_ifs with hle
  · simp [Nat.sub_eq_zero_of_le hle]
  · rw [maxStringLength] at hlen
    simp only [sdsMakeRoomFor]
    rw [if_neg (by split_ifs <;> omega)]
    rfl

/-- The outcome of `SETRANGE`: an error and no change, or the value is written. -/
def SetsRange (db : Db) (key : Bytes) (o : Option Robj) (offset : ℤ) (value : Bytes)
    (r : Except Fault (Db × Reply)) : Prop :=
  (∃ text, r = .ok (db, .error text)) ∨
    ∃ db' o', r = .ok (db', .integer (contents o').length) ∧ lookupString db' key = some o' ∧
      (∀ k ≠ key, db' k = db k) ∧ Written (contents o) value offset.toNat (contents o')

/-- `SETRANGE` replies an error or writes the value, if and only if the end of the range is a
`long long` and it is not asked to grow the string by an empty value. -/
theorem setrangeCommand_writes {o : Option Robj} {offset : ℤ} {value : Bytes}
    (hkey : lookupString db key = some o) (hget : getLongLongFromObject (some arg) = some offset)
    (hoffset : 0 ≤ offset) (hold : (contents o).length < 2 ^ 31) (hlen : value.length < 2 ^ 31) :
    SetsRange db key o offset value (setrangeCommand db key arg value) ↔
      offset + value.length < 2 ^ 63 ∧ (value = [] → offset ≤ (contents o).length) := by
  have hlong := (isLongLong_of_get hget).2
  have hsize : (offset.toNat + value.length) % 2 ^ 64 = offset.toNat + value.length :=
    Nat.mod_eq_of_lt (by omega)
  simp only [setrangeCommand, hget, hkey, hsize, if_neg (not_lt.2 hoffset)]
  by_cases hempty : value = []
  · subst hempty
    rw [if_pos rfl]
    constructor
    · rintro (⟨text, htext⟩ | ⟨db', o', hr, -, -, hwritten⟩)
      · cases htext
      · have hlength := hwritten.length
        rw [Except.ok.injEq, Prod.mk.injEq, Reply.integer.injEq] at hr
        rw [length_nil] at hlength hlen ⊢
        exact ⟨by omega, fun _ => by omega⟩
    · rintro ⟨-, hvalue⟩
      have hoffset := hvalue rfl
      refine .inr ⟨db, o, rfl, hkey, fun k _ => rfl, ?_, fun h => absurd h (lt_irrefl _), ?_⟩
      · rw [length_nil]
        omega
      · intro i
        rw [if_neg (by rw [length_nil]; omega)]
  · rw [if_neg hempty]
    by_cases hfits : offset + value.length < 2 ^ 63
    · rw [iff_true_right ⟨hfits, fun h => absurd h hempty⟩]
      have hwrap : wrap (offset.toNat + value.length : ℕ) = (offset.toNat + value.length : ℕ) :=
        wrap_of_isLongLong ⟨by omega, by omega⟩
      rw [checkStringLength, hwrap]
      split_ifs with hlimit
      · exact .inl ⟨_, rfl⟩
      · have hle : offset.toNat + value.length ≤ maxStringLength := by
          rw [Bool.not_eq_false, decide_eq_true_eq] at hlimit
          exact_mod_cast hlimit
        rw [sdsgrowzero_eq hle]
        refine .inr ⟨_, some (.sds .raw _), rfl, ?_, fun k hk => update_of_ne hk _ _,
          written_memcpyAt hle⟩
        rw [lookupString, update_self]
        rfl
    · -- the sum is negative as a `long long`, and too large for `malloc`
      have hcheck : checkStringLength (offset.toNat + value.length) = true := by
        have hneg : wrap (offset.toNat + value.length : ℕ) < 0 := by
          rw [wrap, Int.bmod_def]
          split_ifs <;> omega
        exact decide_eq_true (hneg.le.trans (Nat.cast_nonneg _))
      have hgrow : sdsgrowzero (contents o) (offset.toNat + value.length) =
          .error .outOfMemory := by
        rw [sdsgrowzero, if_neg (by omega)]
        simp only [sdsMakeRoomFor]
        rw [if_pos (by split_ifs <;> omega)]
        rfl
      rw [if_neg (by rw [hcheck]; decide), hgrow]
      refine iff_of_false ?_ fun h => hfits h.1
      rintro (⟨text, htext⟩ | ⟨db', o', hr, -⟩)
      · cases htext
      · cases hr

theorem setrangeCommand_writes_gap : SetsRange (oneKey (.sds .raw [97])) [107]
    (some (.sds .raw [97])) 3 [98]
    (setrangeCommand (oneKey (.sds .raw [97])) [107] (.sds .raw [51]) [98]) :=
  (setrangeCommand_writes (o := some (.sds .raw [97])) rfl
    (show getLongLongFromObject (some (.sds .raw [51])) = some 3 by decide) (by decide) (by decide)
    (by decide)).2 (by decide)

/-- `SETRANGE k 9223372036854775807 a` passes the check and ends the server. -/
theorem setrangeCommand_runs_out :
    setrangeCommand (oneKey (.sds .raw [97])) [107] (.int (2 ^ 63 - 1) (by decide)) [97] =
      .error .outOfMemory := by
  rfl

end ServerStack.Redis.StringCommands
