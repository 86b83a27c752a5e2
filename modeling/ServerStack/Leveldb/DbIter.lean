import ServerStack.Leveldb.Format
import ServerStack.Lib.SortedCursor

/-!
# The database iterator

`DBIter` of `db_iter.cc`: an iterator over internal entries that shows each user key once, as a
snapshot sees it.  The internal iterator goes over a sorted list of entries whose keys all parse; a
position in it is an entry with the entries before it, the nearest one first, and those after it.
The read samples of `ParseKey` have no effect on the iterator and are left out.
-/

namespace ServerStack.Leveldb

open SortedCursor

variable {K V : Type} [LinearOrder K]

/-! ## The internal iterator -/

abbrev Entry (K V : Type) := InternalKey K × V

structure Position (K V : Type) where
  before : List (Entry K V)
  entry : Entry K V
  after : List (Entry K V)

/-- The position at the first entry of `after`. -/
def positionAt (before : List (Entry K V)) : List (Entry K V) → Option (Position K V)
  | [] => none
  | entry :: after => some ⟨before, entry, after⟩

/-- The position at the first entry of `before`. -/
def positionBefore (after : List (Entry K V)) : List (Entry K V) → Option (Position K V)
  | [] => none
  | entry :: before => some ⟨before, entry, after⟩

def Position.next (p : Position K V) : Option (Position K V) :=
  positionAt (p.entry :: p.before) p.after

/-- What a `DBIter` is made for: the entries, and the sequence number of the snapshot. -/
structure IterSource (K V : Type) [LinearOrder K] where
  entries : List (Entry K V)
  sequence : ℕ
  sorted : entries.Pairwise fun a b => a.1 < b.1
  sequence_le : sequence ≤ kMaxSequenceNumber

/-- The internal key that `Seek` looks for; `kValueTypeForSeek` is the largest type. -/
def IterSource.seekKey (c : IterSource K V) (target : K) : InternalKey K :=
  ⟨target, c.sequence, .value, c.sequence_le⟩

def seekEntries (target : InternalKey K) (entries : List (Entry K V)) : Option (Position K V) :=
  positionAt (entries.takeWhile fun e => e.1 < target).reverse
    (entries.dropWhile fun e => e.1 < target)

/-! ## `DBIter` -/

inductive Direction where
  | forward
  | reverse
  deriving DecidableEq, Repr

structure DBIter (K V : Type) where
  iter : Option (Position K V)
  /-- `saved_key_`, `none` when it was cleared. -/
  savedKey : Option K
  /-- `saved_value_`, `none` when it was cleared. -/
  savedValue : Option V
  direction : Direction
  valid : Bool

/-- `key()` and `value()`, if the iterator is valid. -/
def DBIter.current (st : DBIter K V) : Option (K × V) :=
  if st.valid then
    match st.direction with
    | .forward => st.iter.map fun p => (p.entry.1.userKey, p.entry.2)
    | .reverse => st.savedKey.bind fun k => st.savedValue.map fun v => (k, v)
  else none

namespace IterSource

variable (c : IterSource K V)

def init : DBIter K V := ⟨none, none, none, .forward, false⟩

def Visible (e : Entry K V) : Prop := e.1.sequence ≤ c.sequence

instance (e : Entry K V) : Decidable (c.Visible e) := inferInstanceAs (Decidable (_ ≤ _))

/-- The loop of `FindNextUserEntry`.  The key to skip is `none` while `skipping` is false. -/
def findNextLoop (skip : Option K) (before : List (Entry K V)) :
    List (Entry K V) → Option (Position K V)
  | [] => none
  | e :: after =>
    if c.Visible e then
      match e.1.type with
      | .deletion => findNextLoop (some e.1.userKey) (e :: before) after
      | .value =>
        if skip.any fun k => e.1.userKey ≤ k then findNextLoop skip (e :: before) after
        else some ⟨before, e, after⟩
    else findNextLoop skip (e :: before) after

variable (st : DBIter K V)

def findNextUserEntry (p : Position K V) (skip : Option K) : DBIter K V :=
  let found := c.findNextLoop skip p.before (p.entry :: p.after)
  { st with iter := found, savedKey := none, valid := found.isSome }

/-- The variables of `FindPrevUserEntry`, and the entries before and after the position. -/
structure PrevLoop (K V : Type) where
  before : List (Entry K V)
  after : List (Entry K V)
  valueType : ValueType
  savedKey : Option K
  savedValue : Option V

/-- The loop of `FindPrevUserEntry`; the first entry of `before` is the current one. -/
def findPrevLoop : List (Entry K V) → List (Entry K V) → ValueType → Option K → Option V →
    PrevLoop K V
  | [], after, valueType, savedKey, savedValue => ⟨[], after, valueType, savedKey, savedValue⟩
  | e :: before, after, valueType, savedKey, savedValue =>
    if c.Visible e then
      if valueType ≠ .deletion ∧ (savedKey.any fun k => e.1.userKey < k) then
        ⟨e :: before, after, valueType, savedKey, savedValue⟩
      else
        match e.1.type with
        | .deletion => findPrevLoop before (e :: after) .deletion none none
        | .value => findPrevLoop before (e :: after) .value (some e.1.userKey) (some e.2)
    else findPrevLoop before (e :: after) valueType savedKey savedValue

def endPrev (l : PrevLoop K V) : DBIter K V :=
  let iter := positionBefore l.after l.before
  match l.valueType with
  | .deletion => ⟨iter, none, none, .forward, false⟩
  | .value => ⟨iter, l.savedKey, l.savedValue, st.direction, true⟩

def findPrevUserEntry : DBIter K V :=
  match st.iter with
  | none => endPrev st ⟨[], [], .deletion, st.savedKey, st.savedValue⟩
  | some p =>
    endPrev st (c.findPrevLoop (p.entry :: p.before) p.after .deletion st.savedKey st.savedValue)

/-- The loop of `Prev` that leaves the entries of the current key. -/
def leaveKey (savedKey : K) : List (Entry K V) → List (Entry K V) → Option (Position K V)
  | [], _ => none
  | e :: before, after =>
    if e.1.userKey < savedKey then some ⟨before, e, after⟩ else leaveKey savedKey before (e :: after)

/-- `Seek`.  The temporary contents of `saved_key_` are not kept. -/
def seek (target : K) : DBIter K V :=
  let st : DBIter K V := ⟨seekEntries (c.seekKey target) c.entries, none, none, .forward, false⟩
  match st.iter with
  | some p => c.findNextUserEntry st p none
  | none => st

def seekToFirst : DBIter K V :=
  let st : DBIter K V := ⟨positionAt [] c.entries, st.savedKey, none, .forward, false⟩
  match st.iter with
  | some p => c.findNextUserEntry st p none
  | none => st

def seekToLast : DBIter K V :=
  c.findPrevUserEntry ⟨positionBefore [] c.entries.reverse, st.savedKey, none, .reverse, st.valid⟩

/-- `Next` in the reverse direction goes into the entries of the current key. -/
def enterKey (iter : Option (Position K V)) : Option (Position K V) :=
  match iter with
  | none => positionAt [] c.entries
  | some p => p.next

def next : Except CursorError (DBIter K V) :=
  if st.valid = false then .error .notValid
  else
    match st.direction with
    | .reverse =>
      match c.enterKey st.iter with
      | none => .ok ⟨none, none, st.savedValue, .forward, false⟩
      | some p => .ok (c.findNextUserEntry { st with iter := some p, direction := .forward } p
          st.savedKey)
    | .forward =>
      match st.iter with
      | none => .error .notValid
      | some p => .ok (c.findNextUserEntry st p (some p.entry.1.userKey))

def prev : Except CursorError (DBIter K V) :=
  if st.valid = false then .error .notValid
  else
    match st.direction with
    | .reverse => .ok (c.findPrevUserEntry st)
    | .forward =>
      match st.iter with
      | none => .error .notValid
      | some p =>
        match leaveKey p.entry.1.userKey p.before (p.entry :: p.after) with
        | none => .ok ⟨none, none, none, .forward, false⟩
        | some q => .ok (c.findPrevUserEntry
            ⟨some q, some p.entry.1.userKey, st.savedValue, .reverse, st.valid⟩)

def step : Move K → Except CursorError (DBIter K V)
  | .seekToFirst => .ok (c.seekToFirst st)
  | .seekToLast => .ok (c.seekToLast st)
  | .seek target => .ok (c.seek target)
  | .next => c.next st
  | .prev => c.prev st

end IterSource

end ServerStack.Leveldb
