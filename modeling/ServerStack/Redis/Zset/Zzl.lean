import ServerStack.Redis.Ziplist.Strings
import ServerStack.Redis.Zset.Skiplist

/-!
# Sorted sets in ziplists

The `zzl` functions of `t_zset.c`: elements and their scores alternate in a ziplist, here the list of
its strings.  The outer `none` of a result is a failed assertion.
-/

namespace ServerStack.Redis.Zset

open Util Ziplist.Strings

def zzlCompareElements (zl : List Bytes) (eptr : ℕ) (cstr : Bytes) : Option Ordering := do
  let vstr ← ziplistGet zl eptr
  return (memcmp (min vstr.length cstr.length) vstr cstr).then (compare vstr.length cstr.length)

/-- `zzlNext`: the next element and its score. -/
def zzlNext (zl : List Bytes) (sptr : ℕ) : Option (Option (ℕ × ℕ)) :=
  match ziplistNext zl sptr with
  | none => some none
  | some eptr => do
    let sptr ← ziplistNext zl eptr
    return some (eptr, sptr)

def zzlDelete (zl : List Bytes) (eptr : ℕ) : List Bytes := ziplistDelete (ziplistDelete zl eptr) eptr

/-- The loop over the elements of `zzlFirstInRange`, `zzlFind` and `zzlInsert`: the body gets the
positions of an element and of its score, and may end the loop. -/
def scan {β : Type} (zl : List Bytes) (body : ℕ → ℕ → Option (Option β)) (atEnd : Option β) :
    ℕ → Option ℕ → Option β
  | 0, _ => none
  | _ + 1, none => atEnd
  | fuel + 1, some eptr => do
    let sptr ← ziplistNext zl eptr
    match ← body eptr sptr with
    | some result => return result
    | none => scan zl body atEnd fuel (ziplistNext zl sptr)

/-- `zzlDeleteRangeByRank`; `start` and `stop` are 1-based and inclusive. -/
def zzlDeleteRangeByRank (zl : List Bytes) (start stop : ℕ) : List Bytes × ℕ :=
  (ziplistDeleteRange zl (2 * (start - 1) : ℕ) (2 * (stop - start + 1)), stop - start + 1)

variable {S : Type} [LinearOrder S] (strtod : Bytes → S)

omit [LinearOrder S] in
def zzlGetScore (zl : List Bytes) (sptr : ℕ) : Option S := (ziplistGet zl sptr).map strtod

def zzlIsInRange (zl : List Bytes) (range : RangeSpec S) : Option Bool :=
  if range.max < range.min ∨ (range.min = range.max ∧ (range.minex ∨ range.maxex)) then some false
  else
    match ziplistIndex zl (-1) with
    | none => some false
    | some last => do
      let score ← zzlGetScore strtod zl last
      if zslValueGteMin score range then
        let first ← ziplistIndex zl 1
        let score ← zzlGetScore strtod zl first
        return zslValueLteMax score range
      else return false

/-- The body of the loop of `zzlFirstInRange`. -/
def firstInRangeBody (zl : List Bytes) (range : RangeSpec S) (eptr sptr : ℕ) :
    Option (Option (Option ℕ)) := do
  let score ← zzlGetScore strtod zl sptr
  if zslValueGteMin score range then
    return some (if zslValueLteMax score range then some eptr else none)
  else return none

def zzlFirstInRange (zl : List Bytes) (range : RangeSpec S) : Option (Option ℕ) := do
  if ← zzlIsInRange strtod zl range then
    scan zl (firstInRangeBody strtod zl range) (some none) (zl.length + 1) (ziplistIndex zl 0)
  else return none

def lastLoop (zl : List Bytes) (range : RangeSpec S) : ℕ → Option ℕ → Option (Option ℕ)
  | 0, _ => none
  | _ + 1, none => some none
  | fuel + 1, some eptr => do
    let sptr ← ziplistNext zl eptr
    let score ← zzlGetScore strtod zl sptr
    if zslValueLteMax score range then
      return if zslValueGteMin score range then some eptr else none
    else
      match ziplistPrev eptr with
      | none => lastLoop zl range fuel none
      | some sptr => do
        let eptr ← ziplistPrev sptr
        lastLoop zl range fuel (some eptr)

def zzlLastInRange (zl : List Bytes) (range : RangeSpec S) : Option (Option ℕ) := do
  if ← zzlIsInRange strtod zl range then
    lastLoop strtod zl range (zl.length + 1) (ziplistIndex zl (-2))
  else return none

omit [LinearOrder S] in
def findBody (zl : List Bytes) (ele : Bytes) (eptr sptr : ℕ) : Option (Option (Option (ℕ × S))) :=
  if ziplistCompare zl eptr ele then do
    let score ← zzlGetScore strtod zl sptr
    return some (some (eptr, score))
  else return none

omit [LinearOrder S] in
/-- `zzlFind`: the position of the element, and its score. -/
def zzlFind (zl : List Bytes) (ele : Bytes) : Option (Option (ℕ × S)) :=
  scan zl (findBody strtod zl ele) (some none) (zl.length + 1) (ziplistIndex zl 0)

def zzlDeleteLoop (range : RangeSpec S) (eptr : ℕ) : ℕ → List Bytes → ℕ → Option (List Bytes × ℕ)
  | 0, _, _ => none
  | fuel + 1, zl, num =>
    match ziplistNext zl eptr with
    | none => some (zl, num)
    | some sptr => do
      let score ← zzlGetScore strtod zl sptr
      if zslValueLteMax score range then
        -- the position stays, and is that of the next element or of the end byte
        zzlDeleteLoop range eptr fuel (ziplistDelete (ziplistDelete zl eptr) eptr) (num + 1)
      else return (zl, num)

def zzlDeleteRangeByScore (zl : List Bytes) (range : RangeSpec S) : Option (List Bytes × ℕ) := do
  match ← zzlFirstInRange strtod zl range with
  | none => return (zl, 0)
  | some eptr => zzlDeleteLoop strtod range eptr (zl.length + 1) zl 0

variable (d2string : S → Bytes)

omit [LinearOrder S] in
def zzlInsertAt (zl : List Bytes) (eptr : Option ℕ) (ele : Bytes) (score : S) :
    Option (List Bytes) :=
  match eptr with
  | none => some (ziplistPush (ziplistPush zl ele .tail) (d2string score) .tail)
  | some eptr => do
    let zl := ziplistInsert zl eptr ele
    let sptr ← ziplistNext zl eptr
    return ziplistInsert zl sptr (d2string score)

def insertBody (zl : List Bytes) (ele : Bytes) (score : S) (eptr sptr : ℕ) :
    Option (Option (List Bytes)) := do
  let s ← zzlGetScore strtod zl sptr
  if score < s then (zzlInsertAt d2string zl (some eptr) ele score).map some
  else if s = score then
    let cmp ← zzlCompareElements zl eptr ele
    if cmp = .gt then (zzlInsertAt d2string zl (some eptr) ele score).map some else return none
  else return none

def zzlInsert (zl : List Bytes) (ele : Bytes) (score : S) : Option (List Bytes) :=
  scan zl (insertBody strtod d2string zl ele score) (zzlInsertAt d2string zl none ele score)
    (zl.length + 1) (ziplistIndex zl 0)

end ServerStack.Redis.Zset
