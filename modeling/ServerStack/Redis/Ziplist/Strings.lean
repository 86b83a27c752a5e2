import ServerStack.Redis.Util

/-!
# Ziplists as lists of strings

What the functions of `ziplist.c` do to the list of strings that a ziplist stores.  A pointer is the
position of an entry; the end byte is the position after the last entry.
-/

namespace ServerStack.Redis.Ziplist.Strings

open Util

section

variable (zl : List Bytes)

/-- `ziplistIndex`; negative indices count from the end. -/
def ziplistIndex (index : ℤ) : Option ℕ :=
  if index < 0 then
    if (-index - 1).toNat < zl.length then some (zl.length - 1 - (-index - 1).toNat) else none
  else if index.toNat < zl.length then some index.toNat
  else none

def ziplistNext (p : ℕ) : Option ℕ :=
  if p + 1 < zl.length then some (p + 1) else none

/-- `ziplistPrev`; from the end byte it leads to the last entry. -/
def ziplistPrev (p : ℕ) : Option ℕ := if p = 0 then none else some (p - 1)

def ziplistGet (p : ℕ) : Option Bytes := zl[p]?

def ziplistCompare (p : ℕ) (s : Bytes) : Bool := ziplistGet zl p == some s

def ziplistInsert (p : ℕ) (s : Bytes) : List Bytes := zl.take p ++ s :: zl.drop p

/-- The end of the list at which `ziplistPush` adds. -/
inductive Where where
  /-- `ZIPLIST_HEAD`. -/
  | head
  /-- `ZIPLIST_TAIL`. -/
  | tail
  deriving DecidableEq, Repr

def ziplistPush (s : Bytes) : Where → List Bytes
  | .head => ziplistInsert zl 0 s
  | .tail => ziplistInsert zl zl.length s

/-- `__ziplistDelete`. -/
def deleteAt (p num : ℕ) : List Bytes := zl.take p ++ zl.drop (p + num)

def ziplistDelete (p : ℕ) : List Bytes := deleteAt zl p 1

def ziplistDeleteRange (index : ℤ) (num : ℕ) : List Bytes :=
  match ziplistIndex zl index with
  | none => zl
  | some p => deleteAt zl p num

theorem ziplistPush_tail (s : Bytes) : ziplistPush zl s .tail = zl ++ [s] := by
  rw [ziplistPush, ziplistInsert, List.take_length, List.drop_length]

end

theorem ziplistInsert_length (zl zl' : List Bytes) (s : Bytes) :
    ziplistInsert (zl ++ zl') zl.length s = zl ++ s :: zl' := by
  rw [ziplistInsert, List.take_left, List.drop_left]

theorem deleteAt_length (zl mid zl' : List Bytes) :
    deleteAt (zl ++ (mid ++ zl')) zl.length mid.length = zl ++ zl' := by
  rw [deleteAt, List.take_left, ← List.drop_drop, List.drop_left, List.drop_left]

end ServerStack.Redis.Ziplist.Strings
