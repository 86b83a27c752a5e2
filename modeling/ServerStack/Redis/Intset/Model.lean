import ServerStack.Lib.Buffer
import ServerStack.Redis.Util

/-!
# Integer sets

The functions of `intset.c` on the bytes of a set: an array of integers in ascending order, all of
the same width, in a buffer that is reallocated with each insertion and removal.  Sizes in bytes are
computed as `uint32_t`.  Numbers of elements are not wrapped around: no set whose bytes can be
counted comes near the range of `int`.
-/

namespace ServerStack.Redis.Intset

open Util Endian Buffer

/-- `INTSET_ENC_INT16`, `INTSET_ENC_INT32`, `INTSET_ENC_INT64`. -/
inductive Encoding where
  | int16
  | int32
  | int64
  deriving DecidableEq, Repr

def Encoding.size : Encoding → ℕ
  | .int16 => 2
  | .int32 => 4
  | .int64 => 8

structure IntSet where
  encoding : Encoding
  length : ℕ
  contents : Bytes
  deriving DecidableEq, Repr

def intsetValueEncoding (v : ℤ) : Encoding :=
  if v < -2 ^ 31 ∨ v > 2 ^ 31 - 1 then .int64
  else if v < -2 ^ 15 ∨ v > 2 ^ 15 - 1 then .int32
  else .int16

def intsetGetEncoded (is : IntSet) (pos : ℕ) (enc : Encoding) : Except Fault ℤ := do
  let bytes ← read is.contents (pos * enc.size) enc.size
  return ofLittleEndianInt bytes

def intsetGet (is : IntSet) (pos : ℕ) : Except Fault ℤ := intsetGetEncoded is pos is.encoding

def intsetSet (is : IntSet) (pos : ℕ) (value : ℤ) : Except Fault IntSet := do
  let contents ← write is.contents (pos * is.encoding.size) (littleEndianInt is.encoding.size value)
  return { is with contents := contents }

def intsetNew : IntSet := ⟨.int16, 0, []⟩

variable (junk : ℕ → UInt8)

/-- `intsetResize`, with what the allocator leaves in new bytes. -/
def intsetResize (is : IntSet) (len : ℕ) : IntSet :=
  { is with contents := resize junk is.contents (len * is.encoding.size % 2 ^ 32) }

/-! ## Search -/

/-- `while(max >= min)`: the last values of `min`, `mid` and `cur`. -/
def searchLoop (is : IntSet) (value : ℤ) : ℕ → ℤ → ℤ → ℤ → ℤ → Except Fault (ℤ × ℤ × ℤ)
  | 0, min, _, mid, cur => .ok (min, mid, cur)
  | fuel + 1, min, max, mid, cur =>
    if max ≥ min then do
      let mid := (min + max) / 2
      let cur ← intsetGet is mid.toNat
      if value > cur then searchLoop is value fuel (mid + 1) max mid cur
      else if value < cur then searchLoop is value fuel min (mid - 1) mid cur
      else .ok (min, mid, cur)
    else .ok (min, mid, cur)

/-- `intsetSearch`: whether the value is there, and its position or where to insert it. -/
def intsetSearch (is : IntSet) (value : ℤ) : Except Fault (Bool × ℕ) :=
  if is.length = 0 then .ok (false, 0)
  else do
    let last ← intsetGet is (is.length - 1)
    if value > last then .ok (false, is.length)
    else do
      let first ← intsetGet is 0
      if value < first then .ok (false, 0)
      else do
        let (min, mid, cur) ← searchLoop is value is.length 0 (is.length - 1) (-1) (-1)
        if value = cur then .ok (true, mid.toNat) else .ok (false, min.toNat)

/-! ## Insertion and removal -/

/-- `while(length--)`: move the elements to their places in the new width, the last one first. -/
def upgradeLoop (curenc : Encoding) (prepend : ℕ) : ℕ → IntSet → Except Fault IntSet
  | 0, is => .ok is
  | length + 1, is => do
    let value ← intsetGetEncoded is length curenc
    let is ← intsetSet is (length + prepend) value
    upgradeLoop curenc prepend length is

variable (is : IntSet)

def intsetUpgradeAndAdd (value : ℤ) : Except Fault IntSet := do
  let curenc := is.encoding
  let prepend := if value < 0 then 1 else 0
  let is := intsetResize junk { is with encoding := intsetValueEncoding value } (is.length + 1)
  let is ← upgradeLoop curenc prepend is.length is
  let is ← intsetSet is (if prepend = 1 then 0 else is.length) value
  return { is with length := is.length + 1 }

def intsetMoveTail (src dst : ℕ) : Except Fault IntSet := do
  let size := is.encoding.size
  let bytes := (is.length - src) * size % 2 ^ 32
  let contents ← memmove is.contents (dst * size) (src * size) bytes
  return { is with contents := contents }

/-- The end of `intsetAdd`, where `pos` is free to take the value. -/
def insertAt (pos : ℕ) (value : ℤ) : Except Fault IntSet := do
  let is := intsetResize junk is (is.length + 1)
  let is ← if pos < is.length then intsetMoveTail is pos (pos + 1) else .ok is
  let is ← intsetSet is pos value
  return { is with length := is.length + 1 }

/-- `intsetAdd`: the set and `*success`. -/
def intsetAdd (value : ℤ) : Except Fault (IntSet × Bool) :=
  if (intsetValueEncoding value).size > is.encoding.size then do
    let is ← intsetUpgradeAndAdd junk is value
    return (is, true)
  else do
    let (found, pos) ← intsetSearch is value
    if found then return (is, false)
    else do
      let is ← insertAt junk is pos value
      return (is, true)

/-- The end of `intsetRemove`, which removes the element at `pos`. -/
def removeAt (pos : ℕ) : Except Fault IntSet := do
  let len := is.length
  let is ← if pos < len - 1 then intsetMoveTail is (pos + 1) pos else .ok is
  let is := intsetResize junk is (len - 1)
  return { is with length := len - 1 }

/-- `intsetRemove`: the set and `*success`. -/
def intsetRemove (value : ℤ) : Except Fault (IntSet × Bool) :=
  if (intsetValueEncoding value).size ≤ is.encoding.size then do
    let (found, pos) ← intsetSearch is value
    if found then do
      let is ← removeAt junk is pos
      return (is, true)
    else return (is, false)
  else return (is, false)

def intsetFind (value : ℤ) : Except Fault Bool :=
  if (intsetValueEncoding value).size ≤ is.encoding.size then do
    let (found, _) ← intsetSearch is value
    return found
  else return false

end ServerStack.Redis.Intset
