import ServerStack.Lib.Endian

/-!
# Heap buffers

A buffer is the list of its bytes.  Reading and writing outside of it is a fault.  Each operation
has one rule, which speaks of the parts into which the buffer is cut.
-/

namespace ServerStack.Buffer

open Endian List

inductive Fault where
  | outOfBounds
  deriving DecidableEq, Repr

variable (buf : List UInt8)

/-- The `n` bytes at an offset. -/
def read (off n : ℕ) : Except Fault (List UInt8) :=
  if off + n ≤ buf.length then .ok ((buf.drop off).take n) else .error .outOfBounds

def write (off : ℕ) (bs : List UInt8) : Except Fault (List UInt8) :=
  if off + bs.length ≤ buf.length then .ok (buf.take off ++ bs ++ buf.drop (off + bs.length))
  else .error .outOfBounds

/-- Copy `n` bytes; the two places may overlap. -/
def memmove (dst src n : ℕ) : Except Fault (List UInt8) := do
  let bs ← read buf src n
  write buf dst bs

/-- Give the buffer another size; `junk` is what new bytes hold. -/
def resize (junk : ℕ → UInt8) (buf : List UInt8) (size : ℕ) : List UInt8 :=
  buf.take size ++ (List.range (size - buf.length)).map junk

variable {a b c a' b' c' buf : List UInt8} {off n dst src size : ℕ} {junk : ℕ → UInt8}

theorem read_eq (h : buf = a ++ b ++ c) (hoff : a.length = off) (hn : b.length = n) :
    read buf off n = .ok b := by
  subst h hoff hn
  rw [read, if_pos (by simp only [length_append]; omega), append_assoc, drop_left, take_left]

theorem write_eq (h : buf = a ++ b ++ c) (hoff : a.length = off) (hlen : b.length = b'.length) :
    write buf off b' = .ok (a ++ b' ++ c) := by
  subst h hoff
  have hrest : a.length + b'.length = (a ++ b).length := by rw [length_append, hlen]
  rw [write, if_pos (by simp only [length_append] at hrest ⊢; omega), hrest, drop_left,
    append_assoc a b c, take_left]

theorem memmove_eq (hsrc : buf = a ++ b ++ c) (hdst : buf = a' ++ b' ++ c') (ha : a.length = src)
    (ha' : a'.length = dst) (hb : b.length = n) (hb' : b'.length = n) :
    memmove buf dst src n = .ok (a' ++ b ++ c') := by
  rw [memmove, read_eq hsrc ha hb]
  exact write_eq hdst ha' (hb'.trans hb.symm)

theorem resize_append (h : a.length = size) : resize junk (a ++ b) size = a := by
  subst h
  rw [resize, take_left, length_append, Nat.sub_eq_zero_of_le (Nat.le_add_right _ _),
    range_zero, map_nil, append_nil]

theorem resize_of_le (h : buf.length ≤ size) :
    ∃ tail, tail.length = size - buf.length ∧ resize junk buf size = buf ++ tail :=
  ⟨(List.range (size - buf.length)).map junk, by rw [length_map, length_range],
    by rw [resize, take_of_length_le h]⟩

theorem write_error (h : buf.length < off + b.length) : write buf off b = .error .outOfBounds := by
  rw [write, if_neg (by omega)]

theorem exists_append_of_le (h : n ≤ buf.length) : ∃ a b, buf = a ++ b ∧ b.length = n :=
  ⟨buf.take (buf.length - n), buf.drop (buf.length - n), (take_append_drop _ _).symm, by
    rw [length_drop]
    omega⟩

/-! ## Arrays of integers -/

variable (w : ℕ)

/-- An array of signed integers of `w` bytes each. -/
def cells (vs : List ℤ) : List UInt8 := vs.flatMap (littleEndianInt w)

@[simp] theorem cells_nil : cells w [] = [] := rfl

@[simp] theorem cells_append (us vs : List ℤ) :
    cells w (us ++ vs) = cells w us ++ cells w vs := flatMap_append

@[simp] theorem cells_cons (v : ℤ) (vs : List ℤ) :
    cells w (v :: vs) = littleEndianInt w v ++ cells w vs := flatMap_cons

@[simp] theorem length_cells (vs : List ℤ) : (cells w vs).length = vs.length * w := by
  induction vs with
  | nil => simp
  | cons v vs ih =>
    rw [cells_cons, length_append, length_littleEndianInt, ih, length_cons, Nat.succ_mul,
      Nat.add_comm]

end ServerStack.Buffer
