import Mathlib

/-!
# Circular buffers

A circular buffer of `size` cells with a write index holds the most recent elements of a history
(`Holds`).  Writing a chunk that does not cross the end of the buffer appends to the history and
forgets what no longer fits (`Holds.write`); reading walks the cells from the oldest one, in one or
two contiguous pieces (`Holds.read`).
-/

namespace ServerStack.CircularBuffer

open List

variable {α : Type} (n : ℕ)

def lastN (l : List α) : List α := l.drop (l.length - n)

@[simp] theorem length_lastN (l : List α) : (lastN n l).length = min n l.length := by
  simp only [lastN, length_drop]
  omega

@[simp] theorem lastN_nil : lastN n ([] : List α) = [] := by simp [lastN]

theorem lastN_of_length_le {n : ℕ} {l : List α} (h : l.length ≤ n) : lastN n l = l := by
  simp [lastN, Nat.sub_eq_zero_of_le h]

theorem lastN_append (l c : List α) : lastN n (lastN n l ++ c) = lastN n (l ++ c) := by
  rcases Nat.le_total l.length n with h | h
  · rw [lastN_of_length_le h]
  · have hsplit : lastN n (l ++ c) = lastN n (l.drop (l.length - n) ++ c) := by
      have hl : l ++ c = l.take (l.length - n) ++ (l.drop (l.length - n) ++ c) := by
        rw [← append_assoc, take_append_drop]
      conv_lhs => rw [hl]
      simp only [lastN, length_append, length_take, length_drop]
      rw [drop_append, drop_of_length_le (by rw [length_take]; omega), nil_append, length_take]
      congr 1
      omega
    rw [hsplit]
    rfl

theorem getElem?_lastN (l : List α) (k : ℕ) : (lastN n l)[k]? = l[l.length - n + k]? := by
  simp [lastN]

variable {size idx : ℕ}

theorem mod_wrap {a : ℕ} (h : a < 2 * size) : a % size = if a < size then a else a - size := by
  split_ifs with ha
  · exact Nat.mod_eq_of_lt ha
  · rw [Nat.mod_eq_sub_mod (by omega), Nat.mod_eq_of_lt (by omega)]

def write (buf : ℕ → Option α) (idx : ℕ) (chunk : List α) : ℕ → Option α :=
  fun i => if idx ≤ i ∧ i < idx + chunk.length then chunk[i - idx]? else buf i

/-- The cells before `idx`, going around the end of the buffer, hold `contents`. -/
structure Holds (buf : ℕ → Option α) (size idx : ℕ) (contents : List α) : Prop where
  idx_lt : idx < size
  length_le : contents.length ≤ size
  cell : ∀ k < contents.length, buf ((idx + size - contents.length + k) % size) = contents[k]?

theorem holds_nil (buf : ℕ → Option α) (h : 0 < size) : Holds buf size 0 [] :=
  ⟨h, Nat.zero_le _, fun k hk => absurd hk (Nat.not_lt_zero k)⟩

/-- The write index after a chunk that ends at most at the end of the buffer. -/
def advance (size idx n : ℕ) : ℕ := if idx + n = size then 0 else idx + n

theorem advance_lt {n : ℕ} (h : idx + n ≤ size) (hsize : 0 < size) : advance size idx n < size := by
  rw [advance]
  split_ifs <;> omega

theorem not_covered {t e : ℕ} (hidx : idx < size) (he : 0 < e) (hfit : e + t ≤ size) :
    ¬ (idx ≤ (idx + size - e) % size ∧ (idx + size - e) % size < idx + t) := by
  rw [mod_wrap (by omega)]
  split_ifs <;> omega

variable {buf : ℕ → Option α}

theorem Holds.write {contents : List α} (h : Holds buf size idx contents)
    (chunk : List α) (fits : idx + chunk.length ≤ size) :
    Holds (CircularBuffer.write buf idx chunk) size (advance size idx chunk.length)
      (lastN size (contents ++ chunk)) where
  idx_lt := advance_lt fits (Nat.zero_lt_of_lt h.idx_lt)
  length_le := by simp
  cell := by
    intro k hk
    have hidx := h.idx_lt
    have hlen := h.length_le
    rw [length_lastN, length_append] at hk
    rw [length_lastN, getElem?_lastN, length_append]
    -- `q` is the position of the element in the whole history
    obtain ⟨q, hq⟩ : ∃ q, q = contents.length + chunk.length - size + k := ⟨_, rfl⟩
    have hpos : (advance size idx chunk.length + size - min size (contents.length + chunk.length)
        + k) % size = (idx + size - contents.length + q) % size := by
      unfold advance
      split_ifs
      · rw [mod_wrap (by omega), mod_wrap (by omega)]
        split_ifs <;> omega
      · rw [mod_wrap (by omega), mod_wrap (by omega)]
        split_ifs <;> omega
    rw [hpos, ← hq, CircularBuffer.write]
    rcases Nat.lt_or_ge q contents.length with hold | hnew
    · have hcell : idx + size - contents.length + q = idx + size - (contents.length - q) := by omega
      rw [if_neg, h.cell q hold, getElem?_append_left hold]
      rw [hcell]
      exact not_covered hidx (by omega) (by omega)
    · have hcell : (idx + size - contents.length + q) % size = idx + (q - contents.length) := by
        rw [mod_wrap (by omega)]
        split_ifs <;> omega
      rw [if_pos (by omega), getElem?_append_right hnew]
      congr 1
      omega

def push (size : ℕ) (b : (ℕ → Option α) × ℕ) (a : α) : (ℕ → Option α) × ℕ :=
  (CircularBuffer.write b.1 b.2 [a], advance size b.2 1)

theorem write_cons (buf : ℕ → Option α) (idx : ℕ) (a : α) (chunk : List α) :
    CircularBuffer.write (CircularBuffer.write buf idx [a]) (idx + 1) chunk =
      CircularBuffer.write buf idx (a :: chunk) := by
  funext i
  simp only [CircularBuffer.write, length_cons, length_nil]
  rcases Nat.lt_trichotomy i idx with hlt | rfl | hgt
  · rw [if_neg (by omega), if_neg (by omega), if_neg (by omega)]
  · rw [if_neg (by omega), if_pos (by omega), if_pos (by omega), Nat.sub_self]
    rfl
  · obtain ⟨k, rfl⟩ : ∃ k, i = idx + 1 + k := ⟨i - (idx + 1), by omega⟩
    rw [Nat.add_sub_cancel_left, show idx + 1 + k - idx = k + 1 by omega]
    split_ifs <;> first | rfl | omega

theorem foldl_push (chunk : List α) (buf : ℕ → Option α) (hidx : idx < size)
    (fits : idx + chunk.length ≤ size) :
    chunk.foldl (push size) (buf, idx) =
      (CircularBuffer.write buf idx chunk, advance size idx chunk.length) := by
  induction chunk generalizing buf idx with
  | nil =>
    have hwrite : CircularBuffer.write buf idx [] = buf := by
      funext i
      rw [CircularBuffer.write, length_nil, if_neg (by omega)]
    rw [hwrite, length_nil, advance, if_neg (by omega)]
    rfl
  | cons a chunk ih =>
    rw [length_cons] at fits
    rw [foldl_cons, push, advance, length_cons]
    split_ifs with hend
    · -- the element went to the last cell
      obtain rfl : chunk = [] := eq_nil_of_length_eq_zero (by omega)
      rw [foldl_nil, length_nil, advance, if_pos hend]
    · rw [ih _ (by omega) (by omega), write_cons, advance, advance, Nat.add_assoc,
        Nat.add_comm 1 chunk.length]

theorem Holds.foldl_push {history : List α}
    (h : Holds buf size idx (lastN size history)) (p : List α) :
    Holds (p.foldl (push size) (buf, idx)).1 size (p.foldl (push size) (buf, idx)).2
      (lastN size (history ++ p)) := by
  induction p generalizing buf idx history with
  | nil => rwa [append_nil]
  | cons a p ih =>
    have hstep := h.write [a] h.idx_lt
    rw [lastN_append] at hstep
    rw [append_cons]
    exact ih hstep

/-- `n` consecutive cells. -/
def cells (buf : ℕ → Option α) (start n : ℕ) : List (Option α) :=
  (List.range n).map fun i => buf (start + i)

theorem Holds.read {contents : List α} (h : Holds buf size idx contents)
    {skip j len : ℕ} (hskip : skip + len = contents.length)
    (hj : j = (idx + size - contents.length + skip) % size) :
    cells buf j (min (size - j) len) ++ cells buf 0 (len - (size - j)) =
      (contents.drop skip).map some := by
  have hidx := h.idx_lt
  have hlen := h.length_le
  have hjlt : j < size := hj ▸ Nat.mod_lt _ (by omega)
  apply ext_getElem?
  intro k
  rcases Nat.lt_or_ge k len with hk | hk
  · have hsome : ∃ a, contents[skip + k]? = some a := ⟨_, getElem?_eq_getElem (by omega)⟩
    obtain ⟨a, ha⟩ := hsome
    have hcell := h.cell (skip + k) (by omega)
    have hpos : (idx + size - contents.length + (skip + k)) % size =
        if k < size - j then j + k else k - (size - j) := by
      rw [hj] at hjlt ⊢
      rw [← Nat.add_assoc]
      generalize idx + size - contents.length + skip = p at hjlt ⊢
      rw [Nat.add_mod, Nat.mod_eq_of_lt (show k < size by omega), mod_wrap (by omega)]
      split_ifs <;> omega
    rw [hpos] at hcell
    simp only [cells, getElem?_append, length_map, length_range, getElem?_map, getElem?_drop, ha]
    split_ifs at hcell ⊢ with h1 h2
    · rw [getElem?_range (by omega)]
      simp [hcell, ha]
    · omega
    · omega
    · rw [getElem?_range (by omega)]
      simp only [Option.map_some, Nat.zero_add, Option.some.injEq]
      rw [← ha, ← hcell]
      congr 1
      omega
  · rw [getElem?_eq_none, getElem?_eq_none]
    · simp only [length_map, length_drop]
      omega
    · simp only [cells, length_append, length_map, length_range]
      omega

end ServerStack.CircularBuffer
