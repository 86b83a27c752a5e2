import Mathlib

/-!
# Radix trees

`ngx_radix_tree.c`, on 64-bit machines with pages of 4096 bytes.  Nodes are memory cells with
addresses; the pages that the pool hands out lie one behind the other, and no allocation fails.
The 32-bit and the 128-bit functions differ in how they go along the bits of a key, which is a
`Cursor` here.
-/

namespace ServerStack.Nginx.RadixTree

def noValue : UInt64 := 0xffffffffffffffff

/-- `ngx_radix_node_t`; `none` is `NULL`. -/
structure Node where
  right : Option ℕ
  left : Option ℕ
  parent : Option ℕ
  value : UInt64

def Node.child (n : Node) (right : Bool) : Option ℕ := if right then n.right else n.left

def Node.setChild (n : Node) (right : Bool) (a : Option ℕ) : Node :=
  if right then { n with right := a } else { n with left := a }

/-- `ngx_radix_tree_t`, with the memory of the nodes and the number of pages taken so far. -/
structure Tree where
  mem : ℕ → Node
  root : ℕ
  free : Option ℕ
  start : ℕ
  size : ℕ
  pages : ℕ

def Tree.modify (t : Tree) (a : ℕ) (f : Node → Node) : Tree :=
  { t with mem := Function.update t.mem a (f (t.mem a)) }

inductive Fault where
  | nullPointer
  /-- A byte behind the 16 bytes of a key is read. -/
  | keyOverrun
  /-- A loop was cut off. -/
  | unfinished
  deriving DecidableEq

/-- `NGX_OK`, `NGX_ERROR` and `NGX_BUSY`. -/
inductive Status where
  | ok
  | error
  | busy
  deriving DecidableEq

def nodeSize : ℕ := 32

def pageSize : ℕ := 4096

def radixAlloc (t : Tree) : ℕ × Tree :=
  match t.free with
  | some p => (p, { t with free := (t.mem p).right })
  | none =>
    let t :=
      if t.size < nodeSize then
        { t with start := (t.pages + 1) * pageSize, size := pageSize, pages := t.pages + 1 }
      else t
    (t.start, { t with start := t.start + nodeSize, size := t.size - nodeSize })

/-! ## The loops -/

/-- How a function goes along the bits of a key. -/
structure Cursor (P : Type) where
  /-- The first bit. -/
  first : P
  /-- `bit & mask`: the prefix has this bit. -/
  more : P → Bool
  /-- `key & bit`: the bit leads to the right. -/
  right : P → Except Fault Bool
  next : P → P

section

variable {P : Type} (c : Cursor P)

/-- The first loop of an insertion: `node`, `next` and `bit`. -/
def descend (mem : ℕ → Node) : ℕ → ℕ → Option ℕ → P → Except Fault (ℕ × Option ℕ × P)
  | 0, _, _, _ => .error .unfinished
  | fuel + 1, node, next, bit =>
    if c.more bit then do
      match (mem node).child (← c.right bit) with
      | none => return (node, none, bit)
      | some next => descend mem fuel next (some next) (c.next bit)
    else return (node, next, bit)

/-- The new node `next` is initialised and linked to its parent. -/
def attach (t : Tree) (node next : ℕ) (right : Bool) : Tree :=
  (t.modify next fun _ => ⟨none, none, some node, noValue⟩).modify node
    (·.setChild right (some next))

def extend : ℕ → Tree → ℕ → P → Except Fault (Tree × ℕ)
  | 0, _, _, _ => .error .unfinished
  | fuel + 1, t, node, bit =>
    if c.more bit then do
      let (next, t) := radixAlloc t
      extend fuel (attach t node next (← c.right bit)) next (c.next bit)
    else return (t, node)

def insert (fuel : ℕ) (t : Tree) (value : UInt64) : Except Fault (Tree × Status) := do
  let (node, next, bit) ← descend c t.mem fuel t.root (some t.root) c.first
  if next.isSome then
    if (t.mem node).value ≠ noValue then return (t, .busy)
    else return (t.modify node ({ · with value := value }), .ok)
  else
    let (t, node) ← extend c fuel t node bit
    return (t.modify node ({ · with value := value }), .ok)

def locate (mem : ℕ → Node) : ℕ → Option ℕ → P → Except Fault (Option ℕ)
  | 0, _, _ => .error .unfinished
  | _ + 1, none, _ => return none
  | fuel + 1, some node, bit =>
    if c.more bit then do locate mem fuel ((mem node).child (← c.right bit)) (c.next bit)
    else return some node

def detach (t : Tree) (node parent : ℕ) : Tree :=
  let t := t.modify parent (·.setChild (decide ((t.mem parent).right = some node)) none)
  { t.modify node ({ · with right := t.free }) with free := some node }

def prune : ℕ → Tree → ℕ → Except Fault Tree
  | 0, _, _ => .error .unfinished
  | fuel + 1, t, node =>
    match (t.mem node).parent with
    | none => .error .nullPointer
    | some parent =>
      let t := detach t node parent
      let n := t.mem parent
      if n.right.isSome || n.left.isSome then return t
      else if n.value ≠ noValue then return t
      else if n.parent.isNone then return t
      else prune fuel t parent

def delete (fuel : ℕ) (t : Tree) : Except Fault (Tree × Status) := do
  match ← locate c t.mem fuel (some t.root) c.first with
  | none => return (t, .error)
  | some node =>
    let n := t.mem node
    if n.right.isSome || n.left.isSome then
      if n.value ≠ noValue then return (t.modify node ({ · with value := noValue }), .ok)
      else return (t, .error)
    else return (← prune fuel t node, .ok)

def findLoop (mem : ℕ → Node) : ℕ → Option ℕ → P → UInt64 → Except Fault UInt64
  | 0, _, _, _ => .error .unfinished
  | _ + 1, none, _, value => return value
  | fuel + 1, some node, bit, value => do
    let value := if (mem node).value ≠ noValue then (mem node).value else value
    findLoop mem fuel ((mem node).child (← c.right bit)) (c.next bit) value

def find (fuel : ℕ) (t : Tree) : Except Fault UInt64 :=
  findLoop c t.mem fuel (some t.root) c.first noValue

end

/-! ## Keys of 32 bits -/

/-- `bit` runs through the bits of a `uint32_t`. -/
def cursor32 (key mask : UInt32) : Cursor UInt32 where
  first := 0x80000000
  more bit := bit &&& mask ≠ 0
  right bit := .ok (key &&& bit ≠ 0)
  next bit := bit >>> 1

section

variable (t : Tree)

def radix32treeInsert (key mask : UInt32) (value : UInt64) : Except Fault (Tree × Status) :=
  insert (cursor32 key mask) 33 t value

def radix32treeDelete (key mask : UInt32) : Except Fault (Tree × Status) :=
  delete (cursor32 key mask) 33 t

def radix32treeFind (key : UInt32) : Except Fault UInt64 := find (cursor32 key 0) 34 t

/-! ## Keys of 128 bits -/

abbrev Key128 := Fin 16 → UInt8

/-- `bit` runs through the bits of byte `i`.  The loops over a mask are left when `i` gets to 16; the
loop of `ngx_radix128tree_find` is not. -/
def cursor128 (key mask : Key128) : Cursor (ℕ × UInt8) where
  first := (0, 0x80)
  more p := if h : p.1 < 16 then p.2 &&& mask ⟨p.1, h⟩ ≠ 0 else false
  right p := if h : p.1 < 16 then .ok (key ⟨p.1, h⟩ &&& p.2 ≠ 0) else .error .keyOverrun
  next p := if p.2 >>> 1 = 0 then (p.1 + 1, 0x80) else (p.1, p.2 >>> 1)

def radix128treeInsert (key mask : Key128) (value : UInt64) : Except Fault (Tree × Status) :=
  insert (cursor128 key mask) 129 t value

def radix128treeDelete (key mask : Key128) : Except Fault (Tree × Status) :=
  delete (cursor128 key mask) 129 t

def radix128treeFind (key : Key128) : Except Fault UInt64 :=
  find (cursor128 key fun _ => 0) 130 t

/-! ## Creation -/

end

/-- `do { … } while (key)`: one level is preallocated.  `none` if an insertion is refused. -/
def preallocateLevel (mask inc : UInt32) : ℕ → Tree → UInt32 → Except Fault (Option Tree)
  | 0, _, _ => .error .unfinished
  | fuel + 1, t, key => do
    let (t, status) ← radix32treeInsert t key mask noValue
    if status ≠ .ok then return none
    else if key + inc = 0 then return some t
    else preallocateLevel mask inc fuel t (key + inc)

/-- `while (preallocate--)`. -/
def preallocateLevels : ℕ → Tree → UInt32 → UInt32 → Except Fault (Option Tree)
  | 0, t, _, _ => return some t
  | n + 1, t, mask, inc => do
    let mask := mask >>> 1 ||| 0x80000000
    match ← preallocateLevel mask inc (2 ^ 32) t 0 with
    | none => return none
    | some t => preallocateLevels n t mask (inc >>> 1)

def createRoot : Tree :=
  let (root, t) := radixAlloc ⟨fun _ => ⟨none, none, none, 0⟩, 0, none, 0, 0, 0⟩
  { t with root := root }.modify root fun _ => ⟨none, none, none, noValue⟩

/-- `ngx_radix_tree_create`; a `preallocate` of `none` is `-1`. -/
def radixTreeCreate (preallocate : Option ℕ) : Except Fault (Option Tree) :=
  preallocateLevels (preallocate.getD 6) createRoot 0 0x80000000

end ServerStack.Nginx.RadixTree
