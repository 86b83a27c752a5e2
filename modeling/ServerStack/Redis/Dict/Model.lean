import ServerStack.Lib.Outcome

/-!
# The hash table of `dict.c`

Two tables of chained buckets with incremental rehashing.  A table is a function from bucket
indices to chains; every access goes through `Dictht.bucket`, which fails outside the allocated
buckets.  The `int` variables of the source (`rehashidx`, the index returned by `_dictKeyIndex`,
`minimal` in `dictResize`) are integers wrapped to 32 bits by `toInt`.
-/

namespace ServerStack.Redis.HashTable

/-- The conversion of an integer to the C type `int`. -/
def toInt (n : ℤ) : ℤ := n.bmod (2 ^ 32)

structure DictEntry (K V : Type) where
  key : K
  val : V

/-- `dictht`.  The table pointer is NULL exactly when the size is 0. -/
structure Dictht (K V : Type) where
  table : ℕ → List (DictEntry K V)
  size : ℕ
  sizemask : ℕ
  used : ℕ

structure Dict (K V : Type) where
  ht0 : Dictht K V
  ht1 : Dictht K V
  /-- Rehashing is not in progress if `rehashidx == -1`. -/
  rehashidx : ℤ
  iterators : ℕ

inductive Fault where
  | outOfBounds
  | assertFailed
  | nullPointer
  /-- A loop of the source was cut off before it stopped by itself. -/
  | unfinished
  deriving DecidableEq, Repr

variable {K V : Type}

/-- `ht->table[i]`. -/
def Dictht.bucket (ht : Dictht K V) (i : ℤ) : Except Fault (List (DictEntry K V)) :=
  if 0 ≤ i ∧ i < ht.size then .ok (ht.table i.toNat) else .error .outOfBounds

def dictReset : Dictht K V := { table := fun _ => [], size := 0, sizemask := 0, used := 0 }

def dictCreate : Dict K V :=
  { ht0 := dictReset, ht1 := dictReset, rehashidx := -1, iterators := 0 }

def dictIsRehashing (d : Dict K V) : Bool := d.rehashidx != -1

def dictSize (d : Dict K V) : ℕ := d.ht0.used + d.ht1.used

def dictHtInitialSize : ℕ := 4

def longMax : ℕ := 2 ^ 63 - 1

/-- The doubling loop of `_dictNextPower`; sixty-four doublings reach every `unsigned long`. -/
def nextPowerLoop : ℕ → ℕ → ℕ → ℕ
  | 0, i, _ => i
  | fuel + 1, i, size => if i ≥ size then i else nextPowerLoop fuel (i * 2) size

def dictNextPower (size : ℕ) : ℕ :=
  if size ≥ longMax then longMax else nextPowerLoop 64 dictHtInitialSize size

/-- The second component is `true` for `DICT_OK`. -/
def dictExpand (d : Dict K V) (size : ℕ) : Dict K V × Bool :=
  let realsize := dictNextPower size
  if dictIsRehashing d ∨ d.ht0.used > size then (d, false)
  else
    let n := { table := fun _ => [], size := realsize, sizemask := realsize - 1, used := 0 }
    if d.ht0.size = 0 then ({ d with ht0 := n }, true)
    else ({ d with ht1 := n, rehashidx := 0 }, true)

/-- `dictResize`, under the global flag `dict_can_resize`. -/
def dictResize (canResize : Bool) (d : Dict K V) : Dict K V × Bool :=
  if canResize = false ∨ dictIsRehashing d then (d, false)
  else
    let minimal := toInt d.ht0.used
    let minimal := if minimal < dictHtInitialSize then (dictHtInitialSize : ℤ) else minimal
    dictExpand d minimal.toNat

/-! ## Rehashing -/

/-- `while(d->ht[0].table[d->rehashidx] == NULL) d->rehashidx++`.  One round more than there are
buckets: the loop has then left the table. -/
def skipEmpty (ht : Dictht K V) : ℕ → ℤ → Except Fault ℤ
  | 0, _ => .error .outOfBounds
  | fuel + 1, i => do
    let chain ← ht.bucket i
    if chain.isEmpty then skipEmpty ht fuel (toInt (i + 1)) else return i

variable (hash : K → UInt32)

/-- `dictHashKey(d, key) & ht.sizemask`. -/
def Dictht.index (ht : Dictht K V) (key : K) : ℕ := (hash key).toNat &&& ht.sizemask

def Dictht.push (ht : Dictht K V) (i : ℕ) (de : DictEntry K V) : Dictht K V :=
  { ht with table := Function.update ht.table i (de :: ht.table i), used := ht.used + 1 }

/-- Move the entries of a chain to the new table, from the head of the chain on. -/
def moveChain : List (DictEntry K V) → Dictht K V → Except Fault (Dictht K V)
  | [], ht => .ok ht
  | de :: rest, ht => do
    let _ ← ht.bucket (ht.index hash de.key)
    moveChain rest (ht.push (ht.index hash de.key) de)

/-- One round of the loop of `dictRehash`; `false` when the old table turned out to be empty. -/
def rehashRound (d : Dict K V) : Except Fault (Dict K V × Bool) :=
  if d.ht0.used = 0 then
    .ok ({ d with ht0 := d.ht1, ht1 := dictReset, rehashidx := -1 }, false)
  else if (d.ht0.size : ℤ) ≤ d.rehashidx % 2 ^ 32 then .error .assertFailed
  else do
    let i ← skipEmpty d.ht0 (d.ht0.size + 1) d.rehashidx
    let chain ← d.ht0.bucket i
    let ht1 ← moveChain hash chain d.ht1
    let ht0 := { d.ht0 with
      table := Function.update d.ht0.table i.toNat []
      used := d.ht0.used - chain.length }
    return ({ d with ht0 := ht0, ht1 := ht1, rehashidx := toInt (i + 1) }, true)

/-- `while(n--)`. -/
def rehashLoop : ℕ → Dict K V → Except Fault (Dict K V × Bool)
  | 0, d => .ok (d, true)
  | n + 1, d => do
    let (d, more) ← rehashRound hash d
    if more then rehashLoop n d else return (d, false)

/-- `dictRehash`: whether there are still keys to move. -/
def dictRehash (d : Dict K V) (n : ℕ) : Except Fault (Dict K V × Bool) :=
  if dictIsRehashing d then rehashLoop hash n d else .ok (d, false)

/-- `if (dictIsRehashing(d)) _dictRehashStep(d)`. -/
def dictRehashStep (d : Dict K V) : Except Fault (Dict K V) :=
  if dictIsRehashing d ∧ d.iterators = 0 then Prod.fst <$> dictRehash hash d 1 else .ok d

/-! ## Adding, finding and deleting keys -/

/-- `_dictExpandIfNeeded`; `dict_force_resize_ratio` is 5. -/
def dictExpandIfNeeded (canResize : Bool) (d : Dict K V) : Dict K V × Bool :=
  if dictIsRehashing d then (d, true)
  else if d.ht0.size = 0 then dictExpand d dictHtInitialSize
  else if d.ht0.used ≥ d.ht0.size ∧ (canResize ∨ d.ht0.used / d.ht0.size > 5) then
    dictExpand d (d.ht0.used * 2)
  else (d, true)

variable [DecidableEq K]

def findKey (key : K) (chain : List (DictEntry K V)) : Option (DictEntry K V) :=
  chain.find? fun he => key = he.key

/-- The search of `_dictKeyIndex`, once the table is large enough. -/
def searchIndex (d : Dict K V) (key : K) : Except Fault ℤ := do
  let chain ← d.ht0.bucket (d.ht0.index hash key)
  if (findKey key chain).isSome then return -1
  else if dictIsRehashing d = false then return toInt (d.ht0.index hash key)
  else
    let chain ← d.ht1.bucket (d.ht1.index hash key)
    if (findKey key chain).isSome then return -1
    else return toInt (d.ht1.index hash key)

def dictKeyIndex (canResize : Bool) (d : Dict K V) (key : K) : Except Fault (Dict K V × ℤ) :=
  match dictExpandIfNeeded canResize d with
  | (d, false) => .ok (d, -1)
  | (d, true) => do
    let index ← searchIndex hash d key
    return (d, index)

/-- `dictAdd`, with the entry of `dictAddRaw` given its value at once. -/
def dictAdd (canResize : Bool) (d : Dict K V) (key : K) (val : V) :
    Except Fault (Dict K V × Bool) := do
  let d ← dictRehashStep hash d
  let (d, index) ← dictKeyIndex hash canResize d key
  if index = -1 then return (d, false)
  else if dictIsRehashing d then
    let _ ← d.ht1.bucket index
    return ({ d with ht1 := d.ht1.push index.toNat ⟨key, val⟩ }, true)
  else
    let _ ← d.ht0.bucket index
    return ({ d with ht0 := d.ht0.push index.toNat ⟨key, val⟩ }, true)

inductive Which where
  | first
  | second

/-- The search loop of `dictFind`. -/
def searchEntry (d : Dict K V) (key : K) : Except Fault (Option (Which × V)) := do
  let chain ← d.ht0.bucket (d.ht0.index hash key)
  match findKey key chain with
  | some he => return some (.first, he.val)
  | none =>
    if dictIsRehashing d = false then return none
    else
      let chain ← d.ht1.bucket (d.ht1.index hash key)
      return (findKey key chain).map fun he => (.second, he.val)

/-- `dictFind`: the entry is returned as the table that holds it and its value. -/
def dictFind (d : Dict K V) (key : K) : Except Fault (Dict K V × Option (Which × V)) :=
  if d.ht0.size = 0 then .ok (d, none)
  else do
    let d ← dictRehashStep hash d
    let he ← searchEntry hash d key
    return (d, he)

def setVal (key : K) (val : V) : List (DictEntry K V) → List (DictEntry K V)
  | [] => []
  | he :: rest => if key = he.key then ⟨he.key, val⟩ :: rest else he :: setVal key val rest

def Dictht.updateChain (ht : Dictht K V) (key : K)
    (f : List (DictEntry K V) → List (DictEntry K V)) : Dictht K V :=
  { ht with
    table := Function.update ht.table (ht.index hash key) (f (ht.table (ht.index hash key))) }

/-- `dictReplace`: `true` if the key was added from scratch. -/
def dictReplace (canResize : Bool) (d : Dict K V) (key : K) (val : V) :
    Except Fault (Dict K V × Bool) := do
  let (d, added) ← dictAdd hash canResize d key val
  if added then return (d, true)
  else
    let (d, entry) ← dictFind hash d key
    match entry with
    | none => .error .nullPointer
    | some (.first, _) =>
      return ({ d with ht0 := d.ht0.updateChain hash key (setVal key val) }, false)
    | some (.second, _) =>
      return ({ d with ht1 := d.ht1.updateChain hash key (setVal key val) }, false)

def Dictht.unlink (ht : Dictht K V) (key : K) : Dictht K V :=
  { ht.updateChain hash key (List.eraseP fun he => decide (key = he.key)) with used := ht.used - 1 }

/-- `dictDelete`; the second component is `true` for `DICT_OK`. -/
def dictDelete (d : Dict K V) (key : K) : Except Fault (Dict K V × Bool) :=
  if d.ht0.size = 0 then .ok (d, false)
  else do
    let d ← dictRehashStep hash d
    let entry ← searchEntry hash d key
    match entry with
    | none => return (d, false)
    | some (.first, _) => return ({ d with ht0 := d.ht0.unlink hash key }, true)
    | some (.second, _) => return ({ d with ht1 := d.ht1.unlink hash key }, true)

end ServerStack.Redis.HashTable
