import ServerStack.Memcached.Text

/-!
# The hash table of `assoc.c`

Items hang in the chains of the table of the current power, and while the table grows in those of
the old one that the maintenance thread has not reached.  A chain is a list of items.
-/

namespace ServerStack.Memcached

open Function

abbrev ItemId := ℕ

structure Assoc where
  hashpower : ℕ
  primary : ℕ → List ItemId
  old : ℕ → List ItemId
  expanding : Bool
  expandBucket : ℕ
  hashItems : ℕ
  startedExpanding : Bool

namespace Assoc

def init (hashpower : ℕ) : Assoc := ⟨hashpower, fun _ => [], fun _ => [], false, 0, 0, false⟩

def hashsize (n : ℕ) : ℕ := 2 ^ n

variable (t : Assoc)

def InOld (hv : ℕ) : Prop :=
  t.expanding = true ∧ t.expandBucket ≤ hv % hashsize (t.hashpower - 1)

instance (hv : ℕ) : Decidable (t.InOld hv) := inferInstanceAs (Decidable (_ ∧ _))

def chain (hv : ℕ) : List ItemId :=
  if t.InOld hv then t.old (hv % hashsize (t.hashpower - 1))
  else t.primary (hv % hashsize t.hashpower)

def setChain (hv : ℕ) (ids : List ItemId) : Assoc :=
  if t.InOld hv then
    { t with old := update t.old (hv % hashsize (t.hashpower - 1)) ids }
  else { t with primary := update t.primary (hv % hashsize t.hashpower) ids }

variable (keyOf : ItemId → Bytes)

def find (key : Bytes) (hv : ℕ) : Option ItemId :=
  (t.chain hv).find? fun id => decide (keyOf id = key)

/-- `assoc_insert`; `hash_items` is an `unsigned int`. -/
def insert (id : ItemId) (hv : ℕ) : Assoc :=
  let t := t.setChain hv (id :: t.chain hv)
  let hashItems := (t.hashItems + 1) % 2 ^ 32
  { t with
    hashItems := hashItems
    startedExpanding := t.startedExpanding ||
      (!t.expanding && decide (hashsize t.hashpower * 3 / 2 < hashItems)) }

/-- `assoc_delete`; its callers only delete what they have found. -/
def delete (key : Bytes) (hv : ℕ) : Assoc :=
  if (t.find keyOf key hv).isSome then
    { t.setChain hv ((t.chain hv).eraseP fun id => decide (keyOf id = key)) with
      hashItems := (t.hashItems + (2 ^ 32 - 1)) % 2 ^ 32 }
  else t

/-- `assoc_expand`, when the new table can be allocated. -/
def expand : Assoc :=
  { t with
    old := t.primary
    primary := fun _ => []
    hashpower := t.hashpower + 1
    expanding := true
    expandBucket := 0 }

/-- The `int` that the maintenance thread computes for a bucket. -/
def bucketOf (hv : ℕ) : ℤ := Int.bmod (hv % hashsize t.hashpower) (2 ^ 32)

/-- The maintenance thread puts an item at the front of a chain of the primary table; with a negative
index it writes in front of the table. -/
def putPrimary (primary : ℕ → List ItemId) (bucket : ℤ) (id : ItemId) : ℕ → List ItemId :=
  if bucket < 0 then primary
  else update primary bucket.toNat (id :: primary bucket.toNat)

/-- One bucket of the loop of `assoc_maintenance_thread`; `expand_bucket` is an `unsigned int`. -/
def moveBucket (hash : Bytes → ℕ) : Assoc :=
  let expandBucket := (t.expandBucket + 1) % 2 ^ 32
  { t with
    primary := (t.old t.expandBucket).foldl
      (fun primary id => putPrimary primary (t.bucketOf (hash (keyOf id))) id) t.primary
    old := update t.old t.expandBucket []
    expandBucket := expandBucket
    expanding := decide (expandBucket ≠ hashsize (t.hashpower - 1))
    startedExpanding :=
      t.startedExpanding && decide (expandBucket ≠ hashsize (t.hashpower - 1)) }

/-- One round of `assoc_maintenance_thread`; a thread that was woken up grows the table if the new
one can be allocated. -/
def maintain (hash : Bytes → ℕ) (calloc : Bool) : Assoc :=
  if t.expanding then t.moveBucket keyOf hash
  else if calloc then t.expand
  else { t with startedExpanding := false }

end Assoc

end ServerStack.Memcached
