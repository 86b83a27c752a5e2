import ServerStack.Fastdfs.Common
import ServerStack.Lib.ChainTable

/-!
# The hash table of `hash.c`

A table of chains whose number of buckets is one of a list of primes, with a limit on the bytes that
the buckets and the entries take.  The environment decides which calls of `malloc` succeed.
-/

namespace ServerStack.Fastdfs

open ChainTable

/-- `HashData`; the length of the value may be below the space that it has. -/
structure HashData where
  key : Bytes
  value : Bytes
  mallocValueSize : ℕ
  deriving DecidableEq, Repr

def primeArray : List ℕ :=
  [1, 3, 17, 37, 79, 163, 331, 673, 1361, 2729, 5471, 10949, 21911, 43853, 87719, 175447, 350899,
    701819, 1403641, 2807303, 5614657, 11229331, 22458671, 44917381, 89834777, 179669557, 359339171,
    718678369, 1437356741, 2147483647]

def primeArraySize : ℕ := 30

def sizeofHashData : ℕ := 32

/-- `sizeof(HashData *)`. -/
def sizeofPointer : ℕ := 8

/-- `HashArray`, with a capacity that points into `prime_array`. -/
structure HashArray where
  buckets : ℕ → List HashData
  itemCount : ℤ
  -- the place of the capacity in `prime_array`
  capacity : ℕ
  maxBytes : ℤ
  bytesUsed : ℤ
  isMallocValue : Bool

def calcNodeMallocBytes (keyLen valueSize : ℕ) : ℤ := sizeofHashData + keyLen + valueSize

def HashData.bytes (d : HashData) : ℤ := calcNodeMallocBytes d.key.length d.mallocValueSize

/-- Which calls of `malloc` succeed: for the entry, and for the buckets. -/
structure Malloc where
  entry : Bool
  buckets : Bool
  deriving DecidableEq, Repr

-- the hash function, the outcome of the comparison with the load factor for an item count and a
-- capacity, and what stands in memory behind `prime_array`
variable (hashFunc : Bytes → ℕ) (overloaded : ℤ → ℕ → Bool) (behind : ℕ → ℕ)

/-- `*pHash->capacity`. -/
def prime (capacity : ℕ) : ℕ := primeArray.getD capacity (behind capacity)

def bucketOf (capacity : ℕ) (key : Bytes) : ℕ := hashFunc key % prime behind capacity

variable (malloc : Bool)

namespace HashArray

/-- `_hash_alloc_buckets`, before the buckets are there: an error, or the bytes that are used then. -/
def hashAllocBuckets (capacity oldBuckets : ℕ) (h : HashArray) : Except ℤ ℤ :=
  let bytes : ℤ := sizeofPointer * prime behind capacity
  if 0 < h.maxBytes ∧ h.maxBytes < h.bytesUsed + bytes then .error enospc
  else if malloc = false then .error enomem
  else .ok (h.bytesUsed + (bytes - sizeofPointer * oldBuckets))

/-- `hash_init_ex`; the limit is set after the buckets are allocated. -/
def hashInitEx (capacity : ℕ) (maxBytes : ℤ) (mallocValue : Bool) : Except ℤ HashArray :=
  match primeArray.findIdx? (fun p => decide (capacity < p)) with
  | none => .error einval
  | some i =>
    let h : HashArray := ⟨fun _ => [], 0, i, 0, 0, false⟩
    match h.hashAllocBuckets behind malloc i 0 with
    | .error e => .error e
    | .ok bytesUsed => .ok ⟨fun _ => [], 0, i, maxBytes, bytesUsed, mallocValue⟩

/-- `_rehash1`: every entry is added to its bucket again. -/
def rehash1 (capacity : ℕ) (h : HashArray) : Except ℤ HashArray :=
  match h.hashAllocBuckets behind malloc capacity (prime behind h.capacity) with
  | .error e => .error e
  | .ok bytesUsed =>
    let old := (List.range (prime behind h.capacity)).flatMap h.buckets
    .ok { h with
      buckets := old.foldl (add HashData.key (bucketOf hashFunc behind capacity)) fun _ => []
      itemCount := (old.length : ℤ).bmod (2 ^ 32)
      capacity := capacity
      bytesUsed := bytesUsed }

/-- `_rehash`: the next prime, with the old one kept if that fails. -/
def rehash (h : HashArray) : HashArray :=
  match h.rehash1 hashFunc behind malloc (h.capacity + 1) with
  | .error _ => h
  | .ok h' => h'

def deleteFromBucket (key : Bytes) (d : HashData) (h : HashArray) : HashArray :=
  { h with
    buckets := erase HashData.key (bucketOf hashFunc behind h.capacity) h.buckets key
    itemCount := (h.itemCount - 1).bmod (2 ^ 32)
    bytesUsed := h.bytesUsed - d.bytes }

def hashFind (h : HashArray) (key : Bytes) : Option Bytes :=
  (find HashData.key (bucketOf hashFunc behind h.capacity) h.buckets key).map HashData.value

/-- The part of `hash_insert_ex` that makes a new entry. -/
def insertEntry (malloc : Malloc) (key value : Bytes) (h : HashArray) : HashArray × ℤ :=
  let mallocValueSize := if h.isMallocValue then value.length else 0
  let bytes := (calcNodeMallocBytes key.length mallocValueSize).bmod (2 ^ 32)
  if 0 < h.maxBytes ∧ h.maxBytes < h.bytesUsed + bytes then (h, -enospc)
  else if malloc.entry = false then (h, -enomem)
  else
    let h := { h with
      buckets := add HashData.key (bucketOf hashFunc behind h.capacity) h.buckets
        ⟨key, value, mallocValueSize⟩
      itemCount := (h.itemCount + 1).bmod (2 ^ 32)
      bytesUsed := h.bytesUsed + bytes }
    (if overloaded h.itemCount (prime behind h.capacity) then
      h.rehash hashFunc behind malloc.buckets else h, 1)

def FitsInPlace (d : HashData) (value : Bytes) : Prop :=
  value.length ≤ d.mallocValueSize ∧ d.mallocValueSize / 2 < value.length

instance (d : HashData) (value : Bytes) : Decidable (FitsInPlace d value) :=
  inferInstanceAs (Decidable (_ ∧ _))

def hashInsertEx (malloc : Malloc) (key value : Bytes) (h : HashArray) : HashArray × ℤ :=
  let place := bucketOf hashFunc behind h.capacity
  match find HashData.key place h.buckets key with
  | some d =>
    if h.isMallocValue = false ∨ FitsInPlace d value then
      ({ h with buckets := modify HashData.key place h.buckets key fun d => { d with value } }, 0)
    else insertEntry hashFunc overloaded behind malloc key value
      (h.deleteFromBucket hashFunc behind key d)
  | none => insertEntry hashFunc overloaded behind malloc key value h

def hashDelete (key : Bytes) (h : HashArray) : HashArray × ℤ :=
  match find HashData.key (bucketOf hashFunc behind h.capacity) h.buckets key with
  | some d => (h.deleteFromBucket hashFunc behind key d, 0)
  | none => (h, enoent)

end HashArray

end ServerStack.Fastdfs
