import ServerStack.Memcached.Assoc

/-!
# Items

The operations of `items.c` on the items of the cache: allocation, linking into the hash table and
the queues, and the reference counts that decide when a chunk is returned.
-/

namespace ServerStack.Memcached

open Decimal

/-- The settings that the items and the connections read. -/
structure Settings where
  useCas : Bool
  evictToFree : Bool
  sasl : Bool
  -- chunk sizes of the slab classes, from `POWER_SMALLEST` on
  slabSizes : List ℕ
  hash : Bytes → ℕ
  processStarted : ℤ

structure Item where
  key : Bytes
  suffix : Bytes
  nbytes : ℤ
  data : Bytes
  exptime : ℕ
  time : ℕ
  refcount : ℕ
  linked : Bool
  fetched : Bool
  cas : ℕ
  slabsClsid : ℕ
  deriving DecidableEq

/-- The state that all connections share.  A chunk that was returned is not named any more. -/
structure Cache where
  items : ItemId → Option Item
  nextItem : ItemId
  assoc : Assoc
  -- from the head to the tail
  lru : ℕ → List ItemId
  currItems : ℕ
  currBytes : ℕ
  casId : ℕ
  currentTime : ℕ
  oldestLive : ℕ

/-- An empty cache, with the default size of the hash table. -/
def Cache.init (currentTime : ℕ) : Cache where
  items _ := none
  nextItem := 0
  assoc := Assoc.init 16
  lru _ := []
  currItems := 0
  currBytes := 0
  casId := 0
  currentTime := currentTime
  oldestLive := 0

structure Memory where
  -- `slabs_alloc` has a chunk
  slabsAlloc : Bool
  -- `item_trylock` gets the lock of an item
  trylock : ItemId → Bool

namespace Item

def sizeofItem : ℕ := 48

/-- `ITEM_ntotal`, a `size_t`. -/
def ntotal (s : Settings) (it : Item) : ℕ :=
  ((sizeofItem + it.key.length + 1 + it.suffix.length + (if s.useCas then 8 else 0) : ℤ) +
    it.nbytes) % 2 ^ 64 |>.toNat

def setCas (s : Settings) (cas : ℕ) (it : Item) : Item :=
  if s.useCas then { it with cas := cas } else it

end Item

/-- `refcount_incr`, on an `unsigned short`. -/
def refcountIncr (it : Item) : Item := { it with refcount := (it.refcount + 1) % 2 ^ 16 }

def refcountDecr (it : Item) : Item := { it with refcount := (it.refcount + (2 ^ 16 - 1)) % 2 ^ 16 }

namespace Cache

variable (s : Settings) (c : Cache) (id : ItemId)

def setItem (it : Option Item) : Cache :=
  { c with items := Function.update c.items id it }

def modify (f : Item → Item) : Cache := c.setItem id ((c.items id).map f)

def keyOf : Bytes := ((c.items id).map Item.key).getD []

/-! ## References and queues -/

/-- `do_item_remove`, with `item_free`. -/
def doItemRemove : Cache :=
  match c.items id with
  | none => c
  | some it =>
    if (refcountDecr it).refcount = 0 then c.setItem id none
    else c.setItem id (some (refcountDecr it))

/-- `item_link_q`: the item is the new head. -/
def itemLinkQ (clsid : ℕ) : Cache :=
  { c with lru := Function.update c.lru clsid (id :: c.lru clsid) }

def itemUnlinkQ (clsid : ℕ) : Cache :=
  { c with lru := Function.update c.lru clsid ((c.lru clsid).erase id) }

/-- `get_cas_id`. -/
def nextCas : ℕ := (c.casId + 1) % 2 ^ 64

def linkedItem (it : Item) : Item :=
  refcountIncr (Item.setCas s c.nextCas { it with linked := true, time := c.currentTime })

def doItemLink : Cache :=
  match c.items id with
  | none => c
  | some it =>
    let linked := c.linkedItem s it
    let c := { c with
      currBytes := (c.currBytes + it.ntotal s) % 2 ^ 64
      currItems := (c.currItems + 1) % 2 ^ 32
      casId := if s.useCas then c.nextCas else c.casId
      assoc := c.assoc.insert id (s.hash it.key) }
    (c.itemLinkQ id it.slabsClsid).setItem id (some linked)

def unlinkItem (it : Item) : Cache :=
  let assoc := c.assoc.delete c.keyOf it.key (s.hash it.key)
  let c := { c with
    currBytes := (c.currBytes + (2 ^ 64 - it.ntotal s)) % 2 ^ 64
    currItems := (c.currItems + (2 ^ 32 - 1)) % 2 ^ 32
    assoc := assoc }
  (c.itemUnlinkQ id it.slabsClsid).setItem id (some { it with linked := false })

/-- `do_item_unlink` and `do_item_unlink_nolock`. -/
def doItemUnlink : Cache :=
  match c.items id with
  | none => c
  | some it => if it.linked then (c.unlinkItem s id it).doItemRemove id else c

def itemUpdateInterval : ℕ := 60

/-- `do_item_update`; the subtraction is on an `unsigned int`. -/
def doItemUpdate : Cache :=
  match c.items id with
  | none => c
  | some it =>
    if it.time < (c.currentTime + (2 ^ 32 - itemUpdateInterval)) % 2 ^ 32 ∧ it.linked then
      ((c.itemUnlinkQ id it.slabsClsid).setItem id
        (some { it with time := c.currentTime })).itemLinkQ id it.slabsClsid
    else c

def doItemReplace (id newId : ItemId) : Cache := (c.doItemUnlink s id).doItemLink s newId

/-! ## Lookup -/

def nuked (it : Item) : Bool :=
  (decide (c.oldestLive ≠ 0) && decide (c.oldestLive ≤ c.currentTime) &&
    decide (it.time ≤ c.oldestLive)) ||
  (decide (it.exptime ≠ 0) && decide (it.exptime ≤ c.currentTime))

/-- `do_item_get`: a hit takes a reference. -/
def doItemGet (key : Bytes) : Cache × Option ItemId :=
  match c.assoc.find c.keyOf key (s.hash key) with
  | none => (c, none)
  | some id =>
    let referenced := c.modify id refcountIncr
    match c.items id with
    | none => (c, none)
    | some it =>
      if c.nuked it then ((referenced.doItemUnlink s id).doItemRemove id, none)
      else (referenced.modify id fun it => { it with fetched := true }, some id)

def doItemTouch (key : Bytes) (exptime : ℕ) : Cache × Option ItemId :=
  match c.doItemGet s key with
  | (c, none) => (c, none)
  | (c, some id) => (c.modify id fun it => { it with exptime := exptime }, some id)

/-- One queue of `do_item_flush_expired`: the items that were linked since. -/
def flushQueue (c : Cache) (clsid : ℕ) : Cache :=
  ((c.lru clsid).takeWhile fun id =>
    ((c.items id).map Item.time).any fun time => decide (c.oldestLive ≤ time)).foldl
      (fun c id => c.doItemUnlink s id) c

def largestId : ℕ := 200

def doItemFlushExpired : Cache :=
  if c.oldestLive = 0 then c else (List.range largestId).foldl (flushQueue s) c

end Cache

/-! ## Allocation -/

/-- `slabs_clsid`: the first class with large enough chunks, 0 if there is none. -/
def slabsClsid (s : Settings) (size : ℕ) : ℕ :=
  if size = 0 then 0
  else
    match s.slabSizes.findIdx? fun chunk => decide (size ≤ chunk) with
    | none => 0
    | some i => i + 1

/-- The suffix that `item_make_header` prints. -/
def itemSuffix (flags nbytes : ℤ) : Bytes :=
  32 :: decimalInt flags ++ 32 :: decimalInt (nbytes - 2) ++ crlf

/-- An item as `do_item_alloc` initialises it. -/
def newItem (key : Bytes) (flags : ℤ) (exptime : ℕ) (nbytes : ℤ) : Item where
  key := key
  suffix := itemSuffix flags nbytes
  nbytes := nbytes
  data := []
  exptime := exptime
  time := 0
  refcount := 1
  linked := false
  fetched := false
  cas := 0
  slabsClsid := 0

def itemClsid (s : Settings) (key : Bytes) (flags : ℤ) (nbytes : ℤ) : ℕ :=
  slabsClsid s ((newItem key flags 0 nbytes).ntotal s)

def itemSizeOk (s : Settings) (key : Bytes) (flags : ℤ) (nbytes : ℤ) : Bool :=
  decide (itemClsid s key flags nbytes ≠ 0)

inductive TailSearch where
  -- the queue ended, or five items were tried
  | exhausted
  -- a chunk was found, or the one of an item of the queue taken
  | chunk
  | outOfMemory

namespace Cache

def tailRepairTime : ℕ := 3 * 3600

variable (s : Settings) (m : Memory)

/-- The loop of `do_item_alloc` over the queue, from its tail. -/
def tailSearch (curHv : ℕ) : ℕ → List ItemId → Cache → Cache × TailSearch
  | 0, _, c => (c, .exhausted)
  | _ + 1, [], c => (c, .exhausted)
  | tries + 1, search :: rest, c =>
    match c.items search with
    | none => (c, .exhausted)
    | some it =>
      if s.hash it.key ≠ curHv ∧ m.trylock search = false then tailSearch curHv tries rest c
      else if (refcountIncr it).refcount ≠ 2 then
        if it.time + tailRepairTime < c.currentTime then
          -- the reference count is lost; returning the chunk ends the walk
          ((c.modify search fun it => { it with refcount := 1 }).doItemUnlink s search, .exhausted)
        else tailSearch curHv tries rest c
      else
        let reclaimed := ((c.modify search refcountIncr).doItemUnlink s search).setItem search none
        if (it.exptime ≠ 0 ∧ it.exptime < c.currentTime) ∨
            (it.time ≤ c.oldestLive ∧ c.oldestLive ≤ c.currentTime) then (reclaimed, .chunk)
        else if m.slabsAlloc then (c, .chunk)
        else if s.evictToFree then (reclaimed, .chunk)
        else (c, .outOfMemory)

/-- `do_item_alloc`: the caller has a reference to the new item. -/
def doItemAlloc (key : Bytes) (flags : ℤ) (exptime : ℕ) (nbytes : ℤ) (curHv : ℕ) (c : Cache) :
    Cache × Option ItemId :=
  let clsid := itemClsid s key flags nbytes
  if clsid = 0 then (c, none)
  else
    let create (c : Cache) : Cache × Option ItemId :=
      ({ c with nextItem := c.nextItem + 1 }.setItem c.nextItem
        (some { newItem key flags exptime nbytes with slabsClsid := clsid }), some c.nextItem)
    match tailSearch s m curHv 5 (c.lru clsid).reverse c with
    | (c, .exhausted) => if m.slabsAlloc then create c else (c, none)
    | (c, .chunk) => create c
    | (c, .outOfMemory) => (c, none)

def itemAlloc (key : Bytes) (flags : ℤ) (exptime : ℕ) (nbytes : ℤ) (c : Cache) :
    Cache × Option ItemId :=
  doItemAlloc s m key flags exptime nbytes 0 c

end Cache

end ServerStack.Memcached
