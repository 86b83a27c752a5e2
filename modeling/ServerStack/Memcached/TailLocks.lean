import ServerStack.Memcached.Items

/-!
# Item locks during an allocation

`do_item_alloc` looks at items from the tail of a queue and takes the lock of each one, unless it is
the lock of `cur_hv`, which the caller has.  The locks that it takes and releases are a list of
events; the variable `hold_lock` keeps its value from one item to the next.
-/

namespace ServerStack.Memcached

inductive LockEvent where
  | acquired (lock : ℕ)
  | released (lock : ℕ)
  deriving DecidableEq

/-- The locks held after the events; `none` when one is released that is not held. -/
def holding : List ℕ → List LockEvent → Option (List ℕ)
  | held, [] => some held
  | held, .acquired lock :: events => holding (lock :: held) events
  | held, .released lock :: events =>
    if lock ∈ held then holding (held.erase lock) events else none

/-- The index in `item_locks`. -/
def itemLock (hashpower itemLockCount hv : ℕ) : ℕ := hv % 2 ^ hashpower % itemLockCount

/-- `if (hold_lock) item_trylock_unlock(hold_lock)`. -/
def unlockEvents : Option ℕ → List LockEvent
  | none => []
  | some lock => [.released lock]

namespace Cache

variable (s : Settings) (m : Memory) (lock : ℕ → ℕ) (c : Cache)

/-- The item is referenced, and too young for a tail repair. -/
def Busy (it : Item) : Prop :=
  (refcountIncr it).refcount ≠ 2 ∧ ¬ it.time + tailRepairTime < c.currentTime

instance (it : Item) : Decidable (c.Busy it) := inferInstanceAs (Decidable (_ ∧ _))

/-- The lock operations of the loop `tailSearch`. -/
def tailLocks (curHv : ℕ) : ℕ → List ItemId → Option ℕ → List LockEvent
  | 0, _, _ => []
  | _ + 1, [], _ => []
  | tries + 1, search :: rest, holdLock =>
    match c.items search with
    | none => []
    | some it =>
      let examined (holdLock : Option ℕ) : List LockEvent :=
        unlockEvents holdLock ++ if c.Busy it then tailLocks curHv tries rest holdLock else []
      let hv := s.hash it.key
      if hv ≠ curHv then
        if m.trylock search then .acquired (lock hv) :: examined (some (lock hv))
        else tailLocks curHv tries rest none
      else examined holdLock

/-- The lock operations of `do_item_alloc`. -/
def itemAllocLocks (key : Bytes) (flags nbytes : ℤ) (curHv : ℕ) : List LockEvent :=
  let clsid := itemClsid s key flags nbytes
  if clsid = 0 then [] else tailLocks s m lock c curHv 5 (c.lru clsid).reverse none

/-- The loop goes on after item `a`. -/
def Passed (curHv : ℕ) (a : ItemId) : Prop :=
  ∃ it ∈ c.items a, s.hash it.key ≠ curHv ∧ m.trylock a = false ∨ c.Busy it

/-- The lock of item `a` is taken, `a` turns out to be referenced, and `b` has the hash value
`cur_hv`: when `b` follows `a`, `hold_lock` still has the lock of `a`. -/
def Stale (curHv : ℕ) (a b : ItemId) : Prop :=
  ∃ it ∈ c.items a, ∃ it' ∈ c.items b, s.hash it.key ≠ curHv ∧ m.trylock a = true ∧
    c.Busy it ∧ s.hash it'.key = curHv

/-- The loop reaches such a pair. -/
def StaleReached (curHv : ℕ) : List ItemId → Prop
  | a :: b :: rest => Stale s m c curHv a b ∨ Passed s m c curHv a ∧ StaleReached curHv (b :: rest)
  | _ => False

variable {s m lock c} {curHv : ℕ}

theorem staleReached_cons {a : ItemId} {rest : List ItemId} {it : Item}
    (hit : c.items a = some it) : StaleReached s m c curHv (a :: rest) ↔
      (s.hash it.key ≠ curHv ∧ m.trylock a = true ∧ c.Busy it ∧
        ∃ b ∈ rest.head?, ∃ it' ∈ c.items b, s.hash it'.key = curHv) ∨
      (s.hash it.key ≠ curHv ∧ m.trylock a = false ∨ c.Busy it) ∧
        StaleReached s m c curHv rest := by
  cases rest with
  | nil => simp [StaleReached]
  | cons b rest =>
    have hstale : Stale s m c curHv a b ↔ s.hash it.key ≠ curHv ∧ m.trylock a = true ∧ c.Busy it ∧
        ∃ it' ∈ c.items b, s.hash it'.key = curHv := by
      simp only [Stale, hit, Option.mem_some_iff, exists_eq_left']
      tauto
    rw [StaleReached, hstale]
    simp [Passed, hit]

/-- With a lock left in `hold_lock`, the next item with the hash value `cur_hv` releases it again. -/
theorem holding_tailLocks {tries : ℕ} {queue : List ItemId} {holdLock : Option ℕ} :
    holding [] (tailLocks s m lock c curHv tries queue holdLock) = some [] ↔
      ¬ (holdLock ≠ none ∧ ∃ b ∈ (queue.take tries).head?, ∃ it' ∈ c.items b,
        s.hash it'.key = curHv) ∧ ¬ StaleReached s m c curHv (queue.take tries) := by
  induction tries generalizing queue holdLock with
  | zero => simp [tailLocks, holding, StaleReached]
  | succ tries ih =>
    cases queue with
    | nil => simp [tailLocks, holding, StaleReached]
    | cons search rest =>
      rw [List.take_succ_cons, tailLocks]
      cases hit : c.items search with
      | none =>
        cases hrest : rest.take tries <;> simp [holding, StaleReached, Stale, Passed, hit]
      | some it =>
        rw [staleReached_cons hit]
        by_cases hhv : s.hash it.key = curHv
        · cases holdLock with
          | none =>
            by_cases hbusy : c.Busy it <;>
              simp [hhv, hbusy, unlockEvents, ih, holding]
          | some held => simp [hhv, hit, unlockEvents, holding]
        · by_cases hlock : m.trylock search = true
          · by_cases hbusy : c.Busy it <;>
              simp [hhv, hlock, hbusy, unlockEvents, ih, holding, hit]
          · simp [hhv, hlock, ih, hit]

/-- A server with one slab class, where the hash value of a key is its length. -/
def lengthHash : Settings := ⟨true, true, false, [1024], List.length, 0⟩

def busyTail : Cache :=
  (({ init 0 with lru := fun _ => [1, 0] }).setItem 0
    (some { newItem [97] 0 0 2 with refcount := 2 })).setItem 1 (some (newItem [97, 97] 0 0 2))

end Cache

end ServerStack.Memcached
