import ServerStack.Memcached.Items

/-!
# Storing items

`do_store_item` serves all storage commands; `do_add_delta` serves `incr` and `decr`.
-/

namespace ServerStack.Memcached

open Decimal

inductive NreadCmd where
  | add
  | set
  | replace
  | append
  | prepend
  | cas
  deriving DecidableEq, Repr

inductive StoreItemType where
  | notStored
  | stored
  | exists
  | notFound
  deriving DecidableEq, Repr

/-- `delta_result_type`, with the text of the new value. -/
inductive DeltaResult where
  | ok (text : Bytes)
  | nonNumeric
  | eom
  | itemNotFound
  | casMismatch
  deriving DecidableEq, Repr

/-- The data of the item that `append` and `prepend` make. -/
def joinData (comm : NreadCmd) (old new : Item) : Bytes :=
  if comm = .append then old.data.take (old.nbytes - 2).toNat ++ new.data
  else new.data.take (new.nbytes - 2).toNat ++ old.data

def suffixFlags (it : Item) : ℤ :=
  match scanNumber it.suffix with
  | none => 0
  | some (negative, n, _) => Int.bmod (if negative then -n else n) (2 ^ 32)

namespace Cache

variable (s : Settings) (m : Memory)

/-- The part of `do_store_item` for `append` and `prepend` of an item that exists: the combined item,
or none if it cannot be allocated. -/
def combine (comm : NreadCmd) (oldId : ItemId) (old it : Item) (c : Cache) :
    Cache × Option ItemId :=
  match doItemAlloc s m it.key (suffixFlags old) old.exptime (it.nbytes + old.nbytes - 2)
      (s.hash it.key) c with
  | (c, none) => (c.doItemRemove oldId, none)
  | (c, some newId) =>
    (((c.modify newId fun new => { new with data := joinData comm old it }).doItemReplace s oldId
      newId |>.doItemRemove oldId).doItemRemove newId, some newId)

def doStoreItem (comm : NreadCmd) (id : ItemId) (c : Cache) : Cache × StoreItemType :=
  match c.items id with
  | none => (c, .notStored)
  | some it =>
    match c.doItemGet s it.key with
    | (c, none) =>
      match comm with
      | .replace | .append | .prepend => (c, .notStored)
      | .cas => (c, .notFound)
      | .add | .set => (c.doItemLink s id, .stored)
    | (c, some oldId) =>
      match c.items oldId with
      | none => (c, .notStored)
      | some old =>
        match comm with
        | .add => ((c.doItemUpdate oldId).doItemRemove oldId, .notStored)
        | .cas =>
          if it.cas = old.cas then ((c.doItemReplace s oldId id).doItemRemove oldId, .stored)
          else (c.doItemRemove oldId, .exists)
        | .append | .prepend =>
          if it.cas ≠ 0 ∧ it.cas ≠ old.cas then (c.doItemRemove oldId, .exists)
          else
            match combine s m comm oldId old it c with
            | (c, none) => (c, .notStored)
            | (c, some _) => (c, .stored)
        | .set | .replace => ((c.doItemReplace s oldId id).doItemRemove oldId, .stored)

/-- The new value of `incr` and `decr`. -/
def applyDelta (incr : Bool) (delta value : ℕ) : ℕ :=
  if incr then (value + delta) % 2 ^ 64 else value - delta

/-- The part of `do_add_delta` for a value that does not fit: the item is replaced. -/
def deltaReplace (key : Bytes) (id : ItemId) (it : Item) (buf : Bytes) (c : Cache) :
    Cache × DeltaResult :=
  match doItemAlloc s m it.key (suffixFlags it) it.exptime (buf.length + 2) (s.hash key) c with
  | (c, none) => (c.doItemRemove id, .eom)
  | (c, some newId) =>
    let c := (c.modify newId fun new => { new with data := buf ++ crlf }).doItemReplace s id newId
    let c := c.modify id (Item.setCas s (((c.items newId).map Item.cas).getD 0))
    ((c.doItemRemove newId).doItemRemove id, .ok buf)

/-- The part of `do_add_delta` that writes into the item. -/
def deltaInPlace (id : ItemId) (buf : Bytes) (c : Cache) : Cache :=
  let casId := if s.useCas then c.nextCas else c.casId
  let c := { c with casId := casId }.modify id fun it =>
    { it.setCas s casId with
      data := buf ++ List.replicate (it.nbytes - buf.length - 2).toNat 32 ++ crlf }
  (c.doItemUpdate id).doItemRemove id

/-- `do_add_delta`; a null `cas` is 0. -/
def doAddDelta (key : Bytes) (incr : Bool) (delta cas : ℕ) (c : Cache) : Cache × DeltaResult :=
  match c.doItemGet s key with
  | (c, none) => (c, .itemNotFound)
  | (c, some id) =>
    match c.items id with
    | none => (c, .itemNotFound)
    | some it =>
      if cas ≠ 0 ∧ it.cas ≠ cas then (c.doItemRemove id, .casMismatch)
      else
        match safeStrtoull (cString it.data) with
        | none => (c.doItemRemove id, .nonNumeric)
        | some value =>
          let buf := decimal (applyDelta incr delta value)
          if it.nbytes < buf.length + 2 ∨ it.refcount ≠ 1 then deltaReplace s m key id it buf c
          else (deltaInPlace s id buf c, .ok buf)

end Cache

end ServerStack.Memcached
