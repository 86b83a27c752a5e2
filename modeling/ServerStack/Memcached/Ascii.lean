import ServerStack.Memcached.Conn

/-!
# The text protocol

`process_command` and the handlers of the commands of the text protocol.
-/

namespace ServerStack.Memcached

open Decimal

def realtimeMaxdelta : ℤ := 60 * 60 * 24 * 30

/-- `realtime`, a `rel_time_t`. -/
def realtime (s : Settings) (cache : Cache) (exptime : ℤ) : ℕ :=
  if exptime = 0 then 0
  else if realtimeMaxdelta < exptime then
    if exptime ≤ s.processStarted then 1 else ((exptime - s.processStarted) % 2 ^ 32).toNat
  else ((exptime + cache.currentTime) % 2 ^ 32).toNat

def setNoreplyMaybe (c : Conn) (tokens : Tokens) : Conn :=
  if tokens.values.getLast? = some (ascii "noreply") then { c with noreply := true } else c

def Tokens.get (tokens : Tokens) (i : ℕ) : Bytes := tokens.values.getD i []

def badFormat : Bytes := ascii "CLIENT_ERROR bad command line format"

/-! ## `get` -/

/-- What the loops of `process_get_command` carry along. -/
structure GetState where
  cache : Cache
  got : List ItemId
  -- the suffix buffers that were taken
  suffixes : ℕ
  reply : Bytes
  memory : List GetMemory

inductive KeyResult where
  | next
  -- the loop is left, and entered again at the same key
  | retry
  | badKey
  | noSuffix
  deriving DecidableEq

section

variable (s : Settings) (returnCas : Bool)

def valueReply (it : Item) : Bytes :=
  if returnCas then
    ascii "VALUE " ++ it.key ++ it.suffix.take (it.suffix.length - 2) ++ 32 :: decimal it.cas ++
      crlf ++ it.data
  else ascii "VALUE " ++ it.key ++ it.suffix ++ it.data

def getHit (id : ItemId) (memory : GetMemory) (g : GetState) : GetState × KeyResult :=
  let failed := { g with cache := g.cache.doItemRemove id }
  let stored (suffixes : ℕ) : GetState :=
    { g with
      reply := g.reply ++ ((g.cache.items id).map (valueReply returnCas)).getD []
      cache := g.cache.doItemUpdate id
      suffixes := g.suffixes + suffixes
      got := g.got ++ [id] }
  match memory, returnCas with
  | .noList, _ => (failed, .retry)
  | .noSuffixList, true => (failed, .retry)
  | .noSuffix, true => (failed, .noSuffix)
  -- the suffix was taken before
  | .noIov, true =>
    ({ failed with suffixes := g.suffixes + 1 }, .retry)
  | .noIov, false => (failed, .retry)
  | _, true => (stored 1, .next)
  | _, false => (stored 0, .next)

def getKey (key : Bytes) (g : GetState) : GetState × KeyResult :=
  if keyMaxLength < key.length then (g, .badKey)
  else
    match g.cache.doItemGet s key with
    | (cache, none) => ({ g with cache := cache }, .next)
    | (cache, some id) =>
      getHit returnCas id (g.memory.headD .ok) { g with cache := cache, memory := g.memory.tail }

/-- The inner loop; it ends at the terminal token, or at the key given back. -/
def getTokens : List Bytes → GetState → GetState × KeyResult × Bytes
  | [], g => (g, .next, [])
  | key :: keys, g =>
    match getKey s returnCas key g with
    | (g, .next) => getTokens keys g
    | (g, r) => (g, r, key)

/-- The outer loop: it goes on with the rest of the line, and after a failure with the string of the
key alone, which has a terminator by now. -/
def getLoop : ℕ → List Bytes → Option Bytes → GetState → GetState × KeyResult
  | 0, _, _, g => (g, .next)
  | fuel + 1, keys, rest, g =>
    match getTokens s returnCas keys g with
    | (g, .next, _) =>
      match rest with
      | none => (g, .next)
      | some rest =>
        getLoop fuel (tokenizeCommand rest).values (tokenizeCommand rest).rest g
    | (g, .retry, key) =>
      getLoop fuel (tokenizeCommand key).values (tokenizeCommand key).rest g
    | (g, r, _) => (g, r)

def getFuel (tokens : Tokens) (memory : List GetMemory) : ℕ :=
  (tokens.rest.map List.length).getD 0 + memory.length + 2

def processGetCommand (env : Env) (tokens : Tokens) (cache : Cache) (c : Conn) : Cache × Conn :=
  match getLoop s returnCas (getFuel tokens env.getMemory) tokens.values.tail tokens.rest
      ⟨cache, [], 0, [], env.getMemory⟩ with
  | (g, .badKey) =>
    (g.cache, { c with suffixes := c.suffixes + g.suffixes }.outString badFormat)
  | (g, .noSuffix) =>
    (g.cache, { c with suffixes := c.suffixes + g.suffixes }.outString
      (ascii "SERVER_ERROR out of memory making CAS suffix"))
  | (g, _) =>
    let c := { c with
      ilist := g.got
      suffixes := c.suffixes + g.suffixes
      suffixleft := if returnCas then g.got.length else c.suffixleft }
    if g.memory.headD .ok = .noIov then
      (g.cache, c.outString (ascii "SERVER_ERROR out of memory writing get response"))
    else (g.cache, { c with state := .mwrite, wbuf := g.reply ++ ascii "END" ++ crlf })

end

/-! ## The other commands -/

section

variable (s : Settings) (env : Env) (tokens : Tokens)

def allocError (key : Bytes) (flags vlen : ℤ) : Bytes :=
  if itemSizeOk s key flags vlen then ascii "SERVER_ERROR out of memory storing object"
  else ascii "SERVER_ERROR object too large for cache"

/-- The end of `process_update_command`, with the length that was announced. -/
def updateAlloc (comm : NreadCmd) (flags : ℕ) (exptime vlen : ℤ) (reqCasId : ℕ) (cache : Cache)
    (c : Conn) : Cache × Conn :=
  let key := tokens.get 1
  match cache.itemAlloc s env.memory key ((flags : ℤ).bmod (2 ^ 32)) (realtime s cache exptime)
      vlen with
  | (cache, none) =>
    let c := c.outString (allocError s key ((flags : ℤ).bmod (2 ^ 32)) vlen)
    let c := { c with writeAndGo := .swallow, sbytes := vlen }
    if comm = .set then
      match cache.doItemGet s key with
      | (cache, none) => (cache, c)
      | (cache, some id) => ((cache.doItemUnlink s id).doItemRemove id, c)
    else (cache, c)
  | (cache, some id) =>
    (cache.modify id (Item.setCas s reqCasId), { c with
        item := some id
        ritem := []
        rlbytes := vlen
        cmd := .nread comm
        state := .nread })

def processUpdateCommand (comm : NreadCmd) (handleCas : Bool) (cache : Cache) (c : Conn) :
    Cache × Conn :=
  let c := setNoreplyMaybe c tokens
  if keyMaxLength < (tokens.get 1).length then (cache, c.outString badFormat)
  else
    match safeStrtoul (tokens.get 2), safeStrtol (tokens.get 3), safeStrtol (tokens.get 4),
        if handleCas then safeStrtoull (tokens.get 5) else some 0 with
    | some flags, some exptime, some vlen, some reqCasId =>
      let exptime := if exptime < 0 then realtimeMaxdelta + 1 else exptime
      let vlen := (vlen + 2).bmod (2 ^ 32)
      if vlen < 0 ∨ vlen - 2 < 0 then (cache, c.outString badFormat)
      else updateAlloc s env tokens comm flags exptime vlen reqCasId cache c
    | _, _, _, _ => (cache, c.outString badFormat)

variable (cache : Cache) (c : Conn)

def processTouchCommand : Cache × Conn :=
  let c := setNoreplyMaybe c tokens
  if keyMaxLength < (tokens.get 1).length then (cache, c.outString badFormat)
  else
    match safeStrtol (tokens.get 2) with
    | none => (cache, c.outString (ascii "CLIENT_ERROR invalid exptime argument"))
    | some exptime =>
      match cache.doItemTouch s (tokens.get 1) (realtime s cache exptime) with
      | (cache, some id) =>
        ((cache.doItemUpdate id).doItemRemove id, c.outString (ascii "TOUCHED"))
      | (cache, none) => (cache, c.outString (ascii "NOT_FOUND"))

def processArithmeticCommand (incr : Bool) (cache : Cache) (c : Conn) : Cache × Conn :=
  let c := setNoreplyMaybe c tokens
  if keyMaxLength < (tokens.get 1).length then (cache, c.outString badFormat)
  else
    match safeStrtoull (tokens.get 2) with
    | none => (cache, c.outString (ascii "CLIENT_ERROR invalid numeric delta argument"))
    | some delta =>
      match cache.doAddDelta s env.memory (tokens.get 1) incr delta 0 with
      | (cache, .ok text) => (cache, c.outString text)
      | (cache, .nonNumeric) =>
        (cache, c.outString (ascii "CLIENT_ERROR cannot increment or decrement non-numeric value"))
      | (cache, .eom) => (cache, c.outString (ascii "SERVER_ERROR out of memory"))
      | (cache, .itemNotFound) => (cache, c.outString (ascii "NOT_FOUND"))
      | (cache, .casMismatch) => (cache, c)

def processDeleteCommand : Cache × Conn :=
  let holdIsZero := decide (tokens.get 2 = ascii "0")
  let c := if 3 < tokens.ntokens then setNoreplyMaybe c tokens else c
  let valid := (tokens.ntokens = 4 ∧ (holdIsZero ∨ c.noreply)) ∨
    (tokens.ntokens = 5 ∧ holdIsZero ∧ c.noreply)
  if 3 < tokens.ntokens ∧ ¬ valid then
    (cache, c.outString
      (ascii "CLIENT_ERROR bad command line format.  Usage: delete <key> [noreply]"))
  else if keyMaxLength < (tokens.get 1).length then (cache, c.outString badFormat)
  else
    match cache.doItemGet s (tokens.get 1) with
    | (cache, some id) =>
      ((cache.doItemUnlink s id).doItemRemove id, c.outString (ascii "DELETED"))
    | (cache, none) => (cache, c.outString (ascii "NOT_FOUND"))

/-- The branch of `process_command` for `flush_all`. -/
def processFlushAll : Cache × Conn :=
  let c := setNoreplyMaybe c tokens
  let flush (oldestLive : ℕ) : Cache := { cache with oldestLive := oldestLive }.doItemFlushExpired s
  if tokens.ntokens = (if c.noreply then 3 else 2) then
    (flush (cache.currentTime - 1), c.outString (ascii "OK"))
  else
    match scanNumber (tokens.get 1) with
    | none => (flush (cache.currentTime - 1), c.outString (ascii "OK"))
    | some (negative, n, _) =>
      if 2 ^ 63 ≤ n then (cache, c.outString badFormat)
      else if negative ∨ n = 0 then (flush (cache.currentTime - 1), c.outString (ascii "OK"))
      else (flush (realtime s cache n - 1), c.outString (ascii "OK"))

def processVerbosityCommand : Conn := (setNoreplyMaybe c tokens).outString (ascii "OK")

def processSlabsAutomoveCommand : Conn :=
  let level := ((scanNumber (tokens.get 2)).map fun n => n.2.1).getD 0
  (setNoreplyMaybe c tokens).outString (if level ≤ 2 then ascii "OK" else ascii "ERROR")

/-- The branch of `process_command` for `slabs`, with slab reassignment disabled. -/
def processSlabs : Conn :=
  if tokens.ntokens = 5 ∧ tokens.get 1 = ascii "reassign" then
    c.outString (ascii "CLIENT_ERROR slab reassignment disabled")
  else if tokens.ntokens = 4 ∧ tokens.get 1 = ascii "automove" then
    processSlabsAutomoveCommand tokens c
  else c.outString (ascii "ERROR")

def processStat : Conn :=
  match env.stats with
  | some buf => c.writeAndFree (some buf)
  | none => c.outString (ascii "ERROR")

def storageCommand (command : Bytes) : Option NreadCmd :=
  if command = ascii "add" then some .add
  else if command = ascii "set" then some .set
  else if command = ascii "replace" then some .replace
  else if command = ascii "prepend" then some .prepend
  else if command = ascii "append" then some .append
  else none

/-- The part of `process_command` after the commands with data. -/
def processOther : Cache × Conn :=
  let n := tokens.ntokens
  let command := tokens.get 0
  if (n = 4 ∨ n = 5) ∧ command = ascii "incr" then
    processArithmeticCommand s env tokens true cache c
  else if 3 ≤ n ∧ command = ascii "gets" then processGetCommand s true env tokens cache c
  else if (n = 4 ∨ n = 5) ∧ command = ascii "decr" then
    processArithmeticCommand s env tokens false cache c
  else if 3 ≤ n ∧ n ≤ 5 ∧ command = ascii "delete" then processDeleteCommand s tokens cache c
  else if (n = 4 ∨ n = 5) ∧ command = ascii "touch" then processTouchCommand s tokens cache c
  else if 2 ≤ n ∧ command = ascii "stats" then (cache, processStat env c)
  else if 2 ≤ n ∧ n ≤ 4 ∧ command = ascii "flush_all" then processFlushAll s tokens cache c
  else if n = 2 ∧ command = ascii "version" then (cache, c.outString (ascii "VERSION 1.4.15"))
  else if n = 2 ∧ command = ascii "quit" then (cache, { c with state := .closing })
  else if 1 < n ∧ command = ascii "slabs" then (cache, processSlabs tokens c)
  else if (n = 3 ∨ n = 4) ∧ command = ascii "verbosity" then
    (cache, processVerbosityCommand tokens c)
  else (cache, c.outString (ascii "ERROR"))

def dispatchCommand : Cache × Conn :=
  let n := tokens.ntokens
  let command := tokens.get 0
  if 3 ≤ n ∧ (command = ascii "get" ∨ command = ascii "bget") then
    processGetCommand s false env tokens cache c
  else
    match if n = 6 ∨ n = 7 then storageCommand command else none with
    | some comm => processUpdateCommand s env tokens comm false cache c
    | none =>
      if (n = 7 ∨ n = 8) ∧ command = ascii "cas" then
        processUpdateCommand s env tokens .cas true cache c
      else processOther s env tokens cache c

end

def processCommand (s : Settings) (env : Env) (command : Bytes) (cache : Cache) (c : Conn) :
    Cache × Conn :=
  dispatchCommand s env (tokenizeCommand (cString command)) cache
    { c with commands := c.commands ++ [command] }

/-! ## The end of a storage command -/

def storeReply : StoreItemType → Bytes
  | .stored => ascii "STORED"
  | .exists => ascii "EXISTS"
  | .notFound => ascii "NOT_FOUND"
  | .notStored => ascii "NOT_STORED"

def completeNreadAscii (s : Settings) (env : Env) (cache : Cache) (c : Conn) : Cache × Conn :=
  match c.item, c.cmd with
  | some id, .nread comm =>
    let cache := cache.modify id fun it => { it with data := c.ritem }
    let (cache, c) :=
      if c.ritem.drop (c.ritem.length - 2) ≠ crlf then
        (cache, c.outString (ascii "CLIENT_ERROR bad data chunk"))
      else
        let (cache, ret) := cache.doStoreItem s env.memory comm id
        (cache, c.outString (storeReply ret))
    (cache.doItemRemove id, { c with item := none })
  | _, _ => (cache, c)

end ServerStack.Memcached
