import ServerStack.Memcached.Ascii

/-!
# The binary protocol

`dispatch_bin_command`, the stages in which the rest of a request is read, and the handlers.  Of a
reply only the state that it leaves the connection in is modelled.
-/

namespace ServerStack.Memcached

open Endian

/-- The opcode of a request, with the quiet variants taken together with the others; the flag says
that it was a quiet one. -/
def decodeOpcode (b : UInt8) : Opcode × Bool :=
  match b.toNat with
  | 0x00 => (.get, false)
  | 0x01 => (.set, false)
  | 0x02 => (.add, false)
  | 0x03 => (.replace, false)
  | 0x04 => (.delete, false)
  | 0x05 => (.increment, false)
  | 0x06 => (.decrement, false)
  | 0x07 => (.quit, false)
  | 0x08 => (.flush, false)
  | 0x09 => (.get, true)
  | 0x0a => (.noop, false)
  | 0x0b => (.version, false)
  | 0x0c => (.getk, false)
  | 0x0d => (.getk, true)
  | 0x0e => (.append, false)
  | 0x0f => (.prepend, false)
  | 0x10 => (.stat, false)
  | 0x11 => (.set, true)
  | 0x12 => (.add, true)
  | 0x13 => (.replace, true)
  | 0x14 => (.delete, true)
  | 0x15 => (.increment, true)
  | 0x16 => (.decrement, true)
  | 0x17 => (.quit, true)
  | 0x18 => (.flush, true)
  | 0x19 => (.append, true)
  | 0x1a => (.prepend, true)
  | 0x1c => (.touch, false)
  | 0x1d => (.gat, false)
  | 0x1e => (.gat, true)
  | 0x20 => (.saslListMechs, false)
  | 0x21 => (.saslAuth, false)
  | 0x22 => (.saslStep, false)
  | 0x23 => (.gatk, false)
  | 0x24 => (.gat, true)
  | _ => (.unknown, false)

/-- `sizeof(protocol_binary_request_header)`. -/
def sizeofHeader : ℕ := 24

def readHeader (buf : Bytes) : BinaryHeader where
  magic := buf.headD 0
  opcode := buf.getD 1 0
  keylen := ofBigEndian ((buf.drop 2).take 2)
  extlen := (buf.getD 4 0).toNat
  bodylen := ofBigEndian ((buf.drop 8).take 4)
  cas := ofBigEndian ((buf.drop 16).take 8)

namespace Conn

variable (c : Conn)

def writeBinError (swallow : ℤ) : Conn :=
  if 0 < swallow then
    { c with state := .mwrite, sbytes := swallow, writeAndGo := .swallow }
  else { c with state := .mwrite, writeAndGo := .newCmd }

def writeBinResponse : Conn :=
  if c.noreply = false ∨ c.cmd = .opcode .get ∨ c.cmd = .opcode .getk then
    { c with state := .mwrite, writeAndGo := .newCmd }
  else { c with state := .newCmd }

def handleBinaryProtocolError : Conn :=
  { c.writeBinError 0 with writeAndGo := .closing }

/-- `bin_read_key`; a key and its extras always fit into the buffer. -/
def binReadKey (substate : BinSubstate) (extra : ℕ) : Conn :=
  { c with
    substate := substate
    rlbytes := c.header.keylen + extra
    ritem := []
    state := .nread }

def binaryKey : Bytes := c.ritem.drop (c.ritem.length - c.header.keylen)

/-- The value length that `process_bin_update` computes in an `int`. -/
def updateVlen : ℤ :=
  ((c.header.bodylen : ℤ) - (c.header.keylen + c.header.extlen)).bmod (2 ^ 32)

/-- The value length that `process_bin_append_prepend` and `process_bin_sasl_auth` compute. -/
def appendVlen : ℤ := ((c.header.bodylen : ℤ) - c.header.keylen).bmod (2 ^ 32)

/-- The branch of `dispatch_bin_command` for a request whose lengths are as they should be. -/
def readKeyOr (ok : Prop) [Decidable ok] (substate : BinSubstate) (extra : ℕ) : Conn :=
  if ok then c.binReadKey substate extra else c.handleBinaryProtocolError

def authExempt : Opcode → Bool
  | .saslListMechs | .saslAuth | .saslStep | .version => true
  | _ => false

/-- The second switch of `dispatch_bin_command`. -/
def dispatchOpcode (s : Settings) (op : Opcode) (c : Conn) : Conn :=
  let extlen := c.header.extlen
  let keylen := c.header.keylen
  let bodylen := c.header.bodylen
  match op with
  | .version | .noop =>
    if extlen = 0 ∧ keylen = 0 ∧ bodylen = 0 then c.writeBinResponse
    else c.handleBinaryProtocolError
  | .flush =>
    c.readKeyOr (keylen = 0 ∧ bodylen = extlen ∧ (extlen = 0 ∨ extlen = 4)) .readFlushExptime extlen
  | .set | .add | .replace =>
    c.readKeyOr (extlen = 8 ∧ keylen ≠ 0 ∧ keylen + 8 ≤ bodylen) .readingSetHeader 8
  | .get | .getk => c.readKeyOr (extlen = 0 ∧ bodylen = keylen ∧ 0 < keylen) .readingGetKey 0
  | .delete => c.readKeyOr (0 < keylen ∧ extlen = 0 ∧ bodylen = keylen) .readingDelHeader extlen
  | .increment | .decrement =>
    c.readKeyOr (0 < keylen ∧ extlen = 20 ∧ bodylen = keylen + extlen) .readingIncrHeader 20
  | .append | .prepend => c.readKeyOr (0 < keylen ∧ extlen = 0) .readingSetHeader 0
  | .stat => c.readKeyOr (extlen = 0) .readingStat 0
  | .quit =>
    if keylen = 0 ∧ extlen = 0 ∧ bodylen = 0 then
      let c := { c.writeBinResponse with writeAndGo := .closing }
      if c.noreply then { c with state := .closing } else c
    else c.handleBinaryProtocolError
  | .saslListMechs =>
    if extlen = 0 ∧ keylen = 0 ∧ bodylen = 0 then
      if s.sasl then c.writeBinResponse else c.writeBinError ((bodylen : ℤ) - keylen)
    else c.handleBinaryProtocolError
  | .saslAuth | .saslStep => c.readKeyOr (extlen = 0 ∧ keylen ≠ 0) .readingSaslAuth 0
  | .touch | .gat | .gatk => c.readKeyOr (extlen = 4 ∧ keylen ≠ 0) .readingTouchKey 4
  | .unknown => c.writeBinError ((bodylen : ℤ).bmod (2 ^ 32))

def dispatchBinCommand (s : Settings) (env : Env) (c : Conn) : Conn :=
  let (op, quiet) := decodeOpcode c.header.opcode
  if s.sasl ∧ authExempt op = false ∧ env.authenticated = false then
    { c.writeBinError 0 with writeAndGo := .closing }
  else if keyMaxLength < c.header.keylen then
    ({ c with noreply := true }).handleBinaryProtocolError
  else dispatchOpcode s op { c with noreply := quiet, cmd := .opcode op }

end Conn

/-! ## The handlers -/

variable (s : Settings) (env : Env)

def nreadCmd (op : Cmd) (cas : ℕ) : Cmd :=
  match op with
  | .opcode .append => .nread .append
  | .opcode .prepend => .nread .prepend
  | .opcode op =>
    if cas ≠ 0 then .nread .cas
    else
      match op with
      | .add => .nread .add
      | .replace => .nread .replace
      | _ => .nread .set
  | cmd => cmd

/-- The common part of `process_bin_update` and `process_bin_append_prepend`. -/
def binAlloc (flags : ℤ) (exptime : ℕ) (vlen : ℤ) (cache : Cache) (c : Conn) : Cache × Conn :=
  match cache.itemAlloc s env.memory c.binaryKey flags exptime ((vlen + 2).bmod (2 ^ 32)) with
  | (cache, none) =>
    let c' := { c.writeBinError vlen with writeAndGo := .swallow }
    if c.cmd = .opcode .set then
      match cache.doItemGet s c.binaryKey with
      | (cache, none) => (cache, c')
      | (cache, some id) => ((cache.doItemUnlink s id).doItemRemove id, c')
    else (cache, c')
  | (cache, some id) =>
    let cas := if s.useCas then c.header.cas else 0
    (cache.modify id (Item.setCas s c.header.cas), { c with
        cmd := nreadCmd c.cmd cas
        item := some id
        ritem := []
        rlbytes := vlen
        state := .nread
        substate := .readSetValue })

variable (cache : Cache) (c : Conn)

def processBinUpdate : Cache × Conn :=
  let flags : ℤ := (ofBigEndian (c.ritem.take 4) : ℤ).bmod (2 ^ 32)
  let exptime := realtime s cache (ofBigEndian ((c.ritem.drop 4).take 4))
  binAlloc s env flags exptime c.updateVlen cache c

def processBinAppendPrepend : Cache × Conn :=
  binAlloc s env 0 0 c.appendVlen cache c

/-- `complete_update_bin`; the trailing two bytes are not received. -/
def completeUpdateBin : Cache × Conn :=
  match c.item, c.cmd with
  | some id, .nread comm =>
    let cache := cache.modify id fun it => { it with data := c.ritem ++ crlf }
    let (cache, ret) := cache.doStoreItem s env.memory comm id
    let c := if ret = .stored then c.writeBinResponse else c.writeBinError 0
    (cache.doItemRemove id, { c with item := none })
  | _, _ => (cache, c)

/-- The reply to a lookup: a hit keeps its reference in the connection. -/
def lookupReply (found : Cache × Option ItemId) (c : Conn) : Cache × Conn :=
  match found with
  | (cache, some id) =>
    (cache.doItemUpdate id, { c with state := .mwrite, writeAndGo := .newCmd, item := some id })
  | (cache, none) =>
    (cache, if c.noreply then { c with state := .newCmd } else c.writeBinError 0)

def processBinGet : Cache × Conn :=
  lookupReply (cache.doItemGet s c.binaryKey) c

def processBinTouch : Cache × Conn :=
  lookupReply (cache.doItemTouch s c.binaryKey (realtime s cache (ofBigEndian (c.ritem.take 4)))) c

def processBinStat : Conn :=
  match env.stats with
  | some buf => c.writeAndFree (some buf)
  | none => c.writeBinError 0

def processBinDelete : Cache × Conn :=
  match cache.doItemGet s c.binaryKey with
  | (cache, some id) =>
    let cas := ((cache.items id).map Item.cas).getD 0
    if c.header.cas = 0 ∨ c.header.cas = cas then
      ((cache.doItemUnlink s id).doItemRemove id, c.writeBinResponse)
    else (cache.doItemRemove id, c.writeBinError 0)
  | (cache, none) => (cache, c.writeBinError 0)

def incrMaxStorageLen : ℕ := 24

/-- The branch of `complete_incr_bin` for a counter that does not exist. -/
def incrCreate (initial : ℕ) (expiration : ℕ) (cache : Cache) (c : Conn) : Cache × Conn :=
  match cache.itemAlloc s env.memory c.binaryKey 0 (realtime s cache expiration)
      incrMaxStorageLen with
  | (cache, none) => (cache, c.writeBinError 0)
  | (cache, some id) =>
    let cache := cache.modify id fun it => { it with data := Decimal.decimal initial }
    let (cache, ret) := cache.doStoreItem s env.memory .add id
    (cache.doItemRemove id, if ret = .notStored then c.writeBinError 0 else c.writeBinResponse)

def completeIncrBin : Cache × Conn :=
  let delta := ofBigEndian (c.ritem.take 8)
  let initial := ofBigEndian ((c.ritem.drop 8).take 8)
  let expiration := ofBigEndian ((c.ritem.drop 16).take 4)
  match cache.doAddDelta s env.memory c.binaryKey (c.cmd = .opcode .increment) delta
      c.header.cas with
  | (cache, .ok _) => (cache, c.writeBinResponse)
  | (cache, .itemNotFound) =>
    if expiration ≠ 0xffffffff then incrCreate s env initial expiration cache c
    else (cache, c.writeBinError 0)
  | (cache, _) => (cache, c.writeBinError 0)

def processBinFlush : Cache × Conn :=
  let exptime := if c.header.extlen = 4 then ofBigEndian (c.ritem.take 4) else 0
  let oldestLive := if 0 < exptime then realtime s cache exptime - 1 else cache.currentTime - 1
  ({ cache with oldestLive := oldestLive }.doItemFlushExpired s, c.writeBinResponse)

def maxSaslMechLen : ℕ := 32

def processBinSaslAuth : Cache × Conn :=
  if s.sasl = false then (cache, c.writeBinError c.appendVlen)
  else if maxSaslMechLen < c.header.keylen then
    (cache, { c.writeBinError c.appendVlen with writeAndGo := .swallow })
  else
    match cache.itemAlloc s env.memory c.binaryKey 0 0 c.appendVlen with
    | (cache, none) => (cache, { c.writeBinError c.appendVlen with writeAndGo := .swallow })
    | (cache, some id) =>
      (cache, { c with
          item := some id
          ritem := []
          rlbytes := c.appendVlen
          state := .nread
          substate := .readingSaslAuthData })

/-- `process_bin_complete_sasl_auth`: every result is answered. -/
def processBinCompleteSaslAuth : Cache × Conn :=
  match c.item with
  | some id => (cache.doItemUnlink s id, { c with state := .mwrite, writeAndGo := .newCmd })
  | none => (cache, c)

def completeNreadBinary : Cache × Conn :=
  match c.substate with
  | .readingSetHeader =>
    if c.cmd = .opcode .append ∨ c.cmd = .opcode .prepend then
      processBinAppendPrepend s env cache c
    else processBinUpdate s env cache c
  | .readSetValue => completeUpdateBin s env cache c
  | .readingGetKey => processBinGet s cache c
  | .readingTouchKey => processBinTouch s cache c
  | .readingStat => (cache, processBinStat env c)
  | .readingDelHeader => processBinDelete s cache c
  | .readingIncrHeader => completeIncrBin s env cache c
  | .readFlushExptime => processBinFlush s cache c
  | .readingSaslAuth => processBinSaslAuth s env cache c
  | .readingSaslAuthData => processBinCompleteSaslAuth s cache c
  | .noState => (cache, c)

end ServerStack.Memcached
