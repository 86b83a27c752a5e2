import ServerStack.Redis.Util

/-!
# The query buffer

`processMultibulkBuffer` and `processInputBuffer` of `networking.c`, for a client that is neither
blocked nor paused and whose commands all return `REDIS_OK`.  Positions and lengths are natural
numbers: `readQueryFromClient` closes a client whose query buffer exceeds
`client_max_querybuf_len`, 1 GB, so the `int` variables of the source hold them.
-/

namespace ServerStack.Redis.Networking

open Util

def inlineMaxSize : ℕ := 1024 * 64

def mbulkBigArg : ℕ := 1024 * 32

/-- `server.client_max_querybuf_len`. -/
def clientMaxQuerybufLen : ℕ := 1024 * 1024 * 1024

def maxMultibulkLen : ℕ := 1024 * 1024

def maxBulkLen : ℕ := 512 * 1024 * 1024

inductive ReqType where
  | unknown
  /-- `REDIS_REQ_INLINE`. -/
  | inline
  /-- `REDIS_REQ_MULTIBULK`. -/
  | multibulk
  deriving DecidableEq, Repr

inductive ProtocolError where
  | tooBigMbulkCount
  | invalidMultibulkLength
  | tooBigBulkCount
  | expectedDollar (got : UInt8)
  | invalidBulkLength
  | tooBigInline
  | unbalancedQuotes
  deriving DecidableEq, Repr

/-- The fields of `redisClient` that request parsing uses. -/
structure Client where
  querybuf : Bytes
  reqtype : ReqType
  multibulklen : ℕ
  /-- `none` is `-1`. -/
  bulklen : Option ℕ
  argv : List Bytes
  /-- `flags & REDIS_CLOSE_AFTER_REPLY`. -/
  closeAfterReply : Bool
  /-- The error replies sent so far. -/
  errors : List ProtocolError
  /-- The argument vectors handed to `processCommand` so far. -/
  executed : List (List Bytes)

def createClient : Client where
  querybuf := []
  reqtype := .unknown
  multibulklen := 0
  bulklen := none
  argv := []
  closeAfterReply := false
  errors := []
  executed := []

inductive Abort where
  /-- `redisAssertWithInfo(c,NULL,c->argc == 0)`. -/
  | argcAssert
  /-- `redisAssertWithInfo(c,NULL,c->querybuf[0] == '*')`. -/
  | starAssert
  /-- The loop over the requests was cut off. -/
  | unfinished
  /-- `freeClient`, because the query buffer exceeds `client_max_querybuf_len`. -/
  | clientFreed
  deriving DecidableEq, Repr

/-- `addReplyError` and `setProtocolError`. -/
def Client.protocolError (c : Client) (e : ProtocolError) (pos : ℕ) : Client :=
  { c with
    querybuf := c.querybuf.drop pos
    closeAfterReply := true
    errors := c.errors ++ [e] }

def resetClient (c : Client) : Client :=
  { c with argv := [], reqtype := .unknown, multibulklen := 0, bulklen := none }

/-- `strchr`: the offset of a byte before the first NUL. -/
def strchr (ch : UInt8) : Bytes → Option ℕ
  | [] => none
  | b :: s => if b = ch then some 0 else if b = 0 then none else (strchr ch s).map (· + 1)

/-! ## Multi bulk requests -/

inductive MbulkHeader where
  /-- Return `REDIS_ERR`. -/
  | stop (c : Client)
  /-- A number of arguments that is not positive: return `REDIS_OK`. -/
  | empty (c : Client)
  | go (c : Client) (pos : ℕ)

def readMultibulkLen (c : Client) : Except Abort MbulkHeader :=
  if c.argv ≠ [] then .error .argcAssert
  else
    match strchr 13 c.querybuf with
    | none =>
      if c.querybuf.length > inlineMaxSize then .ok (.stop (c.protocolError .tooBigMbulkCount 0))
      else .ok (.stop c)
    | some newline =>
      if newline + 2 > c.querybuf.length then .ok (.stop c)
      else if c.querybuf.head? ≠ some 42 then .error .starAssert
      else
        match string2ll ((c.querybuf.drop 1).take (newline - 1)) with
        | none => .ok (.stop (c.protocolError .invalidMultibulkLength 0))
        | some ll =>
          if ll > maxMultibulkLen then .ok (.stop (c.protocolError .invalidMultibulkLength 0))
          else if ll ≤ 0 then .ok (.empty { c with querybuf := c.querybuf.drop (newline + 2) })
          else .ok (.go { c with multibulklen := ll.toNat } (newline + 2))

inductive Round where
  /-- `break`. -/
  | stop (c : Client) (pos : ℕ)
  /-- Return `REDIS_ERR` at once. -/
  | fail (c : Client)
  | next (c : Client) (pos : ℕ)

def readBulk (c : Client) (pos bulklen : ℕ) : Round :=
  if c.querybuf.length - pos < bulklen + 2 then .stop c pos
  else if pos = 0 ∧ bulklen ≥ mbulkBigArg ∧ c.querybuf.length = bulklen + 2 then
    -- the query buffer itself becomes the argument
    .next { c with
      argv := c.argv ++ [c.querybuf.take bulklen]
      querybuf := []
      bulklen := none } 0
  else
    .next { c with
      argv := c.argv ++ [(c.querybuf.drop pos).take bulklen]
      bulklen := none } (pos + bulklen + 2)

def readBulkLen (c : Client) (pos : ℕ) : Round :=
  match strchr 13 (c.querybuf.drop pos) with
  | none =>
    if c.querybuf.length > inlineMaxSize then .stop (c.protocolError .tooBigBulkCount 0) pos
    else .stop c pos
  | some newline =>
    if pos + newline + 2 > c.querybuf.length then .stop c pos
    else
      match c.querybuf[pos]? with
      | some 36 =>
        match string2ll ((c.querybuf.drop (pos + 1)).take (newline - 1)) with
        | none => .fail (c.protocolError .invalidBulkLength pos)
        | some ll =>
          if ll < 0 ∨ ll > maxBulkLen then .fail (c.protocolError .invalidBulkLength pos)
          else if ll ≥ mbulkBigArg then
            readBulk { c with
              querybuf := c.querybuf.drop (pos + newline + 2)
              bulklen := some ll.toNat } 0 ll.toNat
          else readBulk { c with bulklen := some ll.toNat } (pos + newline + 2) ll.toNat
      | got => .fail (c.protocolError (.expectedDollar (got.getD 0)) pos)

def bulkRound (c : Client) (pos : ℕ) : Round :=
  match c.bulklen with
  | none => readBulkLen c pos
  | some bulklen => readBulk c pos bulklen

/-- `while(c->multibulklen)`, and the trim that follows; `true` for `REDIS_OK`. -/
def bulkLoop : ℕ → Client → ℕ → Client × Bool
  | 0, c, pos => ({ c with querybuf := c.querybuf.drop pos }, true)
  | n + 1, c, pos =>
    match bulkRound c pos with
    | .stop c pos => ({ c with querybuf := c.querybuf.drop pos }, false)
    | .fail c => (c, false)
    | .next c pos => bulkLoop n { c with multibulklen := n } pos

/-- `processMultibulkBuffer`; `true` for `REDIS_OK`. -/
def processMultibulkBuffer (c : Client) : Except Abort (Client × Bool) :=
  if c.multibulklen = 0 then do
    match ← readMultibulkLen c with
    | .stop c => return (c, false)
    | .empty c => return (c, true)
    | .go c pos => return bulkLoop c.multibulklen c pos
  else .ok (bulkLoop c.multibulklen c 0)

/-! ## The loop over the requests -/

def executeRequest (c : Client) : Client :=
  if c.argv = [] then resetClient c
  else resetClient { c with executed := c.executed ++ [c.argv] }

def determineType (c : Client) : Client :=
  if c.reqtype = .unknown then
    { c with reqtype := if c.querybuf.head? = some 42 then .multibulk else .inline }
  else c

section

-- multi bulk requests never reach `processInlineBuffer`
variable (processInlineBuffer : Client → Client × Bool)

def processRequests : ℕ → Client → Except Abort Client
  | 0, _ => .error .unfinished
  | fuel + 1, c =>
    if c.querybuf = [] then .ok c
    else if c.closeAfterReply then .ok c
    else do
      let c := determineType c
      let (c, ok) ←
        if c.reqtype = .multibulk then processMultibulkBuffer c else .ok (processInlineBuffer c)
      if ok then processRequests fuel (executeRequest c) else return c

/-- `processInputBuffer`.  Every request takes at least one byte of the buffer. -/
def processInputBuffer (c : Client) : Except Abort Client :=
  processRequests processInlineBuffer (c.querybuf.length + 1) c

/-- A chunk of the stream arrives: the part of `readQueryFromClient` after `read`. -/
def receive (c : Client) (chunk : Bytes) : Except Abort Client :=
  if (c.querybuf ++ chunk).length > clientMaxQuerybufLen then .error .clientFreed
  else processInputBuffer processInlineBuffer { c with querybuf := c.querybuf ++ chunk }

end

/-! ## The encoding -/

def crlf : Bytes := [13, 10]

/-- The line `<type><n>\r\n`. -/
def headerLine (type : UInt8) (n : ℕ) : Bytes := type :: Decimal.decimal n ++ crlf

def encodeBulk (arg : Bytes) : Bytes := headerLine 36 arg.length ++ (arg ++ crlf)

def encodeCommand (args : List Bytes) : Bytes :=
  headerLine 42 args.length ++ args.flatMap encodeBulk

end ServerStack.Redis.Networking
