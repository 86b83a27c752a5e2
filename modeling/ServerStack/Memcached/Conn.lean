import ServerStack.Lib.Endian
import ServerStack.Memcached.Store

/-!
# Connections

The state of a connection, its socket, and the parts of `memcached.c` that both protocols use:
replies, reading from the network, the reset between commands and the close.
-/

namespace ServerStack.Memcached

open Endian

/-- `conn_states`; `closed` is a connection after `conn_close`. -/
inductive ConnState where
  | newCmd
  | waiting
  | read
  | parseCmd
  | write
  | nread
  | swallow
  | closing
  | mwrite
  | closed
  deriving DecidableEq, Repr

/-- `bin_substates`. -/
inductive BinSubstate where
  | noState
  | readingSetHeader
  | readSetValue
  | readingGetKey
  | readingStat
  | readingDelHeader
  | readingIncrHeader
  | readFlushExptime
  | readingSaslAuth
  | readingSaslAuthData
  | readingTouchKey
  deriving DecidableEq, Repr

inductive Protocol where
  | ascii
  | binary
  | negotiating
  deriving DecidableEq, Repr

/-- The opcodes that `dispatch_bin_command` knows, without the quiet ones. -/
inductive Opcode where
  | get
  | set
  | add
  | replace
  | delete
  | increment
  | decrement
  | quit
  | flush
  | noop
  | version
  | getk
  | append
  | prepend
  | stat
  | touch
  | gat
  | gatk
  | saslListMechs
  | saslAuth
  | saslStep
  | unknown
  deriving DecidableEq, Repr

/-- `c->cmd`: a binary opcode, or the storage command whose data is read. -/
inductive Cmd where
  | none
  | opcode (op : Opcode)
  | nread (comm : NreadCmd)
  deriving DecidableEq, Repr

/-- `protocol_binary_request_header`, in host order. -/
structure BinaryHeader where
  magic : UInt8
  opcode : UInt8
  keylen : ℕ
  extlen : ℕ
  bodylen : ℕ
  cas : ℕ
  deriving DecidableEq, Repr

/-- What arrives at the socket: bytes, nothing for the moment (no bytes), or the end. -/
inductive Arrival where
  | data (bytes : Bytes)
  | eof
  deriving DecidableEq, Repr

structure Conn where
  state : ConnState
  substate : BinSubstate
  protocol : Protocol
  header : BinaryHeader
  cmd : Cmd
  noreply : Bool
  -- the bytes from `rcurr` on
  rbuf : Bytes
  rsize : ℕ
  -- the bytes read so far in `conn_nread`
  ritem : Bytes
  rlbytes : ℤ
  sbytes : ℤ
  wbuf : Bytes
  writeAndGo : ConnState
  item : Option ItemId
  -- the items from `icurr` on, `ileft` of them
  ilist : List ItemId
  suffixleft : ℕ
  -- buffers taken from the suffix cache of the thread and not returned
  suffixes : ℕ
  socket : List Arrival
  -- the lines given to `process_command`, and the headers given to `dispatch_bin_command`
  commands : List Bytes
  requests : List BinaryHeader

inductive TransmitResult where
  | complete
  | incomplete
  | softError
  | hardError
  deriving DecidableEq, Repr

/-- What becomes of the memory that a hit of `get` needs. -/
inductive GetMemory where
  | ok
  | noList
  | noSuffixList
  | noSuffix
  | noIov
  deriving DecidableEq, Repr

structure Env where
  memory : Memory
  -- for the hits of a `get` in order; enough memory from there on
  getMemory : List GetMemory
  -- the read buffer can be made larger
  realloc : Bool
  transmit : TransmitResult
  -- `nreqs` is used up
  yield : Bool
  -- a client has authenticated
  authenticated : Bool
  -- the statistics, if the name is known
  stats : Option Bytes

def dataBufferSize : ℕ := 2048

def readBufferHighwat : ℕ := 8192

def keyMaxLength : ℕ := 250

/-- A new structure of `calloc`, with a read buffer. -/
def connAlloc : Conn where
  state := .newCmd
  substate := .noState
  protocol := .negotiating
  header := ⟨0, 0, 0, 0, 0, 0⟩
  cmd := .none
  noreply := false
  rbuf := []
  rsize := dataBufferSize
  ritem := []
  rlbytes := 0
  sbytes := 0
  wbuf := []
  writeAndGo := .newCmd
  item := none
  ilist := []
  suffixleft := 0
  suffixes := 0
  socket := []
  commands := []
  requests := []

/-- `conn_new` for an accepted client, with what will arrive at its socket.  A structure from the
freelist keeps its read buffer, and `sbytes` of the client before. -/
def connNew (c : Conn) (protocol : Protocol) (socket : List Arrival) : Conn :=
  { c with
    state := .newCmd
    protocol := protocol
    cmd := .none
    noreply := false
    rbuf := []
    ritem := []
    rlbytes := 0
    wbuf := []
    writeAndGo := .newCmd
    item := none
    ilist := []
    suffixleft := 0
    socket := socket
    commands := []
    requests := [] }

namespace Conn

/-! ## Replies -/

def outString (c : Conn) (str : Bytes) : Conn :=
  if c.noreply then { c with noreply := false, state := .newCmd }
  else
    let str :=
      if dataBufferSize < str.length + 2 then ascii "SERVER_ERROR output line too long" else str
    { c with wbuf := str ++ crlf, state := .write, writeAndGo := .newCmd }

def writeAndFree (c : Conn) (buf : Option Bytes) : Conn :=
  match buf with
  | some buf => { c with wbuf := buf, state := .write, writeAndGo := .newCmd }
  | none => c.outString (ascii "SERVER_ERROR out of memory writing stats")

end Conn

/-! ## Reading -/

inductive RecvResult where
  | bytes (bytes : Bytes)
  | again
  | eof
  deriving DecidableEq, Repr

/-- `read(sfd, buf, n)`. -/
def recv (n : ℕ) : List Arrival → RecvResult × List Arrival
  | [] => (.again, [])
  | .eof :: rest => (.eof, .eof :: rest)
  | .data bytes :: rest =>
    if bytes = [] then (.again, rest)
    else (.bytes (bytes.take n), if bytes.length ≤ n then rest else .data (bytes.drop n) :: rest)

def recvBound (socket : List Arrival) : ℕ :=
  (socket.map fun | .data bytes => bytes.length + 1 | .eof => 1).sum

inductive TryReadResult where
  | dataReceived
  | noDataReceived
  | error
  | memoryError
  deriving DecidableEq, Repr

/-- One read of the loop of `try_read_network`; a result is given when the loop ends. -/
def readOnce (gotdata : TryReadResult) (c : Conn) : Conn × Option TryReadResult :=
  let avail := c.rsize - c.rbuf.length
  match recv avail c.socket with
  | (.bytes bytes, socket) =>
    ({ c with rbuf := c.rbuf ++ bytes, socket := socket },
      if bytes.length = avail then none else some .dataReceived)
  | (.again, socket) => ({ c with socket := socket }, some gotdata)
  | (.eof, socket) => ({ c with socket := socket }, some .error)

def continueRead (next : Conn → Conn × TryReadResult) :
    Conn × Option TryReadResult → Conn × TryReadResult
  | (c, some r) => (c, r)
  | (c, none) => next c

/-- The loop of `try_read_network`; the buffer is made larger at most four times. -/
def tryReadLoop (realloc : Bool) : ℕ → ℕ → TryReadResult → Conn → Conn × TryReadResult
  | 0, _, gotdata, c => (c, gotdata)
  | fuel + 1, numAllocs, gotdata, c =>
    if c.rsize ≤ c.rbuf.length then
      if numAllocs = 4 then (c, gotdata)
      else if realloc = false ∨ 2 ^ 31 ≤ c.rsize * 2 then
        ({ ({ c with rbuf := [] }.outString
          (ascii "SERVER_ERROR out of memory reading request")) with writeAndGo := .closing },
          .memoryError)
      else
        continueRead (tryReadLoop realloc fuel (numAllocs + 1) .dataReceived)
          (readOnce gotdata { c with rsize := c.rsize * 2 })
    else continueRead (tryReadLoop realloc fuel numAllocs .dataReceived) (readOnce gotdata c)

def tryReadNetwork (realloc : Bool) (c : Conn) : Conn × TryReadResult :=
  tryReadLoop realloc (recvBound c.socket + 1) 0 .noDataReceived c

/-! ## Between commands -/

/-- The size of the read buffer after `conn_shrink`. -/
def connShrink (c : Conn) : ℕ :=
  if readBufferHighwat < c.rsize ∧ c.rbuf.length < dataBufferSize then dataBufferSize else c.rsize

variable (cache : Cache)

def releaseItem (item : Option ItemId) : Cache :=
  match item with
  | some id => cache.doItemRemove id
  | none => cache

def resetCmdHandler (c : Conn) : Cache × Conn :=
  (releaseItem cache c.item, { c with
      cmd := .none
      substate := .noState
      item := none
      rsize := connShrink c
      state := if c.rbuf = [] then .waiting else .parseCmd })

def releaseReply (c : Conn) : Cache :=
  c.ilist.foldl (fun cache id => cache.doItemRemove id) cache

/-- `conn_close`, with `conn_cleanup`. -/
def connClose (c : Conn) : Cache × Conn :=
  (releaseReply (releaseItem cache c.item) c, { c with
      item := none
      ilist := []
      suffixes := c.suffixes - c.suffixleft
      suffixleft := 0
      state := .closed })

end ServerStack.Memcached
