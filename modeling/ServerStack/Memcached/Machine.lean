import ServerStack.Memcached.Binary

/-!
# The state machine of a connection

One step is one round of the loop of `drive_machine`.  A step that would only wait for the event loop
leaves the connection as it is.
-/

namespace ServerStack.Memcached

variable (s : Settings) (env : Env)

/-! ## Parsing -/

/-- The lines of `try_read_command` that find out the protocol. -/
def negotiate (c : Conn) : Conn :=
  if c.protocol = .negotiating then
    { c with protocol := if c.rbuf.headD 0 = 0x80 then .binary else .ascii }
  else c

/-- The check of a long buffer without a line end: only a large multiget may be read on. -/
def longGet (buf : Bytes) : Bool :=
  let ptr := buf.dropWhile (· = 32)
  decide (buf.length - ptr.length ≤ 100) &&
    (decide (ptr.take 4 = ascii "get ") || decide (ptr.take 5 = ascii "gets "))

/-- The command in front of a line end: one carriage return before it is not part of it. -/
def commandOf (line : Bytes) : Bytes :=
  if 1 < line.length ∧ line.getLast? = some 13 then line.dropLast else line

variable (cache : Cache)

variable (c : Conn)

/-- `try_read_command` for the text protocol; the flag says that more data is needed. -/
def tryReadAscii : (Cache × Conn) × Bool :=
  if 10 ∈ c.rbuf then
    let line := c.rbuf.takeWhile (· ≠ 10)
    let (cache, c') := processCommand s env (commandOf line) cache c
    ((cache, { c' with rbuf := c.rbuf.drop (line.length + 1) }), false)
  else if 1024 < c.rbuf.length ∧ longGet c.rbuf = false then
    ((cache, { c with state := .closing }), false)
  else ((cache, c), true)

def protocolBinaryReq : UInt8 := 0x80

/-- `try_read_command` for the binary protocol. -/
def tryReadBinary : Conn × Bool :=
  if c.rbuf.length < sizeofHeader then (c, true)
  else
    let header := readHeader c.rbuf
    if header.magic ≠ protocolBinaryReq then ({ c with header := header, state := .closing }, false)
    else
      let c' := Conn.dispatchBinCommand s env
        { c with header := header, requests := c.requests ++ [header] }
      ({ c' with rbuf := c.rbuf.drop sizeofHeader }, false)

def tryReadCommand : (Cache × Conn) × Bool :=
  let c := negotiate c
  if c.protocol = .binary then
    let (c, more) := tryReadBinary s env c
    ((cache, c), more)
  else tryReadAscii s env cache c

/-! ## The states -/

/-- `conn_read`. -/
def stepRead : Conn :=
  match tryReadNetwork env.realloc c with
  | (c, .noDataReceived) => { c with state := .waiting }
  | (c, .dataReceived) => { c with state := .parseCmd }
  | (c, .error) => { c with state := .closing }
  | (c, .memoryError) => c

/-- `conn_parse_cmd`. -/
def stepParse : Cache × Conn :=
  match tryReadCommand s env cache c with
  | ((cache, c), true) => (cache, { c with state := .waiting })
  | ((cache, c), false) => (cache, c)

def completeNread : Cache × Conn :=
  if c.protocol = .ascii then completeNreadAscii s env cache c
  else completeNreadBinary s env cache c

def takeBuffered : Conn :=
  let tocopy := min (c.rbuf.length : ℤ) c.rlbytes
  { c with
    ritem := c.ritem ++ c.rbuf.take tocopy.toNat
    rlbytes := c.rlbytes - tocopy
    rbuf := c.rbuf.drop tocopy.toNat }

/-- The read from the socket in `conn_nread`; the count is converted to a `size_t`. -/
def nreadSocket : Conn :=
  match recv (c.rlbytes % 2 ^ 64).toNat c.socket with
  | (.bytes bytes, socket) =>
    { c with
      ritem := c.ritem ++ bytes
      rlbytes := c.rlbytes - bytes.length
      socket := socket }
  | (.again, socket) => { c with socket := socket }
  | (.eof, socket) => { c with socket := socket, state := .closing }

/-- A negative count is nearly `2 ^ 64` for the `memmove` from the buffer: the process ends, and with
it the connection. -/
def nreadMore : Conn :=
  if c.rbuf ≠ [] ∧ c.rlbytes < 0 then { c with state := .closed }
  else
    let c := if c.rbuf = [] then c else takeBuffered c
    if c.rlbytes = 0 then c else nreadSocket c

/-- `conn_nread`. -/
def stepNread : Cache × Conn :=
  if c.rlbytes = 0 then completeNread s env cache c else (cache, nreadMore c)

/-- `conn_swallow`. -/
def stepSwallow : Conn :=
  if c.sbytes = 0 then { c with state := .newCmd }
  else if c.rbuf ≠ [] then
    let tocopy := min (c.rbuf.length : ℤ) c.sbytes
    { c with sbytes := c.sbytes - tocopy, rbuf := c.rbuf.drop tocopy.toNat }
  else
    match recv (min (c.rsize : ℤ) c.sbytes % 2 ^ 64).toNat c.socket with
    | (.bytes bytes, socket) => { c with sbytes := c.sbytes - bytes.length, socket := socket }
    | (.again, socket) => { c with socket := socket }
    | (.eof, socket) => { c with socket := socket, state := .closing }

/-- `conn_write` and `conn_mwrite`. -/
def stepWrite : Cache × Conn :=
  match env.transmit with
  | .complete =>
    if c.state = .mwrite then
      (releaseReply cache c, { c with
          ilist := []
          suffixes := c.suffixes - c.suffixleft
          suffixleft := 0
          state := if c.protocol = .binary then c.writeAndGo else .newCmd })
    else (cache, { c with state := c.writeAndGo })
  | .incomplete | .softError => (cache, c)
  | .hardError => (cache, { c with state := .closing })

/-- One round of the loop of `drive_machine`. -/
def step : Cache × Conn :=
  match c.state with
  | .waiting => (cache, { c with state := .read })
  | .read => (cache, stepRead env c)
  | .parseCmd => stepParse s env cache c
  | .newCmd => if env.yield then (cache, c) else resetCmdHandler cache c
  | .nread => stepNread s env cache c
  | .swallow => (cache, stepSwallow c)
  | .write | .mwrite => stepWrite env cache c
  | .closing => connClose cache c
  | .closed => (cache, c)

end ServerStack.Memcached
