import ServerStack.Nginx.Strings

/-!
# Chunked request bodies

`ngx_http_parse_chunked` reads what stands between the chunk data and can be resumed at any byte; the
data are taken by its callers, which count `size` down.  Both callers for request bodies are here: the
one that keeps the data and the one that discards them.
-/

namespace ServerStack.Nginx

inductive ChunkedState where
  | chunkStart
  | chunkSize
  | chunkExtension
  | chunkExtensionAlmostDone
  | chunkData
  | afterData
  | afterDataAlmostDone
  | lastChunkExtension
  | lastChunkExtensionAlmostDone
  | trailer
  | trailerAlmostDone
  | trailerHeader
  | trailerHeaderAlmostDone
  deriving DecidableEq, Repr

structure Chunked where
  state : ChunkedState
  size : ℤ
  length : ℤ
  deriving DecidableEq, Repr

namespace Chunked

/-- What `ngx_pcalloc` makes. -/
def zero : Chunked := ⟨.chunkStart, 0, 0⟩

/-- The value that an `off_t` takes. -/
def offT (n : ℤ) : ℤ := n.bmod (2 ^ 64)

inductive Step where
  | next (state : ChunkedState) (size : ℤ)
  -- the `goto`s
  | data
  | done
  | invalid
  deriving DecidableEq, Repr

/-- `CR` and `LF` lead to two states, and other bytes end the same way. -/
def lineEnd (size : ℤ) (ch : UInt8) (cr lf : ChunkedState) (other : Step) : Step :=
  if ch = 13 then .next cr size else if ch = 10 then .next lf size else other

def sizeEnd (size : ℤ) (ch : UInt8) (extension cr lf : ChunkedState) : Step :=
  lineEnd size ch cr lf (if ch = 59 ∨ ch = 32 ∨ ch = 9 then .next extension size else .invalid)

/-- Only `LF` may follow a `CR`. -/
def almostDone (size : ℤ) (ch : UInt8) (lf : ChunkedState) : Step :=
  if ch = 10 then .next lf size else .invalid

/-- One byte; the loop keeps the size in an `off_t`. -/
def step (state : ChunkedState) (size : ℤ) (ch : UInt8) : Step :=
  match state with
  | .chunkStart =>
    match hexDigit ch with
    | some digit => .next .chunkSize digit
    | none => .invalid
  | .chunkSize =>
    match hexDigit ch with
    | some digit => .next .chunkSize (size * 16 + digit)
    | none =>
      if size = 0 then
        sizeEnd size ch .lastChunkExtension .lastChunkExtensionAlmostDone .trailer
      else sizeEnd size ch .chunkExtension .chunkExtensionAlmostDone .chunkData
  | .chunkExtension =>
    lineEnd size ch .chunkExtensionAlmostDone .chunkData (.next .chunkExtension size)
  | .chunkExtensionAlmostDone => almostDone size ch .chunkData
  | .chunkData => .data
  -- there is no `default` here
  | .afterData => lineEnd size ch .afterDataAlmostDone .chunkStart (.next .afterData size)
  | .afterDataAlmostDone => almostDone size ch .chunkStart
  | .lastChunkExtension =>
    lineEnd size ch .lastChunkExtensionAlmostDone .trailer (.next .lastChunkExtension size)
  | .lastChunkExtensionAlmostDone => almostDone size ch .trailer
  | .trailer =>
    if ch = 13 then .next .trailerAlmostDone size
    else if ch = 10 then .done
    else .next .trailerHeader size
  | .trailerAlmostDone => if ch = 10 then .done else .invalid
  | .trailerHeader =>
    lineEnd size ch .trailerHeaderAlmostDone .trailer (.next .trailerHeader size)
  | .trailerHeaderAlmostDone => almostDone size ch .trailer

/-- How the loop over a buffer ends, with the bytes from `pos` on. -/
inductive LoopEnd where
  | data (rc : Bool) (state : ChunkedState) (size : ℤ) (buf : Bytes)
  | done (size : ℤ) (buf : Bytes)
  | invalid (size : ℤ)
  deriving DecidableEq, Repr

/-- The loop; `rc` is set for `NGX_OK`. -/
def loop : ChunkedState → ℤ → Bytes → LoopEnd
  | state, size, [] => .data false state size []
  | state, size, ch :: buf =>
    match step state size ch with
    | .next state size => loop state (offT size) buf
    | .data => .data true state size (ch :: buf)
    | .done => .done size buf
    | .invalid => .invalid size

def lengthOf (state : ChunkedState) (size : ℤ) : ℤ :=
  match state with
  | .chunkStart => 3
  | .chunkSize => offT (1 + if size ≠ 0 then size + 4 else 1)
  | .chunkExtension | .chunkExtensionAlmostDone => offT (1 + size + 4)
  | .chunkData => offT (size + 4)
  | .afterData | .afterDataAlmostDone => 4
  | .lastChunkExtension | .lastChunkExtensionAlmostDone => 2
  | .trailer | .trailerAlmostDone => 1
  | .trailerHeader | .trailerHeaderAlmostDone => 2

/-- The codes that `ngx_http_parse_chunked` returns. -/
inductive Rc where
  | ok
  | again
  | done
  | error
  deriving DecidableEq, Repr

def resume (ctx : Chunked) : ChunkedState :=
  if ctx.state = .chunkData ∧ ctx.size = 0 then .afterData else ctx.state

/-- `ngx_http_parse_chunked`, with the bytes that are left in the buffer. -/
def parseChunked (ctx : Chunked) (buf : Bytes) : Rc × Chunked × Bytes :=
  match loop ctx.resume ctx.size buf with
  | .data rc state size rest =>
    let ctx := ⟨state, size, lengthOf state size⟩
    (if size < 0 ∨ ctx.length < 0 then .error else if rc then .ok else .again, ctx, rest)
  | .done size rest => (.done, { ctx with state := .chunkStart, size := size }, rest)
  | .invalid size => (.error, { ctx with size := size }, buf)

end Chunked

inductive FilterRc where
  | ok
  | badRequest
  | requestEntityTooLarge
  deriving DecidableEq, Repr

/-! ## `ngx_http_request_body_chunked_filter` -/

/-- The parts of `ngx_http_request_body_t` and of `r->headers_in` that the filter uses. -/
structure RequestBody where
  rest : ℤ
  chunked : Chunked
  contentLengthN : ℤ
  -- the data of `rb->bufs`, and whether their last buffer is the last one of the body
  bufs : Bytes
  lastBuf : Bool
  deriving DecidableEq, Repr

namespace RequestBody

/-- What `ngx_http_read_client_request_body` makes. -/
def init : RequestBody := ⟨-1, Chunked.zero, -1, [], false⟩

def start (rb : RequestBody) : RequestBody :=
  if rb.rest = -1 then { rb with chunked := Chunked.zero, contentLengthN := 0, rest := 3 } else rb

/-- The inner loop, with the data for `out` so far; it did not end if nothing is returned. -/
def filterLoop (clientMaxBodySize : ℕ) :
    ℕ → RequestBody → Bytes → Bytes → Option (FilterRc × RequestBody × Bytes)
  | 0, _, _, _ => none
  | fuel + 1, rb, out, buf =>
    match rb.chunked.parseChunked buf with
    | (.ok, ctx, buf) =>
      if clientMaxBodySize ≠ 0 ∧ clientMaxBodySize - rb.contentLengthN < ctx.size then
        some (.requestEntityTooLarge, { rb with chunked := ctx }, buf)
      else if buf.length > ctx.size then
        filterLoop clientMaxBodySize fuel { rb with
            chunked := { ctx with size := 0 }
            contentLengthN := rb.contentLengthN + ctx.size }
          (out ++ buf.take ctx.size.toNat) (buf.drop ctx.size.toNat)
      else
        filterLoop clientMaxBodySize fuel { rb with
            chunked := { ctx with size := ctx.size - buf.length }
            contentLengthN := rb.contentLengthN + buf.length }
          (out ++ buf) []
    | (.done, ctx, buf) =>
      some (.ok, { rb with rest := 0, chunked := ctx, bufs := rb.bufs ++ out, lastBuf := true }, buf)
    | (.again, ctx, buf) =>
      some (.ok, { rb with rest := ctx.length, chunked := ctx, bufs := rb.bufs ++ out }, buf)
    | (.error, ctx, buf) => some (.badRequest, { rb with chunked := ctx }, buf)

/-- `ngx_http_request_body_chunked_filter`; the callers give it one buffer. -/
def chunkedFilter (clientMaxBodySize : ℕ) (rb : RequestBody) (buf : Bytes) :
    Option (FilterRc × RequestBody × Bytes) :=
  filterLoop clientMaxBodySize (2 * buf.length + 2) rb.start [] buf

end RequestBody

inductive BodyEnd where
  -- the data, and the bytes that no filter has taken
  | accepted (data left : Bytes)
  | waiting (data : Bytes)
  | rejected (rc : FilterRc)
  deriving DecidableEq, Repr

/-- The filter is called with buffer after buffer until `rest` is 0. -/
def RequestBody.read (clientMaxBodySize : ℕ) : RequestBody → List Bytes → Option BodyEnd
  | rb, [] => some (.waiting rb.bufs)
  | rb, buf :: bufs =>
    match rb.chunkedFilter clientMaxBodySize buf with
    | none => none
    | some (.ok, rb, left) =>
      if rb.rest = 0 then some (.accepted rb.bufs (left ++ bufs.flatten))
      else rb.read clientMaxBodySize bufs
    | some (rc, _, _) => some (.rejected rc)

def readChunkedBody (clientMaxBodySize : ℕ) (bufs : List Bytes) : Option BodyEnd :=
  RequestBody.init.read clientMaxBodySize bufs

/-! ## `ngx_http_discard_request_body_filter` -/

structure DiscardedBody where
  chunked : Chunked
  contentLengthN : ℤ
  deriving DecidableEq, Repr

namespace DiscardedBody

def filterLoop : ℕ → DiscardedBody → Bytes → Option (FilterRc × DiscardedBody × Bytes)
  | 0, _, _ => none
  | fuel + 1, r, buf =>
    match r.chunked.parseChunked buf with
    | (.ok, ctx, buf) =>
      if buf.length > ctx.size then
        filterLoop fuel { r with chunked := { ctx with size := 0 } } (buf.drop ctx.size.toNat)
      else filterLoop fuel { r with chunked := { ctx with size := ctx.size - buf.length } } []
    | (.done, ctx, buf) => some (.ok, ⟨ctx, 0⟩, buf)
    | (.again, ctx, buf) => some (.ok, ⟨ctx, ctx.length⟩, buf)
    | (.error, ctx, buf) => some (.badRequest, { r with chunked := ctx }, buf)

/-- `ngx_http_discard_request_body_filter` for a chunked body. -/
def filter (r : DiscardedBody) (buf : Bytes) : Option (FilterRc × DiscardedBody × Bytes) :=
  filterLoop (2 * buf.length + 2) r buf

/-- The filter is called with buffer after buffer until `content_length_n` is 0. -/
def read : DiscardedBody → List Bytes → Option BodyEnd
  | _, [] => some (.waiting [])
  | r, buf :: bufs =>
    match r.filter buf with
    | none => none
    | some (.ok, r, left) =>
      if r.contentLengthN = 0 then some (.accepted [] (left ++ bufs.flatten)) else r.read bufs
    | some (rc, _, _) => some (.rejected rc)

end DiscardedBody

def discardChunkedBody (bufs : List Bytes) : Option BodyEnd :=
  DiscardedBody.read ⟨Chunked.zero, -1⟩ bufs

end ServerStack.Nginx
