import ServerStack.Lib.Endian

/-!
# The write-ahead log

`log::Writer` and `log::Reader` of LevelDB, and what a crash does to the file.  A log is a sequence
of blocks of 32 KB.  A record is written as one or more fragments, each with a header and inside of
one block; the reader puts the fragments together again and drops what is damaged.  The checksum is
`crc32c::Extend` taken byte by byte, for any contents of its table.
-/

namespace ServerStack.Leveldb.Log

open Endian

abbrev Bytes := List UInt8

/-! ## Checksums -/

/-- The table `table0_` of `crc32c.cc`. -/
abbrev CrcTable := UInt8 → UInt32

/-- `STEP1`. -/
def crcStep (table : CrcTable) (l : UInt32) (b : UInt8) : UInt32 :=
  table (l.toUInt8 ^^^ b) ^^^ (l >>> 8)

def crcExtend (table : CrcTable) (crc : UInt32) (data : Bytes) : UInt32 :=
  data.foldl (crcStep table) (crc ^^^ 0xffffffff) ^^^ 0xffffffff

def crcValue (table : CrcTable) (data : Bytes) : UInt32 := crcExtend table 0 data

def kMaskDelta : UInt32 := 0xa282ead8

def crcMask (crc : UInt32) : UInt32 := ((crc >>> 15) ||| (crc <<< 17)) + kMaskDelta

def crcUnmask (masked : UInt32) : UInt32 :=
  let rot := masked - kMaskDelta
  (rot >>> 17) ||| (rot <<< 15)

def encodeFixed32 (v : UInt32) : Bytes := littleEndian 4 v.toNat

def decodeFixed32 (bs : Bytes) : UInt32 := UInt32.ofNat (ofLittleEndian (bs.take 4))

/-! ## The format -/

inductive RecordType where
  | full
  | first
  | middle
  | last
  deriving DecidableEq, Repr

/-- The number of a type in the file; 0 is `kZeroType`. -/
def RecordType.code : RecordType → UInt8
  | .full => 1
  | .first => 2
  | .middle => 3
  | .last => 4

def kBlockSize : ℕ := 32768

def kHeaderSize : ℕ := 7

/-! ## `log::Writer` -/

structure Writer where
  /-- The file. -/
  dest : Bytes
  blockOffset : ℕ

def Writer.init : Writer := ⟨[], 0⟩

/-- The header and the payload that `EmitPhysicalRecord` appends. -/
def physicalRecord (table : CrcTable) (t : RecordType) (data : Bytes) : Bytes :=
  let crc := crcExtend table (crcValue table [t.code]) data
  encodeFixed32 (crcMask crc) ++
    [UInt8.ofNat (data.length % 256), UInt8.ofNat (data.length / 256), t.code] ++ data

structure Extent where
  start : ℕ
  stop : ℕ
  deriving DecidableEq, Repr

/-- The start of a round of `AddRecord`: fill the trailer if there is no room for a header. -/
def Writer.switchBlock (w : Writer) : Writer :=
  let leftover := kBlockSize - w.blockOffset
  if leftover < kHeaderSize then ⟨w.dest ++ List.replicate leftover 0, 0⟩ else w

def Writer.emitPhysicalRecord (table : CrcTable) (w : Writer) (t : RecordType) (data : Bytes) :
    Writer :=
  ⟨w.dest ++ physicalRecord table t data, w.blockOffset + kHeaderSize + data.length⟩

def fragmentType (begin fin : Bool) : RecordType :=
  if begin && fin then .full else if begin then .first else if fin then .last else .middle

/-- The loop of `AddRecord`, with the extents of the fragments that it writes. -/
def Writer.addLoop (table : CrcTable) : ℕ → Bool → Bytes → Writer → Writer × List Extent
  | 0, _, _, w => (w, [])
  | fuel + 1, begin, data, w =>
    let w := w.switchBlock
    let avail := kBlockSize - w.blockOffset - kHeaderSize
    let fragmentLength := if data.length < avail then data.length else avail
    let t := fragmentType begin (data.length = fragmentLength)
    let w' := w.emitPhysicalRecord table t (data.take fragmentLength)
    let extent := ⟨w.dest.length, w'.dest.length⟩
    let left := data.drop fragmentLength
    if left.length > 0 then
      let (w'', extents) := addLoop table fuel false left w'
      (w'', extent :: extents)
    else (w', [extent])

/-- `AddRecord`; after the first round each round takes a byte of the record. -/
def Writer.addRecord (table : CrcTable) (w : Writer) (data : Bytes) : Writer × List Extent :=
  w.addLoop table (data.length + 2) true data

/-- Append records one after another; each record is returned with the extents of its fragments. -/
def Writer.addRecords (table : CrcTable) : Writer → List Bytes → Writer × List (Bytes × List Extent)
  | w, [] => (w, [])
  | w, data :: records =>
    let (w', extents) := w.addRecord table data
    let (w'', rest) := w'.addRecords table records
    (w'', (data, extents) :: rest)

/-! ## `log::Reader` -/

structure ReaderOptions where
  checksum : Bool
  initialOffset : ℕ

structure Reader where
  /-- What has not been read of the file. -/
  file : Bytes
  buffer : Bytes
  eof : Bool
  lastRecordOffset : ℕ
  endOfBufferOffset : ℕ
  /-- The calls of `reporter_->Corruption`. -/
  reports : List (ℕ × String)

def Reader.init (file : Bytes) : Reader := ⟨file, [], false, 0, 0, []⟩

variable (o : ReaderOptions) (r : Reader)

/-- `ReportDrop` and `ReportCorruption`; the offsets are unsigned numbers of 64 bits. -/
def Reader.reportCorruption (bytes : ℕ) (reason : String) : Reader :=
  if (o.initialOffset : ℤ) ≤ ((r.endOfBufferOffset : ℤ) - r.buffer.length - bytes) % 2 ^ 64 then
    { r with reports := r.reports ++ [(bytes, reason)] }
  else r

def Reader.skipToInitialBlock : Reader :=
  let offsetInBlock := o.initialOffset % kBlockSize
  let blockStart := o.initialOffset - offsetInBlock
  let blockStart := if offsetInBlock > kBlockSize - 6 then blockStart + kBlockSize else blockStart
  { r with endOfBufferOffset := blockStart, file := r.file.drop blockStart }

def Reader.readBlock : Reader :=
  let buffer := r.file.take kBlockSize
  { r with
    file := r.file.drop kBlockSize
    buffer := buffer
    endOfBufferOffset := r.endOfBufferOffset + buffer.length
    eof := decide (buffer.length < kBlockSize) }

/-- `kEof`, one more than `kMaxRecordType`. -/
def kEof : ℕ := 5

def kBadRecord : ℕ := 6

/-- The type of a header as an `unsigned int`, from a `char` that has a sign. -/
def typeCode (b : UInt8) : ℕ := if b < 128 then b.toNat else 2 ^ 32 - 256 + b.toNat

def Reader.dropBuffer (reason : String) : Reader :=
  Reader.reportCorruption o { r with buffer := [] } r.buffer.length reason

/-- The second part of `ReadPhysicalRecord`, with a header in the buffer. -/
def Reader.parseHeader (table : CrcTable) (o : ReaderOptions) (r : Reader) : ℕ × Bytes × Reader :=
  let type := r.buffer.getD 6 0
  let length := ofLittleEndian ((r.buffer.drop 4).take 2)
  if r.buffer.length < kHeaderSize + length then
    (kBadRecord, [], r.dropBuffer o "bad record length")
  else if type = 0 ∧ length = 0 then (kBadRecord, [], { r with buffer := [] })
  else if o.checksum ∧ crcValue table ((r.buffer.drop 6).take (1 + length)) ≠
      crcUnmask (decodeFixed32 r.buffer) then
    (kBadRecord, [], r.dropBuffer o "checksum mismatch")
  else
    let r' := { r with buffer := r.buffer.drop (kHeaderSize + length) }
    if ((r'.endOfBufferOffset : ℤ) - r'.buffer.length - kHeaderSize - length) % 2 ^ 64 <
        o.initialOffset then
      (kBadRecord, [], r')
    else (typeCode type, (r.buffer.drop kHeaderSize).take length, r')

/-- `ReadPhysicalRecord` when no block can be read any more. -/
def Reader.readBuffered (table : CrcTable) (o : ReaderOptions) (r : Reader) : ℕ × Bytes × Reader :=
  if r.buffer.length < kHeaderSize then
    if r.buffer = [] then (kEof, [], r)
    else (kEof, [], r.dropBuffer o "truncated record at end of file")
  else r.parseHeader table o

/-- `ReadPhysicalRecord`.  A block that is read in full has a header, and a shorter one is the last,
so the loop of the source goes round at most twice. -/
def Reader.readPhysicalRecord (table : CrcTable) (o : ReaderOptions) (r : Reader) :
    ℕ × Bytes × Reader :=
  if r.buffer.length < kHeaderSize ∧ r.eof = false then r.readBlock.readBuffered table o
  else r.readBuffered table o

def Reader.endPartial (inFragmentedRecord : Bool) (scratch : Bytes) (reason : String) : Reader :=
  if inFragmentedRecord ∧ scratch ≠ [] then r.reportCorruption o scratch.length reason else r

/-- The loop of `ReadRecord`: a record or `none` at the end of the file. -/
def Reader.readRecordLoop (table : CrcTable) (o : ReaderOptions) :
    ℕ → Bool → Bytes → ℕ → Reader → Option (Option Bytes × Reader)
  | 0, _, _, _, _ => none
  | fuel + 1, inFragmentedRecord, scratch, prospective, r =>
    let physicalOffset := r.endOfBufferOffset - r.buffer.length
    let (code, fragment, r) := r.readPhysicalRecord table o
    if code = RecordType.full.code.toNat then
      let r := r.endPartial o inFragmentedRecord scratch "partial record without end(1)"
      some (some fragment, { r with lastRecordOffset := physicalOffset })
    else if code = RecordType.first.code.toNat then
      let r := r.endPartial o inFragmentedRecord scratch "partial record without end(2)"
      readRecordLoop table o fuel true fragment physicalOffset r
    else if code = RecordType.middle.code.toNat then
      if inFragmentedRecord then
        readRecordLoop table o fuel true (scratch ++ fragment) prospective r
      else
        readRecordLoop table o fuel false scratch prospective
          (r.reportCorruption o fragment.length "missing start of fragmented record(1)")
    else if code = RecordType.last.code.toNat then
      if inFragmentedRecord then
        some (some (scratch ++ fragment), { r with lastRecordOffset := prospective })
      else
        readRecordLoop table o fuel false scratch prospective
          (r.reportCorruption o fragment.length "missing start of fragmented record(2)")
    else if code = kEof then
      some (none, if inFragmentedRecord then
        r.reportCorruption o scratch.length "partial record without end(3)" else r)
    else if code = kBadRecord then
      if inFragmentedRecord then
        readRecordLoop table o fuel false [] prospective
          (r.reportCorruption o scratch.length "error in middle of record")
      else readRecordLoop table o fuel false scratch prospective r
    else
      readRecordLoop table o fuel false [] prospective
        (r.reportCorruption o (fragment.length + if inFragmentedRecord then scratch.length else 0)
          ("unknown record type " ++ toString code))

/-- `ReadRecord`; every round but the last takes a byte of the file. -/
def Reader.readRecord (table : CrcTable) (o : ReaderOptions) (r : Reader) :
    Option (Option Bytes × Reader) :=
  let r := if r.lastRecordOffset < o.initialOffset then r.skipToInitialBlock o else r
  r.readRecordLoop table o (r.file.length + r.buffer.length + 1) false [] 0

/-- Repeated calls of `ReadRecord` until it returns false: the records. -/
def Reader.readRecords (table : CrcTable) (o : ReaderOptions) :
    ℕ → Reader → Option (List Bytes × Reader)
  | 0, _ => none
  | fuel + 1, r =>
    match r.readRecord table o with
    | none => none
    | some (none, r) => some ([], r)
    | some (some record, r) =>
      match r.readRecords table o fuel with
      | none => none
      | some (records, r) => some (record :: records, r)

/-! ## A crash -/

/-- The file is cut off, and some of its blocks are overwritten with zeros. -/
def damage (cut : ℕ) (zeroed : ℕ → Bool) (file : Bytes) : Bytes :=
  (file.take cut).mapIdx fun i b => if zeroed (i / kBlockSize) then 0 else b

end ServerStack.Leveldb.Log
