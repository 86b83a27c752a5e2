import ServerStack.Fastdfs.TrunkMem
import ServerStack.Redis.Sds

/-!
# Saving and restoring the free space

The free blocks are saved to a data file together with the size of the binlog at that time; on
start the data file is loaded and the binlog is replayed from there, `storage_trunk_save`,
`storage_trunk_load` and `storage_trunk_restore` of `trunk_mem.c`.
-/

namespace ServerStack.Fastdfs

open Decimal OrderedList Redis.Util Redis.Sds

/-! ## Lines of text -/

/-- `splitEx`: the columns of a C string, the last one with everything behind it. -/
def splitEx (separator : UInt8) : ℕ → Bytes → List Bytes
  | 0, _ => []
  | 1, src => [src]
  | count + 2, src =>
    match src.dropWhile (· ≠ separator) with
    | [] => [src]
    | _ :: rest => src.takeWhile (· ≠ separator) :: splitEx separator (count + 1) rest

/-- The conversion of an `int` to an `unsigned char`. -/
def toUnsignedChar (n : ℤ) : UInt8 := UInt8.ofNat (n % 256).toNat

def readTrunkInfo (index high low id offset size : Bytes) : TrunkFullInfo where
  status := .free
  path := ⟨toUnsignedChar (atoi index), toUnsignedChar (atoi high), toUnsignedChar (atoi low)⟩
  file := ⟨Int32.ofInt (atoi id), atoi offset, atoi size⟩

/-! ## Reading the binlog -/

/-- `TrunkBinLogReader`: the bytes in its buffer, and those of the file behind them; the flag says
that the file was read to its end. -/
structure TrunkBinLogReader where
  binlogOffset : ℕ
  buff : Bytes
  rest : Bytes
  atEnd : Bool

/-- `TrunkBinLogRecord`, of which the time is not used. -/
structure TrunkBinLogRecord where
  opType : UInt8
  trunk : TrunkFullInfo

namespace TrunkBinLogReader

variable (r : TrunkBinLogReader)

def preread : TrunkBinLogReader × ℤ :=
  if r.atEnd ∧ r.buff.length = 0 then (r, enoent)
  else if r.buff.length = 8 * 1024 then (r, 0)
  else
    let bytes := r.rest.take (8 * 1024 - r.buff.length)
    if bytes.length = 0 then ({ r with atEnd := true }, enoent)
    else ({ r with buff := r.buff ++ bytes, rest := r.rest.drop bytes.length }, 0)

def init (file : Bytes) (offset : ℕ) : TrunkBinLogReader :=
  (preread ⟨offset, [], file.drop offset, false⟩).1

/-- `trunk_binlog_do_line_read`, with the line and its newline. -/
def doLineRead : TrunkBinLogReader × ℤ × Bytes :=
  if r.buff.length = 0 then (r, enoent, [])
  else
    match r.buff.dropWhile (· ≠ 10) with
    | [] => (r, enoent, [])
    | _ :: rest =>
      let line := r.buff.takeWhile (· ≠ 10) ++ [10]
      if line.length ≥ 128 then (r, enospc, line) else ({ r with buff := rest }, 0, line)

def readLine : TrunkBinLogReader × ℤ × Bytes :=
  let (r, result, line) := r.doLineRead
  if result ≠ enoent then (r, result, line)
  else
    let (r, result) := r.preread
    if result ≠ 0 then (r, result, []) else r.doLineRead

/-- `trunk_binlog_read`, with the length of the line; no record if the line is not one. -/
def read : TrunkBinLogReader × ℤ × ℕ × Option TrunkBinLogRecord :=
  let (r, result, line) := r.readLine
  if result ≠ 0 then (r, result, line.length, none)
  else
    match splitEx 32 8 (line.takeWhile (· ≠ 0)) with
    | [_, opType, index, high, low, id, offset, size] =>
      (r, 0, line.length, some ⟨opType.headD 0, readTrunkInfo index high low id offset size⟩)
    | _ => (r, enoent, line.length, none)

end TrunkBinLogReader

namespace TrunkMem

/-! ## Replaying the binlog -/

/-- `storage_trunk_node_compare_offset`; the difference of two numbers of files is an `int`. -/
def compareOffset (p₁ p₂ : TrunkFullInfo) : ℤ :=
  let path (p : TrunkFullInfo) : List UInt8 :=
    [p.path.storePathIndex, p.path.subPathHigh, p.path.subPathLow]
  if memcmp (path p₁) (path p₂) ≠ 0 then memcmp (path p₁) (path p₂)
  else if (p₁.file.id - p₂.file.id).toInt ≠ 0 then (p₁.file.id - p₂.file.id).toInt
  else p₁.file.offset - p₂.file.offset

section

variable (config : TrunkConfig) (m : TrunkMem) (info : TrunkFullInfo)

def addSpaceByTrunk : Except TrunkFault (TrunkMem × ℤ) := do
  let (m, result) ← m.freeSpace config info false
  return (m, if result = 0 ∨ result = eexist then 0 else result)

/-- `trunk_add_space_by_node`, for a node with these contents. -/
def addSpaceByNode : Except TrunkFault (TrunkMem × ℤ) :=
  if info.file.size < config.slotMinSize then .ok (m, 0)
  else do
    let (m, n) := m.newNode info
    let (m, result) ← m.addFreeBlock n false
    return (m, if result = 0 ∨ result = eexist then 0 else result)

/-- `storage_trunk_save`: the text of the data file. -/
def storageTrunkSave : Bytes :=
  (m.treeInfoBySize.walk
    (fun slot text => (text ++ slot.head.flatMap fun n => fieldsText (m.nodes n), 0))
    (decimal m.binlog.file.length ++ [10])).1

/-- What `storage_trunk_restore` does with a record: from the beginning of the binlog the blocks are
collected in a tree by offset, otherwise they go to the indexes. -/
def restoreRecord (reload : Bool) (m : TrunkMem) (tree : AvlTreeInfo TrunkFullInfo)
    (record : TrunkBinLogRecord) :
    Except TrunkFault (TrunkMem × AvlTreeInfo TrunkFullInfo × ℤ) :=
  if record.opType = OpType.addSpace.char then
    if reload then .ok (m, (tree.insert true record.trunk).1, 0)
    else do
      let (m, result) ← m.addSpaceByTrunk config record.trunk
      return (m, tree, result)
  else if record.opType = OpType.delSpace.char then
    if reload then .ok (m, (tree.delete record.trunk).1.1, 0)
    else do
      let (m, result) ← m.deleteSpace record.trunk false
      return (m, tree, if result = enoent then 0 else result)
  else .ok (m, tree, 0)

def restoreLoop (reload : Bool) (binlogSize : ℕ) : ℕ → TrunkBinLogReader → TrunkMem →
    AvlTreeInfo TrunkFullInfo → Except TrunkFault (TrunkMem × AvlTreeInfo TrunkFullInfo × ℤ)
  | 0, _, _, _ => .error .unfinished
  | fuel + 1, r, m, tree =>
    match r.read with
    | (r, result, recordLength, none) =>
      if result ≠ enoent then .ok (m, tree, result)
      else if recordLength > 0 then
        restoreLoop reload binlogSize fuel
          { r with binlogOffset := r.binlogOffset + recordLength } m tree
      else .ok (m, tree, if r.binlogOffset ≥ binlogSize then 0 else einval)
    | (r, _, recordLength, some record) => do
      let (m, tree, result) ← m.restoreRecord config reload tree record
      if result ≠ 0 then return (m, tree, result)
      restoreLoop reload binlogSize fuel
        { r with binlogOffset := r.binlogOffset + recordLength } m tree

/-- `storage_trunk_add_free_blocks_callback`. -/
def addFreeBlocksCallback : Except TrunkFault TrunkMem → Except TrunkFault TrunkMem × ℤ
  | .error e => (.error e, 1)
  | .ok m =>
    match m.addSpaceByNode config info with
    | .error e => (.error e, 1)
    | .ok (m, result) => (.ok m, result)

/-- `storage_trunk_restore`, with its result and the data file if it was written. -/
def storageTrunkRestore (restoreOffset : ℤ) : Except TrunkFault (TrunkMem × ℤ × Option Bytes) :=
  let binlogSize := m.binlog.file.length
  if restoreOffset = binlogSize then .ok (m, 0, none)
  else if restoreOffset > binlogSize then .ok (m, 0, some m.storageTrunkSave)
  else do
    let reload := decide (restoreOffset = 0)
    let (m, tree, result) ← restoreLoop config reload binlogSize (binlogSize + 1)
      (.init m.binlog.file restoreOffset.toNat) m (.init true compareOffset)
    if result ≠ 0 then return (m, result, none)
    let (m, result) ←
      if reload then
        let (m, result) := tree.walk (addFreeBlocksCallback config) (.ok m)
        (·, result) <$> m
      else .ok (m, 0)
    return (m, result, if result = 0 then some m.storageTrunkSave else none)

/-! ## Loading the data file -/

/-- `strchr` for the newline: the line before it and what follows it. -/
def cutLine (s : Bytes) : Option (Bytes × Bytes) :=
  let line := s.takeWhile fun b => decide (b ≠ 10 ∧ b ≠ 0)
  match s.drop line.length with
  | 10 :: rest => some (line, rest)
  | _ => none

/-- The loop of `storage_trunk_load` over the lines: what is left in the buffer, the number of bytes
in it after the last read, and the rest of the file. -/
def loadLoop : ℕ → TrunkMem → Bytes → ℕ → Bytes → Except TrunkFault (TrunkMem × ℤ)
  | 0, _, _, _, _ => .error .unfinished
  | fuel + 1, m, current, bytes, rest =>
    match cutLine current with
    | none =>
      if bytes < 4 * 1024 then .ok (m, if current.headD 0 ≠ 0 then einval else 0)
      else
        let line := current.takeWhile (· ≠ 0)
        let more := rest.take (4 * 1024 - line.length)
        if line.length > 64 then .ok (m, einval)
        else if more.length = 0 then .ok (m, enoent)
        else
          loadLoop fuel m (line ++ more) (line.length + more.length) (rest.drop more.length)
    | some (line, current) =>
      match splitEx 32 6 line with
      | [index, high, low, id, offset, size] => do
        let (m, result) ← m.addSpaceByTrunk config (readTrunkInfo index high low id offset size)
        if result ≠ 0 then return (m, result)
        loadLoop fuel m current bytes rest
      | _ => .ok (m, einval)

/-- `storage_trunk_load`, with the data file if there is one and the occupancy check off. -/
def storageTrunkLoad (dataFile : Option Bytes) : Except TrunkFault (TrunkMem × ℤ × Option Bytes) :=
  match dataFile with
  | none => storageTrunkRestore config m 0
  | some file =>
    let buff := file.take (4 * 1024)
    match cutLine buff with
    | none => .ok (m, einval, none)
    | some (line, current) => do
      let (m, result) ←
        loadLoop config (file.length + 2) m current buff.length (file.drop buff.length)
      if result ≠ 0 then return (m, result, none)
      storageTrunkRestore config m (strtoll line).1

end

/-- The server started again: its indexes are empty, and what was not flushed is lost. -/
def restart (m : TrunkMem) : TrunkMem :=
  { empty with
    currentTrunkFileId := m.currentTrunkFileId
    files := m.files
    trunkInitDone := false
    binlog := ⟨m.binlog.file, []⟩ }

/-- `trunk_binlog_sync_func`: the binlog is flushed. -/
def flush (m : TrunkMem) : TrunkMem := { m with binlog := binlogFsync m.binlog }

end TrunkMem

end ServerStack.Fastdfs
