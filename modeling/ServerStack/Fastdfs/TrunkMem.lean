import ServerStack.Fastdfs.AvlTree
import ServerStack.Fastdfs.Common
import ServerStack.Lib.BinarySearch
import ServerStack.Lib.Decimal
import ServerStack.Lib.Endian
import ServerStack.Lib.OrderedList

/-!
# Trunk space of `trunk_mem.c`, `trunk_free_block_checker.c` and `trunk_sync.c`

A free block is a node that two indexes point to: the chain of its size in an AVL tree of sizes, and
the array of its trunk file, sorted by offset, in an AVL tree of files.  Every change of the free
space is a line of the binlog.  Offsets and sizes are numbers here: a file is shorter than 2^31
bytes, and `size + 1` of the search for a larger slot, where it wraps, compares with every size as
the number does.
-/

namespace ServerStack.Fastdfs

open BinarySearch Decimal Endian OrderedList Function

/-! ## Types -/

structure TrunkPathInfo where
  storePathIndex : UInt8
  subPathHigh : UInt8
  subPathLow : UInt8
  deriving DecidableEq

structure TrunkFileInfo where
  id : Int32
  offset : ℤ
  size : ℤ
  deriving DecidableEq

/-- `FDFS_TRUNK_STATUS_FREE` and `FDFS_TRUNK_STATUS_HOLD`. -/
inductive TrunkStatus where
  | free
  | hold
  deriving DecidableEq

structure TrunkFullInfo where
  status : TrunkStatus
  path : TrunkPathInfo
  file : TrunkFileInfo
  deriving DecidableEq

structure TrunkFileIdentifier where
  path : TrunkPathInfo
  id : Int32
  deriving DecidableEq

/-- `FILL_FILE_IDENTIFIER`. -/
def TrunkFullInfo.identifier (info : TrunkFullInfo) : TrunkFileIdentifier :=
  ⟨info.path, info.file.id⟩

/-- The memory of an identifier; a byte of padding stands before the number. -/
def TrunkFileIdentifier.bytes (target : TrunkFileIdentifier) : List UInt8 :=
  target.path.storePathIndex :: target.path.subPathHigh :: target.path.subPathLow :: 0 ::
    littleEndian 4 target.id.toUInt32.toNat

/-- The address of an `FDFSTrunkNode`. -/
abbrev NodeId := ℕ

/-- `FDFSTrunkSlot`; the list is the chain of `next` pointers from `head`. -/
structure TrunkSlot where
  size : ℤ
  head : List NodeId
  deriving DecidableEq

/-- `FDFSTrunksById`; the count of the array is the length of the list. -/
structure TrunksById where
  trunkFileId : TrunkFileIdentifier
  alloc : ℕ
  blocks : List NodeId
  deriving DecidableEq

/-- `storage_trunk_node_compare_size`. -/
def compareSize (p₁ p₂ : TrunkSlot) : ℤ := p₁.size - p₂.size

/-- `storage_trunk_node_compare_entry`. -/
def compareEntry (p₁ p₂ : TrunksById) : ℤ := memcmp p₁.trunkFileId.bytes p₂.trunkFileId.bytes

/-- What the tracker's configuration says; the bounds are checked where it is read. -/
structure TrunkConfig where
  slotMinSize : ℤ
  slotMaxSize : ℤ
  trunkFileSize : ℤ
  ifTrunkerSelf : Bool
  trunkCreateFileAdvance : Bool
  trunkCreateFileSpaceThreshold : ℤ
  slotMinSize_pos : 0 < slotMinSize
  slotMaxSize_le : slotMaxSize ≤ trunkFileSize
  trunkFileSize_pos : 0 < trunkFileSize
  trunkFileSize_lt : trunkFileSize < 2 ^ 31

/-- The binlog file, and `trunk_binlog_write_cache_buff` behind it. -/
structure TrunkBinlog where
  file : List UInt8
  cache : List UInt8
  deriving DecidableEq

/-- The globals of the trunk server, with the memory of the nodes and the trunk files that exist. -/
structure TrunkMem where
  nodes : NodeId → TrunkFullInfo
  nextNode : NodeId
  treeInfoBySize : AvlTreeInfo TrunkSlot
  treeInfoById : AvlTreeInfo TrunksById
  trunkTotalFreeSpace : ℤ
  currentTrunkFileId : Int32
  files : List TrunkFileIdentifier
  trunkInitDone : Bool
  currentTime : Int32
  binlog : TrunkBinlog

/-- What ends a run: an index outside its array, memory that is not there (the server goes on after
`ENOMEM`, the model does not), or files that exist for every choice of their directory. -/
inductive TrunkFault where
  | outside
  | memory
  | unfinished
  deriving DecidableEq

namespace TrunkMem

/-! ## The blocks of a file -/

section

variable (m : TrunkMem)

/-- `blocks[i]->file`. -/
def blockAt (blocks : List NodeId) (i : ℤ) : Except TrunkFault TrunkFileInfo :=
  if 0 ≤ i then
    match blocks[i.toNat]? with
    | some n => .ok (m.nodes n).file
    | none => .error .outside
  else .error .outside

/-- The comparisons in the loop of `trunk_free_block_check_duplicate`. -/
def duplicateSide (file block : TrunkFileInfo) : Side :=
  if file.offset < block.offset then
    if block.offset < file.offset + file.size then .here else .before
  else if file.offset = block.offset then .here
  else if file.offset < block.offset + block.size then .here
  else .after

def freeBlockCheckDuplicate (info : TrunkFullInfo) : Except TrunkFault ℤ :=
  match m.treeInfoById.find ⟨info.identifier, 0, []⟩ with
  | none => .ok 0
  | some found =>
    if found.blocks.length = 0 then .ok 0
    else do
      let first ← m.blockAt found.blocks 0
      if info.file.offset + info.file.size ≤ first.offset then return 0
      let last ← m.blockAt found.blocks (found.blocks.length - 1)
      if info.file.offset ≥ last.offset + last.size then return 0
      let (overlap, _) ← search
        (fun mid => duplicateSide info.file <$> m.blockAt found.blocks mid) found.blocks.length
      return if overlap then eexist else 0

/-- `trunk_free_block_realloc`: an `int` that wraps asks for more memory than there is. -/
def freeBlockRealloc (newAlloc : ℕ) : Except TrunkFault ℕ :=
  if newAlloc < 2 ^ 31 then .ok newAlloc else .error .memory

/-- Room for one more block, at the beginning of `trunk_free_block_do_insert`. -/
def growAlloc (count alloc : ℕ) : Except TrunkFault ℕ :=
  if count ≥ alloc then freeBlockRealloc (if alloc = 0 then 32 else 2 * alloc) else .ok alloc

/-- The array gets smaller at the end of `trunk_free_block_delete`. -/
def shrinkAlloc (count alloc : ℕ) : Except TrunkFault ℕ :=
  if count < alloc / 2 ∧ count > 16 then freeBlockRealloc (alloc / 2) else .ok alloc

/-- The comparisons in the loops of `trunk_free_block_do_insert` and `trunk_free_block_delete`. -/
def offsetSide (file block : TrunkFileInfo) : Side :=
  if block.offset > file.offset then .before
  else if block.offset = file.offset then .here
  else .after

def freeBlockDoInsert (n : NodeId) (array : TrunksById) : Except TrunkFault (TrunksById × ℤ) := do
  let file := (m.nodes n).file
  let alloc ← growAlloc array.blocks.length array.alloc
  if array.blocks.length = 0 then return ({ array with alloc, blocks := [n] }, 0)
  let first ← m.blockAt array.blocks 0
  if file.offset < first.offset then
    return ({ array with alloc, blocks := n :: array.blocks }, 0)
  let last ← m.blockAt array.blocks (array.blocks.length - 1)
  if file.offset > last.offset then
    return ({ array with alloc, blocks := array.blocks ++ [n] }, 0)
  let (found, mid) ← search
    (fun mid => offsetSide file <$> m.blockAt array.blocks mid) array.blocks.length
  if found then return ({ array with alloc }, eexist)
  let block ← m.blockAt array.blocks mid
  let pos := if file.offset < block.offset then mid else mid + 1
  return ({ array with alloc, blocks := array.blocks.insertIdx pos.toNat n }, 0)

def freeBlockInsert (n : NodeId) : Except TrunkFault (TrunkMem × ℤ) :=
  let target : TrunksById := ⟨(m.nodes n).identifier, 0, []⟩
  match m.treeInfoById.find target with
  | none =>
    let (tree, result) := m.treeInfoById.insert true target
    if result ≠ 1 then .ok ({ m with treeInfoById := tree }, enomem)
    else do
      let (array, result) ← m.freeBlockDoInsert n target
      return ({ m with treeInfoById := tree.modify target fun _ => array }, result)
  | some found => do
    let (array, result) ← m.freeBlockDoInsert n found
    return ({ m with treeInfoById := m.treeInfoById.modify found fun _ => array }, result)

def freeBlockDelete (info : TrunkFullInfo) : Except TrunkFault (TrunkMem × ℤ) :=
  match m.treeInfoById.find ⟨info.identifier, 0, []⟩ with
  | none => .ok (m, enoent)
  | some found => do
    let (isFound, mid) ← search
      (fun mid => offsetSide info.file <$> m.blockAt found.blocks mid) found.blocks.length
    if ¬ isFound then return (m, enoent)
    let array := { found with blocks := found.blocks.eraseIdx mid.toNat }
    if array.blocks.length = 0 then
      let (tree, result) := (m.treeInfoById.delete found).1
      if result ≠ 1 then
        return ({ m with
          treeInfoById := tree.modify found fun _ => { found with alloc := 0, blocks := [] } },
          enoent)
      return ({ m with treeInfoById := tree }, 0)
    let alloc ← shrinkAlloc array.blocks.length array.alloc
    return ({ m with treeInfoById := m.treeInfoById.modify found fun _ => { array with alloc } }, 0)

end

/-! ## The binlog -/

/-- `TRUNK_OP_TYPE_ADD_SPACE` and `TRUNK_OP_TYPE_DEL_SPACE`. -/
inductive OpType where
  | addSpace
  | delSpace
  deriving DecidableEq

def OpType.char : OpType → UInt8
  | .addSpace => 65
  | .delSpace => 68

/-- The fields of a record, `"%d %d %d %d %d %d\n"`. -/
def fieldsText (info : TrunkFullInfo) : List UInt8 :=
  decimal info.path.storePathIndex.toNat ++ 32 :: decimal info.path.subPathHigh.toNat ++
    32 :: decimal info.path.subPathLow.toNat ++ 32 :: decimalInt info.file.id.toInt ++
    32 :: decimalInt info.file.offset ++ 32 :: decimalInt info.file.size ++ [10]

/-- A line of the binlog, `"%d %c %d %d %d %d %d %d\n"`. -/
def recordText (timestamp : Int32) (opType : OpType) (info : TrunkFullInfo) : List UInt8 :=
  decimalInt timestamp.toInt ++ 32 :: opType.char :: 32 :: fieldsText info

def binlogFsync (log : TrunkBinlog) : TrunkBinlog := ⟨log.file ++ log.cache, []⟩

def binlogWrite (log : TrunkBinlog) (timestamp : Int32) (opType : OpType) (info : TrunkFullInfo) :
    TrunkBinlog :=
  let log := { log with cache := log.cache ++ recordText timestamp opType info }
  if (8 * 1024 : ℤ) - log.cache.length < 128 then binlogFsync log else log

/-- The change of `g_trunk_total_free_space`, and the line of the binlog if there is to be one. -/
def noteSpace (m : TrunkMem) (writeBinLog : Bool) (opType : OpType) (info : TrunkFullInfo) :
    TrunkMem :=
  { m with
    trunkTotalFreeSpace :=
      match opType with
      | .addSpace => m.trunkTotalFreeSpace + info.file.size
      | .delSpace => m.trunkTotalFreeSpace - info.file.size
    binlog := if writeBinLog then binlogWrite m.binlog m.currentTime opType info else m.binlog }

def memBinlogWrite (m : TrunkMem) (opType : OpType) (info : TrunkFullInfo) : TrunkMem :=
  m.noteSpace true opType info

/-! ## The indexes -/

section

variable (config : TrunkConfig) (m : TrunkMem)

/-- The clock, `g_current_time`. -/
def setTime (now : Int32) : TrunkMem := { m with currentTime := now }

variable (info : TrunkFullInfo)

/-- `fast_mblock_alloc`: a node at a new address, with these contents. -/
def newNode : TrunkMem × NodeId :=
  ({ m with nodes := update m.nodes m.nextNode info, nextNode := m.nextNode + 1 }, m.nextNode)

/-- Put a node at the head of the chain of its size, in `trunk_add_free_block`; whether the chain
is in the tree. -/
def linkNode (n : NodeId) : TrunkMem × Bool :=
  match m.treeInfoBySize.find ⟨(m.nodes n).file.size, []⟩ with
  | none =>
    let (tree, result) := m.treeInfoBySize.insert true ⟨(m.nodes n).file.size, [n]⟩
    ({ m with treeInfoBySize := tree }, decide (result = 1))
  | some chain =>
    ({ m with
      treeInfoBySize :=
        m.treeInfoBySize.modify chain fun slot => { slot with head := n :: slot.head } }, true)

def addFreeBlock (n : NodeId) (writeBinLog : Bool) : Except TrunkFault (TrunkMem × ℤ) := do
  let info := m.nodes n
  let result ← m.freeBlockCheckDuplicate info
  if result ≠ 0 then return (m, result)
  let (m, linked) := m.linkNode n
  if ¬ linked then return (m, enomem)
  (m.noteSpace writeBinLog .addSpace info).freeBlockInsert n

/-- Take a node out of the chain of its slot; the slot goes with its last node,
`trunk_delete_size_tree_entry`. -/
def unlinkNode (slot : TrunkSlot) (n : NodeId) : TrunkMem :=
  if slot.head.erase n = [] then
    { m with treeInfoBySize := (m.treeInfoBySize.delete slot).1.1 }
  else
    { m with
      treeInfoBySize :=
        m.treeInfoBySize.modify slot fun slot => { slot with head := slot.head.erase n } }

/-- The loop of `trunk_delete_space` and `trunk_restore_node`: the slot of this size, and the node
in its chain that holds exactly this block. -/
def findNode : Option (TrunkSlot × NodeId) := do
  let slot ← m.treeInfoBySize.find ⟨info.file.size, []⟩
  let n ← slot.head.find? fun n => decide (m.nodes n = info)
  return (slot, n)

def deleteSpace (writeBinLog : Bool) : Except TrunkFault (TrunkMem × ℤ) :=
  match m.findNode info with
  | none => .ok (m, enoent)
  | some (slot, n) => do
    let (m, _) ← (m.unlinkNode slot n).freeBlockDelete (m.nodes n)
    return (m.noteSpace writeBinLog .delSpace (m.nodes n), 0)

def restoreNode : TrunkMem × ℤ :=
  match m.findNode info with
  | none => (m, enoent)
  | some (_, n) =>
    ({ m with nodes := update m.nodes n { m.nodes n with status := .free } }, 0)

def freeSpace (writeBinLog : Bool) : Except TrunkFault (TrunkMem × ℤ) :=
  if ¬ config.ifTrunkerSelf then .ok (m, einval)
  else if ¬ m.trunkInitDone ∧ writeBinLog then .ok (m, einval)
  else if info.file.size < config.slotMinSize then .ok (m, 0)
  else
    let (m, n) := m.newNode { info with status := .free }
    m.addFreeBlock n writeBinLog

def split (n : NodeId) (size : ℤ) : Except TrunkFault (TrunkMem × ℤ) := do
  let info := m.nodes n
  let m := m.memBinlogWrite .delSpace info
  if info.file.size - size < config.slotMinSize then return (m, 0)
  let (m, rest) := m.newNode { info with
      status := .free
      file := ⟨info.file.id, info.file.offset + size, info.file.size - size⟩ }
  let (m, result) ← m.addFreeBlock rest true
  if result ≠ 0 then return (m, result)
  return ({ m with
    nodes := update m.nodes n { info with file := { info.file with size } } }, 0)

/-! ## Trunk files -/

/-- Where a new file goes: the store path, if one has room, and the directories that
`storage_get_store_path` gives in each round. -/
structure FileChoice where
  storePathIndex : Option UInt8
  subPaths : List (UInt8 × UInt8)

def createNextFileLoop (storePathIndex : UInt8) :
    TrunkMem → List (UInt8 × UInt8) → Except TrunkFault (TrunkMem × TrunkFileIdentifier)
  | _, [] => .error .unfinished
  | m, (high, low) :: subPaths =>
    let file : TrunkFileIdentifier := ⟨⟨storePathIndex, high, low⟩, m.currentTrunkFileId + 1⟩
    let m := { m with currentTrunkFileId := file.id }
    if file ∈ m.files then createNextFileLoop storePathIndex m subPaths
    else .ok ({ m with files := file :: m.files }, file)

/-- `trunk_create_trunk_file`, with `trunk_create_next_file`; no node without a store path. -/
def createTrunkFile (choice : FileChoice) : Except TrunkFault (TrunkMem × Option NodeId × ℤ) :=
  match choice.storePathIndex with
  | none => .ok (m, none, enospc)
  | some storePathIndex => do
    let (m, file) ← createNextFileLoop storePathIndex m choice.subPaths
    let info : TrunkFullInfo := ⟨.free, file.path, ⟨file.id, 0, config.trunkFileSize⟩⟩
    let (m, n) := m.newNode info
    return (m.memBinlogWrite .addSpace info, some n, 0)

/-- The loops of `trunk_alloc_space`: the first node that is not on hold, in the smallest slot of at
least this size that has one. -/
def findFree : ℕ → ℤ → Option (TrunkSlot × NodeId)
  | 0, _ => none
  | fuel + 1, size =>
    match m.treeInfoBySize.findGe ⟨size, []⟩ with
    | none => none
    | some slot =>
      match slot.head.find? fun n => decide ((m.nodes n).status ≠ .hold) with
      | some n => some (slot, n)
      | none => findFree fuel (slot.size + 1)

/-- The block that `trunk_alloc_space` takes: a free one of sufficient size, or a new file. -/
def takeBlock (size : ℤ) (choice : FileChoice) : Except TrunkFault (TrunkMem × Option NodeId × ℤ) :=
  match m.findFree (config.trunkFileSize.toNat + 1) (max size config.slotMinSize) with
  | some (slot, n) => do
    let (m, _) ← (m.unlinkNode slot n).freeBlockDelete (m.nodes n)
    return (m, some n, 0)
  | none => m.createTrunkFile config choice

/-- `trunk_alloc_space`, with the block it returns if it succeeds. -/
def allocSpace (size : ℤ) (choice : FileChoice) :
    Except TrunkFault (TrunkMem × ℤ × Option TrunkFullInfo) :=
  if ¬ config.ifTrunkerSelf ∨ ¬ m.trunkInitDone then .ok (m, einval, none)
  else do
    match ← m.takeBlock config size choice with
    | (m, none, result) => return (m, result, none)
    | (m, some n, _) =>
      let (m, result) ← m.split config n size
      if result ≠ 0 then return (m, result, none)
      let m := { m with nodes := update m.nodes n { m.nodes n with status := .hold } }
      let (m, result) ← m.addFreeBlock n true
      return (m, result, if result = 0 then some (m.nodes n) else none)

def allocConfirm (status : ℤ) : Except TrunkFault (TrunkMem × ℤ) :=
  if ¬ config.ifTrunkerSelf ∨ ¬ m.trunkInitDone then .ok (m, einval)
  else if status = 0 ∨ status = eexist then m.deleteSpace { info with status := .hold } true
  else .ok (m.restoreNode { info with status := .hold })

/-- The loop of `trunk_create_trunk_file_advance`; a file that cannot be created is passed over. -/
def createFilesLoop : ℕ → List FileChoice → TrunkMem → ℤ → Except TrunkFault (TrunkMem × ℤ)
  | 0, _, m, result => .ok (m, result)
  | _ + 1, [], _, _ => .error .unfinished
  | count + 1, choice :: choices, m, _ => do
    match ← m.createTrunkFile config choice with
    | (m, none, result) => createFilesLoop count choices m result
    | (m, some n, _) =>
      let (m, result) ← m.addFreeBlock n false
      if result ≠ 0 then return (m, result)
      createFilesLoop count choices m result

/-- `trunk_create_trunk_file_advance`; the flag says that the store paths have room for the files. -/
def createTrunkFileAdvance (hasRoom : Bool) (choices : List FileChoice) :
    Except TrunkFault (TrunkMem × ℤ) :=
  if ¬ config.trunkCreateFileAdvance then .ok (m, einval)
  else if ¬ config.ifTrunkerSelf then .ok (m, enoent)
  else
    let allocSpace := config.trunkCreateFileSpaceThreshold - m.trunkTotalFreeSpace
    if allocSpace ≤ 0 then .ok (m, 0)
    else if ¬ hasRoom then .ok (m, enospc)
    else
      let fileCount := (allocSpace / config.trunkFileSize).bmod (2 ^ 32)
      createFilesLoop config fileCount.toNat choices m 0

end

/-- The trunk server after `storage_trunk_init` without any trunk file. -/
def empty : TrunkMem where
  nodes _ := ⟨.free, ⟨0, 0, 0⟩, ⟨0, 0, 0⟩⟩
  nextNode := 0
  treeInfoBySize := .init false compareSize
  treeInfoById := .init true compareEntry
  trunkTotalFreeSpace := 0
  currentTrunkFileId := 0
  files := []
  trunkInitDone := true
  currentTime := 0
  binlog := ⟨[], []⟩

end TrunkMem

end ServerStack.Fastdfs
