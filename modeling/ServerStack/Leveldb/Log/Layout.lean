import ServerStack.Leveldb.Log.Model

/-!
# The layout of a log

What `log::Writer` has written is a sequence of blocks of fragments.  Every block but the last is
filled up to less than a header; the fragments of a record follow each other, and together they hold
the record.
-/

namespace ServerStack.Leveldb.Log

open Endian List

/-! ## Checksums -/

section

variable (table : CrcTable)

theorem crcExtend_append (crc : UInt32) (a b : Bytes) :
    crcExtend table (crcExtend table crc a) b = crcExtend table crc (a ++ b) := by
  have hcancel : ∀ x : UInt32, x ^^^ 0xffffffff ^^^ 0xffffffff = x := fun x => by
    rw [UInt32.xor_assoc, UInt32.xor_self, UInt32.xor_zero]
  simp only [crcExtend, hcancel, foldl_append]

theorem crcUnmask_crcMask (crc : UInt32) : crcUnmask (crcMask crc) = crc := by
  have hrot : ((crc >>> 15) ||| (crc <<< 17)) + kMaskDelta - kMaskDelta =
      (crc >>> 15) ||| (crc <<< 17) := by
    rw [UInt32.add_sub_cancel]
  rw [crcUnmask, crcMask]
  rw [← UInt32.toBitVec_inj]
  apply BitVec.eq_of_getLsbD_eq
  intro i hi
  have hhigh : crc.toBitVec.getLsbD (15 + (17 + i)) = false := BitVec.getLsbD_of_ge _ _ (by omega)
  rcases Nat.lt_or_ge i 15 with hlow | hlow
  · simpa [hhigh, hlow, show 17 + i < 32 by omega] using (BitVec.getLsbD_eq_getElem hi).symm
  · simp [hhigh, hi, show ¬ i < 15 by omega, show ¬ 17 + i < 32 by omega,
      show 15 + (i - 15) = i by omega, show i - 15 < 17 by omega]

theorem decodeFixed32_encodeFixed32 (v : UInt32) (rest : Bytes) :
    decodeFixed32 (encodeFixed32 v ++ rest) = v := by
  have htake : (encodeFixed32 v ++ rest).take 4 = encodeFixed32 v :=
    take_left' (length_littleEndian 4 v.toNat)
  rw [decodeFixed32, htake, encodeFixed32, ofLittleEndian_littleEndian v.toNat_lt]
  exact UInt32.ofNat_toNat

/-! ## Fragments and blocks -/

structure Fragment where
  type : RecordType
  data : Bytes
  deriving DecidableEq, Repr

def Fragment.size (f : Fragment) : ℕ := kHeaderSize + f.data.length

def Fragment.bytes (f : Fragment) : Bytes := physicalRecord table f.type f.data

@[simp] theorem length_physicalRecord (t : RecordType) (data : Bytes) :
    (physicalRecord table t data).length = kHeaderSize + data.length := by
  simp only [physicalRecord, encodeFixed32, length_append, length_littleEndian,
    length_cons, length_nil, kHeaderSize]

@[simp] theorem Fragment.length_bytes (f : Fragment) :
    (f.bytes table).length = f.size := length_physicalRecord table f.type f.data

def blockBytes (b : List Fragment) : Bytes := b.flatMap (Fragment.bytes table)

def blockSize (b : List Fragment) : ℕ := (b.map Fragment.size).sum

@[simp] theorem length_blockBytes (b : List Fragment) :
    (blockBytes table b).length = blockSize b := by
  induction b with
  | nil => rfl
  | cons f b ih =>
    rw [blockBytes, flatMap_cons, length_append, Fragment.length_bytes, ← blockBytes, ih,
      blockSize, blockSize, map_cons, sum_cons]

theorem blockSize_append (b b' : List Fragment) :
    blockSize (b ++ b') = blockSize b + blockSize b' := by
  rw [blockSize, map_append, sum_append, ← blockSize, ← blockSize]

@[simp] theorem blockSize_cons (f : Fragment) (b : List Fragment) :
    blockSize (f :: b) = f.size + blockSize b := by
  rw [blockSize, map_cons, sum_cons, ← blockSize]

@[simp] theorem blockSize_nil : blockSize [] = 0 := rfl

def paddedBlock (b : List Fragment) : Bytes :=
  blockBytes table b ++ List.replicate (kBlockSize - blockSize b) 0

end

variable {b : List Fragment}

theorem length_paddedBlock (table : CrcTable) (h : blockSize b ≤ kBlockSize) :
    (paddedBlock table b).length = kBlockSize := by
  rw [paddedBlock, length_append, length_blockBytes, length_replicate]
  omega

/-- The fragments of a block that starts at `start`, with their extents. -/
def placeBlock (start : ℕ) : List Fragment → List (Fragment × Extent)
  | [] => []
  | f :: b => (f, ⟨start, start + f.size⟩) :: placeBlock (start + f.size) b

/-- The fragments of the blocks from number `i` on, with their extents. -/
def placeBlocks (i : ℕ) : List (List Fragment) → List (Fragment × Extent)
  | [] => []
  | b :: blocks => placeBlock (i * kBlockSize) b ++ placeBlocks (i + 1) blocks

theorem placeBlock_append (start : ℕ) (b b' : List Fragment) :
    placeBlock start (b ++ b') = placeBlock start b ++ placeBlock (start + blockSize b) b' := by
  induction b generalizing start with
  | nil => rfl
  | cons f b ih =>
    rw [cons_append, placeBlock, placeBlock, ih, cons_append, blockSize_cons, Nat.add_assoc]

theorem placeBlocks_append (i : ℕ) (blocks blocks' : List (List Fragment)) :
    placeBlocks i (blocks ++ blocks') =
      placeBlocks i blocks ++ placeBlocks (i + blocks.length) blocks' := by
  induction blocks generalizing i with
  | nil => rfl
  | cons b blocks ih =>
    rw [cons_append, placeBlocks, placeBlocks, ih, append_assoc, length_cons,
      Nat.add_assoc, Nat.add_comm 1]

theorem placeBlocks_singleton (i : ℕ) (b : List Fragment) :
    placeBlocks i [b] = placeBlock (i * kBlockSize) b := by
  rw [placeBlocks, placeBlocks, append_nil]

theorem mem_placeBlock {start : ℕ} {x : Fragment × Extent} (h : x ∈ placeBlock start b) :
    start ≤ x.2.start ∧ x.2.start + kHeaderSize ≤ x.2.stop ∧ x.2.stop ≤ start + blockSize b := by
  induction b generalizing start with
  | nil => cases h
  | cons f b ih =>
    have hsize : f.size = kHeaderSize + f.data.length := rfl
    rw [blockSize_cons]
    rcases mem_cons.1 h with rfl | h
    · exact ⟨le_rfl, by simp only [hsize]; omega, by simp only; omega⟩
    · obtain ⟨hlow, hsize', hhigh⟩ := ih h
      exact ⟨by omega, hsize', by omega⟩

theorem le_start_of_mem_placeBlocks {i : ℕ} {blocks : List (List Fragment)} {x : Fragment × Extent}
    (h : x ∈ placeBlocks i blocks) : i * kBlockSize ≤ x.2.start ∧ x.2.start < x.2.stop := by
  induction blocks generalizing i with
  | nil => cases h
  | cons b blocks ih =>
    rcases mem_append.1 h with h | h
    · obtain ⟨hlow, hsize, -⟩ := mem_placeBlock h
      have : kHeaderSize = 7 := rfl
      exact ⟨hlow, by omega⟩
    · obtain ⟨hlow, hlt⟩ := ih h
      rw [Nat.succ_mul] at hlow
      exact ⟨by omega, hlt⟩

/-! ## Records -/

inductive IsTail : Bytes → List Fragment → Prop
  | last (data : Bytes) : IsTail data [⟨.last, data⟩]
  | middle (data : Bytes) {rest : Bytes} {b : List Fragment} :
      IsTail rest b → IsTail (data ++ rest) (⟨.middle, data⟩ :: b)

inductive IsRecord : Bytes → List Fragment → Prop
  | full (data : Bytes) : IsRecord data [⟨.full, data⟩]
  | first (data : Bytes) {rest : Bytes} {b : List Fragment} :
      IsTail rest b → IsRecord (data ++ rest) (⟨.first, data⟩ :: b)

def IsRest : Bool → Bytes → List Fragment → Prop
  | true => IsRecord
  | false => IsTail

theorem isRest_single (begin : Bool) (data : Bytes) :
    IsRest begin data [⟨fragmentType begin true, data⟩] := by
  cases begin with
  | true => exact .full data
  | false => exact .last data

theorem IsTail.isRest_cons {rest : Bytes} (h : IsTail rest b) (begin : Bool) (data : Bytes) :
    IsRest begin (data ++ rest) (⟨fragmentType begin false, data⟩ :: b) := by
  cases begin with
  | true => exact .first data h
  | false => exact .middle data h

/-! ## The writer -/

structure IsLayout (table : CrcTable) (w : Writer) (done : List (List Fragment))
    (current : List Fragment) : Prop where
  dest : w.dest = done.flatMap (paddedBlock table) ++ blockBytes table current
  offset : w.blockOffset = blockSize current
  filled : ∀ b ∈ done, blockSize b ≤ kBlockSize ∧ kBlockSize < blockSize b + kHeaderSize
  fits : blockSize current ≤ kBlockSize

theorem length_flatMap_paddedBlock (table : CrcTable) {blocks : List (List Fragment)}
    (h : ∀ b ∈ blocks, blockSize b ≤ kBlockSize) :
    (blocks.flatMap (paddedBlock table)).length = blocks.length * kBlockSize := by
  induction blocks with
  | nil => simp
  | cons b blocks ih =>
    obtain ⟨hb, hblocks⟩ := forall_mem_cons.1 h
    rw [flatMap_cons, length_append, length_paddedBlock table hb, ih hblocks,
      length_cons, Nat.succ_mul, Nat.add_comm]

variable {table : CrcTable} {w : Writer} {done : List (List Fragment)} {current : List Fragment}

theorem IsLayout.length_dest (h : IsLayout table w done current) :
    w.dest.length = done.length * kBlockSize + blockSize current := by
  rw [h.dest, length_append, length_blockBytes,
    length_flatMap_paddedBlock table fun b hb => (h.filled b hb).1]

theorem isLayout_init (table : CrcTable) : IsLayout table Writer.init [] [] :=
  ⟨rfl, rfl, by simp, Nat.zero_le _⟩

def placed (done : List (List Fragment)) (current : List Fragment) : List (Fragment × Extent) :=
  placeBlocks 0 (done ++ [current])

section

variable (h : IsLayout table w done current)

include h

theorem IsLayout.switchBlock : ∃ done' current', IsLayout table w.switchBlock done' current' ∧
      placed done' current' = placed done current ∧
      blockSize current' + kHeaderSize ≤ kBlockSize ∧
      (blockSize current = kBlockSize → blockSize current' = 0) := by
  have hoffset := h.offset
  have hfits := h.fits
  have hheader : kHeaderSize = 7 := rfl
  have hblock : kBlockSize = 32768 := rfl
  rw [Writer.switchBlock]
  split_ifs with hleft
  · refine ⟨done ++ [current], [], ⟨?_, rfl, ?_, Nat.zero_le _⟩, ?_, ?_, fun _ => rfl⟩
    · rw [h.dest, flatMap_append, flatMap_singleton, paddedBlock, hoffset]
      simp [blockBytes]
    · intro b hb
      rcases mem_append.1 hb with hb | hb
      · exact h.filled b hb
      · rw [mem_singleton.1 hb]
        exact ⟨hfits, by omega⟩
    · rw [placed, placeBlocks_append, placeBlocks_singleton, placeBlock, append_nil, placed]
    · rw [blockSize_nil]
      omega
  · exact ⟨done, current, h, rfl, by omega, fun hfull => by omega⟩

theorem IsLayout.emit {t : RecordType} {data : Bytes}
    (hroom : blockSize current + kHeaderSize + data.length ≤ kBlockSize) :
    IsLayout table (w.emitPhysicalRecord table t data) done (current ++ [⟨t, data⟩]) ∧
      placed done (current ++ [⟨t, data⟩]) = placed done current ++
        [(⟨t, data⟩, ⟨w.dest.length, (w.emitPhysicalRecord table t data).dest.length⟩)] := by
  have hsize : blockSize [(⟨t, data⟩ : Fragment)] = kHeaderSize + data.length := by
    rw [blockSize_cons, blockSize_nil, Fragment.size, Nat.add_zero]
  have hlayout : IsLayout table (w.emitPhysicalRecord table t data) done
      (current ++ [⟨t, data⟩]) := by
    refine ⟨?_, ?_, h.filled, ?_⟩
    · rw [Writer.emitPhysicalRecord, h.dest, blockBytes, blockBytes, flatMap_append,
        flatMap_singleton, append_assoc]
      rfl
    · rw [Writer.emitPhysicalRecord, h.offset, blockSize_append, hsize, Nat.add_assoc]
    · rw [blockSize_append]
      omega
  refine ⟨hlayout, ?_⟩
  rw [hlayout.length_dest, h.length_dest, placed, placed, placeBlocks_append, placeBlocks_append,
    placeBlocks_singleton, placeBlocks_singleton, placeBlock_append, placeBlock, blockSize_append, Nat.zero_add, append_assoc, Nat.add_assoc]
  rfl

theorem IsLayout.addLoop {fuel : ℕ} {begin : Bool} {data : Bytes}
    (hfuel : data.length + (if blockSize current = kBlockSize then 0 else 1) < fuel) :
    ∃ done' current' fs, IsLayout table (w.addLoop table fuel begin data).1 done' current' ∧
      placed done' current' = placed done current ++ fs ∧
      fs.map Prod.snd = (w.addLoop table fuel begin data).2 ∧
      IsRest begin data (fs.map Prod.fst) := by
  have hheader : kHeaderSize = 7 := rfl
  have hblock : kBlockSize = 32768 := rfl
  induction fuel generalizing w done current begin data with
  | zero => omega
  | succ fuel ih =>
    obtain ⟨done₁, current₁, h₁, hplaced₁, hroom, hfull⟩ := h.switchBlock
    have hoffset := h₁.offset
    rw [Writer.addLoop]
    generalize hn : (if data.length < kBlockSize - w.switchBlock.blockOffset - kHeaderSize then
      data.length else kBlockSize - w.switchBlock.blockOffset - kHeaderSize) = n
    have hle : n ≤ data.length ∧ blockSize current₁ + kHeaderSize + n ≤ kBlockSize ∧
        (n < data.length → blockSize current₁ + kHeaderSize + n = kBlockSize) := by
      rw [← hn]
      split_ifs <;> omega
    have htake : (data.take n).length = n := by rw [length_take]; omega
    have hdrop : (data.drop n).length = data.length - n := length_drop
    generalize ht : fragmentType begin (decide (data.length = n)) = t
    obtain ⟨h₂, hplaced₂⟩ := @IsLayout.emit table _ done₁ current₁ h₁ t (data.take n)
      (by rw [htake]; exact hle.2.1)
    by_cases hleft : (data.drop n).length > 0
    · have hsize : blockSize (current₁ ++ [⟨t, data.take n⟩]) = kBlockSize := by
        rw [blockSize_append, blockSize_cons, blockSize_nil, Fragment.size, htake]
        omega
      have hfuel' : (data.drop n).length +
          (if blockSize (current₁ ++ [⟨t, data.take n⟩]) = kBlockSize then 0 else 1) < fuel := by
        rw [if_pos hsize]
        split_ifs at hfuel with hcurrent
        · omega
        · omega
      obtain ⟨done₃, current₃, fs, h₃, hplaced₃, hextents, hrecord⟩ :=
        @ih _ _ _ h₂ false _ hfuel'
      rw [if_pos hleft]
      refine ⟨done₃, current₃, (⟨t, data.take n⟩, ⟨w.switchBlock.dest.length,
        (w.switchBlock.emitPhysicalRecord table t (data.take n)).dest.length⟩) :: fs, h₃, ?_, ?_, ?_⟩
      · rw [hplaced₃, hplaced₂, hplaced₁, append_assoc, singleton_append]
      · rw [map_cons, hextents]
      · have hrest := hrecord.isRest_cons begin (data.take n)
        rw [take_append_drop] at hrest
        rw [← ht, decide_eq_false (by omega)]
        exact hrest
    · have hall : data.take n = data := take_of_length_le (by omega)
      rw [if_neg hleft]
      refine ⟨done₁, _, [_], h₂, by rw [hplaced₂, hplaced₁], rfl, ?_⟩
      rw [map_singleton, hall, ← ht, decide_eq_true (by omega)]
      exact isRest_single begin data

end

/-- The records with the extents of their fragments, and the fragments. -/
inductive IsRecords : List (Bytes × List Extent) → List (Fragment × Extent) → Prop
  | nil : IsRecords [] []
  | cons {data : Bytes} {fs rest : List (Fragment × Extent)} {records : List (Bytes × List Extent)} :
      IsRecord data (fs.map Prod.fst) → IsRecords records rest →
      IsRecords ((data, fs.map Prod.snd) :: records) (fs ++ rest)

theorem IsLayout.addRecords (h : IsLayout table w done current) (records : List Bytes) :
    ∃ done' current' fs, IsLayout table (w.addRecords table records).1 done' current' ∧
      placed done' current' = placed done current ++ fs ∧
      IsRecords (w.addRecords table records).2 fs ∧
      (w.addRecords table records).2.map Prod.fst = records := by
  induction records generalizing w done current with
  | nil => exact ⟨done, current, [], h, (append_nil _).symm, .nil, rfl⟩
  | cons data records ih =>
    obtain ⟨done₁, current₁, fs, h₁, hplaced₁, hextents, hrecord⟩ :=
      @IsLayout.addLoop table w done current h (data.length + 2) true data (by split_ifs <;> omega)
    obtain ⟨done₂, current₂, rest, h₂, hplaced₂, hrecords, hfst⟩ := ih h₁
    refine ⟨done₂, current₂, fs ++ rest, h₂, ?_, ?_, ?_⟩
    · rw [hplaced₂, hplaced₁, append_assoc]
    · have := IsRecords.cons hrecord hrecords
      rw [hextents] at this
      exact this
    · exact congrArg (data :: ·) hfst

end ServerStack.Leveldb.Log
