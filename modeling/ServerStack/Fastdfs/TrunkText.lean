import ServerStack.Fastdfs.TrunkRestore
import ServerStack.Lib.Outcome

/-!
# The text of the binlog and of the data file

A line is read back as the block that was printed, whatever the buffers of the readers.
-/

namespace ServerStack.Fastdfs

open Decimal Outcome Redis.Util Redis.Sds List TrunkMem

/-! ## Columns -/

theorem splitEx_cons {separator : UInt8} {column : Bytes} (h : ∀ b ∈ column, b ≠ separator)
    (count : ℕ) (rest : Bytes) : splitEx separator (count + 2) (column ++ separator :: rest) =
      column :: splitEx separator (count + 1) rest := by
  have htest : ∀ b ∈ column, (decide (b ≠ separator)) = true := fun b hb => decide_eq_true (h b hb)
  rw [splitEx, dropWhile_append_of_pos htest, dropWhile_cons_of_neg (by simp)]
  rw [takeWhile_append_of_pos htest, takeWhile_cons_of_neg (by simp), append_nil]

/-- The offset and the size of a block are printed without a sign, and fit an `int`. -/
structure Printable (info : TrunkFullInfo) : Prop where
  offset_nonneg : 0 ≤ info.file.offset
  offset_lt : info.file.offset < 2 ^ 31
  size_nonneg : 0 ≤ info.file.size
  size_lt : info.file.size < 2 ^ 31

def Numeral (b : UInt8) : Prop := IsDigit b ∨ b = 45

theorem Numeral.ne {b c : UInt8} (h : Numeral b) (hc : ¬ Numeral c) : b ≠ c := by
  rintro rfl
  exact hc h

instance (b : UInt8) : Decidable (Numeral b) := inferInstanceAs (Decidable (_ ∨ _))

theorem numeral_decimal {n : ℕ} : ∀ b ∈ decimal n, Numeral b := fun _ hb =>
  .inl (isDigit_of_mem_decimal hb)

theorem numeral_decimalInt {n : ℤ} : ∀ b ∈ decimalInt n, Numeral b := by
  intro b hb
  unfold decimalInt at hb
  split_ifs at hb
  · rcases mem_cons.1 hb with rfl | hb
    · exact .inr rfl
    · exact numeral_decimal b hb
  · exact numeral_decimal b hb

theorem atoi_decimalInt {n : ℤ} (hlo : -2 ^ 31 ≤ n) (hhi : n < 2 ^ 31) {rest : Bytes}
    (hrest : ∀ b ∈ rest.head?, ¬ IsDigit b) : atoi (decimalInt n ++ rest) = n := by
  unfold decimalInt
  split_ifs with hneg
  · rw [cons_append, atoi, strtoll_minus _ hrest, Int.bmod_def]
    split_ifs <;> omega
  · rw [atoi_decimal (by omega) hrest]
    omega

theorem toUnsignedChar_atoi (b : UInt8) : toUnsignedChar (atoi (decimal b.toNat)) = b := by
  have hlt : b.toNat < 256 := b.toNat_lt
  have hatoi := @atoi_decimal [] b.toNat (by omega) nofun
  rw [append_nil] at hatoi
  unfold toUnsignedChar
  rw [hatoi, Int.emod_eq_of_lt (by omega) (by omega), Int.toNat_natCast, UInt8.ofNat_toNat]

variable {info : TrunkFullInfo}

theorem readTrunkInfo_text (h : Printable info) {rest : Bytes}
    (hrest : ∀ b ∈ rest.head?, ¬ IsDigit b) :
    readTrunkInfo (decimal info.path.storePathIndex.toNat) (decimal info.path.subPathHigh.toNat)
      (decimal info.path.subPathLow.toNat) (decimalInt info.file.id.toInt)
      (decimalInt info.file.offset) (decimalInt info.file.size ++ rest) =
        { info with status := .free } := by
  have hoffset := h.offset_nonneg
  have hsize := h.size_nonneg
  have hid := @atoi_decimalInt info.file.id.toInt info.file.id.le_toInt info.file.id.toInt_lt [] nofun
  have hoffset := @atoi_decimalInt info.file.offset (by omega) h.offset_lt [] nofun
  rw [append_nil] at hid hoffset
  unfold readTrunkInfo
  rw [toUnsignedChar_atoi, toUnsignedChar_atoi, toUnsignedChar_atoi, hid, hoffset,
    atoi_decimalInt (by omega) h.size_lt hrest, Int32.ofInt_toInt]

/-! ## Lines -/

def blockText (info : TrunkFullInfo) : Bytes :=
  decimal info.path.storePathIndex.toNat ++ 32 :: (decimal info.path.subPathHigh.toNat ++
    32 :: (decimal info.path.subPathLow.toNat ++ 32 :: (decimalInt info.file.id.toInt ++
    32 :: (decimalInt info.file.offset ++ 32 :: decimalInt info.file.size))))

theorem fieldsText_eq (info : TrunkFullInfo) : fieldsText info = blockText info ++ [10] := by
  unfold fieldsText blockText
  simp only [append_assoc, cons_append]

def Plain (b : UInt8) : Prop := Numeral b ∨ b = 32

theorem plain_blockText : ∀ b ∈ blockText info, Plain b := by
  intro b hb
  unfold blockText at hb
  simp only [mem_append, mem_cons] at hb
  rcases hb with hb | rfl | hb | rfl | hb | rfl | hb | rfl | hb | rfl | hb
  all_goals first
    | exact .inr rfl
    | exact .inl (numeral_decimal b hb)
    | exact .inl (numeral_decimalInt b hb)

theorem splitEx_blockText (info : TrunkFullInfo) (rest : Bytes) :
    splitEx 32 6 (blockText info ++ rest) =
      [decimal info.path.storePathIndex.toNat, decimal info.path.subPathHigh.toNat,
        decimal info.path.subPathLow.toNat, decimalInt info.file.id.toInt,
        decimalInt info.file.offset, decimalInt info.file.size ++ rest] := by
  have hsep : ¬ Numeral 32 := by decide
  unfold blockText
  simp only [append_assoc, cons_append]
  rw [splitEx_cons fun b hb => (numeral_decimal b hb).ne hsep,
    splitEx_cons fun b hb => (numeral_decimal b hb).ne hsep,
    splitEx_cons fun b hb => (numeral_decimal b hb).ne hsep,
    splitEx_cons fun b hb => (numeral_decimalInt b hb).ne hsep,
    splitEx_cons fun b hb => (numeral_decimalInt b hb).ne hsep]
  rfl

theorem length_decimalInt_le {n : ℤ} (h : n.natAbs < 10 ^ 10) : (decimalInt n).length ≤ 11 := by
  have := @length_decimal_le n.natAbs 9 h
  unfold decimalInt
  split_ifs
  · rw [length_cons]
    omega
  · omega

theorem length_decimal_byte (b : UInt8) : (decimal b.toNat).length ≤ 3 :=
  @length_decimal_le b.toNat 2 (b.toNat_lt.trans_le (by decide))

theorem length_decimalInt_int32 (n : Int32) : (decimalInt n.toInt).length ≤ 11 := by
  have hlo := n.le_toInt
  have hhi := n.toInt_lt
  exact length_decimalInt_le (by omega)

/-- The two numbers of a block that the model does not bound are those of an `int`. -/
abbrev Small (info : TrunkFullInfo) : Prop :=
  info.file.offset.natAbs ≤ 2 ^ 31 ∧ info.file.size.natAbs ≤ 2 ^ 31

theorem Printable.small (h : Printable info) : Small info := by
  have := h.offset_nonneg
  have := h.offset_lt
  have := h.size_nonneg
  have := h.size_lt
  unfold Small
  omega

theorem length_blockText (h : Small info) : (blockText info).length ≤ 47 := by
  have := length_decimal_byte info.path.storePathIndex
  have := length_decimal_byte info.path.subPathHigh
  have := length_decimal_byte info.path.subPathLow
  have := length_decimalInt_int32 info.file.id
  have := @length_decimalInt_le info.file.offset (by have := h.1; omega)
  have := @length_decimalInt_le info.file.size (by have := h.2; omega)
  unfold blockText
  simp only [length_append, length_cons]
  omega

/-! ## Reading the binlog -/

def recordLine (timestamp : Int32) (opType : TrunkMem.OpType) (info : TrunkFullInfo) : Bytes :=
  decimalInt timestamp.toInt ++ 32 :: opType.char :: 32 :: blockText info

section

variable {timestamp : Int32} {opType : TrunkMem.OpType} {info : TrunkFullInfo}

theorem recordText_eq :
    recordText timestamp opType info = recordLine timestamp opType info ++ [10] := by
  unfold recordText recordLine
  rw [fieldsText_eq]
  simp only [append_assoc, cons_append]

theorem recordLine_ne : ∀ b ∈ recordLine timestamp opType info, b ≠ 10 ∧ b ≠ 0 := by
  have hplain : ∀ b, Plain b → b ≠ 10 ∧ b ≠ 0 := by
    rintro b h
    constructor <;> rintro rfl <;> exact absurd h (by unfold Plain; decide)
  have hchar : opType.char ≠ 10 ∧ opType.char ≠ 0 := by cases opType <;> decide
  intro b hb
  unfold recordLine at hb
  simp only [mem_append, mem_cons] at hb
  rcases hb with hb | rfl | rfl | rfl | hb
  · exact hplain b (.inl (numeral_decimalInt b hb))
  · exact ⟨by decide, by decide⟩
  · exact hchar
  · exact ⟨by decide, by decide⟩
  · exact hplain b (plain_blockText b hb)

theorem length_recordText (h : Small info) :
    (recordText timestamp opType info).length < 128 := by
  have := length_blockText h
  have := length_decimalInt_int32 timestamp
  rw [recordText_eq]
  unfold recordLine
  simp only [length_append, length_cons, length_nil]
  omega

end

namespace TrunkBinLogReader

def remaining (r : TrunkBinLogReader) : Bytes := r.buff ++ r.rest

/-- The buffer is not overfull, and the end is seen only at the end. -/
structure Proper (r : TrunkBinLogReader) : Prop where
  length_le : r.buff.length ≤ 8 * 1024
  atEnd : r.atEnd = true → r.rest = []

theorem drop_length_take (k : ℕ) (s : Bytes) : s.drop (s.take k).length = s.drop k := by
  rw [length_take]
  rcases le_total k s.length with hle | hle
  · rw [min_eq_left hle]
  · rw [min_eq_right hle, drop_length, drop_of_length_le hle]

variable {r : TrunkBinLogReader} {line more : Bytes}

theorem doLineRead_of_line {rest : Bytes} (hbuff : r.buff = line ++ 10 :: rest)
    (hline : ∀ b ∈ line, b ≠ 10) (hlen : line.length + 1 < 128) :
    r.doLineRead = ({ r with buff := rest }, 0, line ++ [10]) := by
  have htest : ∀ b ∈ line, decide (b ≠ 10) = true := fun b hb => decide_eq_true (hline b hb)
  unfold doLineRead
  rw [if_neg (by rw [hbuff, length_append, length_cons]; omega), hbuff,
    dropWhile_append_of_pos htest, dropWhile_cons_of_neg (by decide),
    takeWhile_append_of_pos htest, takeWhile_cons_of_neg (by decide), append_nil]
  dsimp only
  rw [if_neg (by rw [length_append, length_singleton]; omega)]

theorem doLineRead_of_none (h : ∀ b ∈ r.buff, b ≠ 10) : r.doLineRead = (r, enoent, []) := by
  unfold doLineRead
  rw [dropWhile_eq_nil_iff.2 fun b hb => decide_eq_true (h b hb)]
  split_ifs <;> rfl

theorem readLine_of_line (h : r.Proper) (hremaining : r.remaining = line ++ 10 :: more)
    (hline : ∀ b ∈ line, b ≠ 10) (hlen : line.length + 1 < 128) :
    ∃ r', r.readLine = (r', 0, line ++ [10]) ∧ r'.Proper ∧ r'.remaining = more ∧
      r'.binlogOffset = r.binlogOffset := by
  have hsplit : r.buff ++ r.rest = (line ++ [10]) ++ more := by
    rw [append_assoc, singleton_append]
    exact hremaining
  have hlength := h.length_le
  -- the line is in the buffer
  have hin : ∀ t, r.buff = line ++ 10 :: t → t ++ r.rest = more → ∃ r',
      r.readLine = (r', 0, line ++ [10]) ∧ r'.Proper ∧ r'.remaining = more ∧
        r'.binlogOffset = r.binlogOffset := by
    intro t hbuff hrest
    unfold readLine
    rw [doLineRead_of_line hbuff hline hlen]
    refine ⟨_, if_pos (by decide), ⟨?_, h.atEnd⟩, hrest, rfl⟩
    rw [hbuff, length_append, length_cons] at hlength
    dsimp only
    omega
  rcases append_eq_append_iff.1 hsplit with ⟨t, hbuff, hrest⟩ | ⟨t, hbuff, hrest⟩
  · rcases eq_nil_or_concat' t with rfl | ⟨t, b, rfl⟩
    · apply hin []
      · rw [hbuff, append_nil]
      · exact hrest
    -- the buffer ends within the line
    rw [← append_assoc] at hbuff
    obtain ⟨rfl, hb⟩ := append_inj' hbuff rfl
    obtain rfl : 10 = b := singleton_inj.1 hb
    rw [length_append] at hlen
    have hne : r.rest.take (8 * 1024 - r.buff.length) = t ++ 10 :: more.take
        (8 * 1024 - r.buff.length - (t.length + 1)) := by
      rw [hrest, append_assoc, singleton_append, take_append, take_of_length_le
        (by omega), show 8 * 1024 - r.buff.length - t.length =
          8 * 1024 - r.buff.length - (t.length + 1) + 1 by omega, take_succ_cons]
    have hpreread : r.preread = ({ r with
        buff := r.buff ++ r.rest.take (8 * 1024 - r.buff.length)
        rest := r.rest.drop (r.rest.take (8 * 1024 - r.buff.length)).length }, 0) := by
      unfold preread
      dsimp only
      rw [if_neg, if_neg (by omega), if_neg]
      · rw [hne, length_append, length_cons]
        omega
      · rintro ⟨hend, -⟩
        rw [h.atEnd hend] at hrest
        simp at hrest
    unfold readLine
    rw [doLineRead_of_none fun b hb => hline b (mem_append_left _ hb)]
    dsimp only
    rw [if_neg (by decide), hpreread]
    dsimp only
    rw [if_neg (by decide)]
    have hbuff' : r.buff ++ r.rest.take (8 * 1024 - r.buff.length) = (r.buff ++ t) ++ 10 ::
        more.take (8 * 1024 - r.buff.length - (t.length + 1)) := by
      rw [hne, append_assoc]
    refine ⟨_, doLineRead_of_line hbuff' hline (by rwa [length_append]), ⟨?_, fun hend => ?_⟩,
      ?_, rfl⟩
    · rw [length_take]
      omega
    · rw [h.atEnd hend, drop_nil]
    · have hall := take_append_drop (8 * 1024 - r.buff.length) r.rest
      unfold remaining
      rw [drop_length_take]
      rw [hne] at hall
      nth_rewrite 2 [hrest] at hall
      simpa using hall
  · rw [append_assoc, singleton_append] at hbuff
    exact hin t hbuff hrest.symm

theorem read_of_remaining_nil (h : r.remaining = []) :
    ∃ r', r.read = (r', enoent, 0, none) ∧ r'.binlogOffset = r.binlogOffset := by
  obtain ⟨hbuff, hrest⟩ := append_eq_nil_iff.1 h
  have hpreread : ∃ r', r.preread = (r', enoent) ∧ r'.binlogOffset = r.binlogOffset := by
    unfold preread
    rw [hbuff, hrest]
    by_cases hend : r.atEnd = true ∧ ([] : Bytes).length = 0
    · exact ⟨_, if_pos hend, rfl⟩
    · rw [if_neg hend]
      exact ⟨_, rfl, rfl⟩
  obtain ⟨r', hpreread, hoffset⟩ := hpreread
  refine ⟨r', ?_, hoffset⟩
  have hline : r.readLine = (r', enoent, []) := by
    unfold readLine
    rw [doLineRead_of_none (by rw [hbuff]; exact nofun)]
    dsimp only
    rw [hpreread]
    rfl
  unfold read
  rw [hline]
  rfl

theorem read_record (h : r.Proper) {timestamp : Int32} {opType : TrunkMem.OpType}
    (hinfo : Printable info)
    (hremaining : r.remaining = recordText timestamp opType info ++ more) :
    ∃ r', r.read = (r', 0, (recordText timestamp opType info).length,
        some ⟨opType.char, { info with status := .free }⟩) ∧
      r'.Proper ∧ r'.remaining = more ∧ r'.binlogOffset = r.binlogOffset := by
  have hlen := @length_recordText timestamp opType info hinfo.small
  rw [recordText_eq, append_assoc] at hremaining
  rw [recordText_eq] at hlen ⊢
  rw [length_append] at hlen
  obtain ⟨r', hread, hproper, hmore, hoffset⟩ := readLine_of_line h hremaining
    (fun b hb => (recordLine_ne b hb).1) hlen
  refine ⟨r', ?_, hproper, hmore, hoffset⟩
  have hnul : (recordLine timestamp opType info ++ [10]).takeWhile (· ≠ 0) =
      recordLine timestamp opType info ++ [10] := by
    rw [takeWhile_eq_self_iff]
    intro b hb
    rcases mem_append.1 hb with hb | hb
    · exact decide_eq_true (recordLine_ne b hb).2
    · rw [mem_singleton.1 hb]
      decide
  have hsplit : splitEx 32 8 (recordLine timestamp opType info ++ [10]) =
      decimalInt timestamp.toInt :: [opType.char] :: splitEx 32 6 (blockText info ++ [10]) := by
    have hsep : ¬ Numeral 32 := by decide
    have hchar : ∀ b ∈ [opType.char], b ≠ 32 := by
      intro b hb
      rw [mem_singleton.1 hb]
      cases opType <;> decide
    unfold recordLine
    rw [append_assoc, cons_append, cons_append, cons_append,
      splitEx_cons fun b hb => (numeral_decimalInt b hb).ne hsep]
    have hrest := splitEx_cons hchar 5 (blockText info ++ [10])
    rw [singleton_append] at hrest
    rw [hrest]
  unfold read
  rw [hread]
  dsimp only
  rw [hnul, hsplit, splitEx_blockText]
  dsimp only
  rw [readTrunkInfo_text hinfo fun b hb => by rw [← Option.some.inj hb]; decide]
  rfl

theorem init_proper (file : Bytes) (offset : ℕ) :
    (init file offset).Proper ∧ (init file offset).remaining = file.drop offset ∧
      (init file offset).binlogOffset = offset := by
  unfold init preread
  dsimp only
  rw [if_neg nofun, if_neg (by decide)]
  by_cases hzero : ((file.drop offset).take (8 * 1024 - ([] : Bytes).length)).length = 0
  · rw [if_pos hzero]
    refine ⟨⟨by simp, fun _ => ?_⟩, rfl, rfl⟩
    exact eq_nil_of_length_eq_zero (by simpa using hzero)
  · rw [if_neg hzero]
    refine ⟨⟨?_, nofun⟩, ?_, rfl⟩
    · rw [nil_append, length_take]
      exact min_le_left _ _
    · rw [drop_length_take]
      exact take_append_drop _ _

end TrunkBinLogReader

structure LogLine where
  timestamp : Int32
  opType : TrunkMem.OpType
  info : TrunkFullInfo

namespace LogLine

def text (line : LogLine) : Bytes := recordText line.timestamp line.opType line.info

def record (line : LogLine) : TrunkBinLogRecord :=
  ⟨line.opType.char, { line.info with status := .free }⟩

theorem text_ne_nil (line : LogLine) : line.text ≠ [] := by
  exact append_ne_nil_of_right_ne_nil _ (cons_ne_nil _ _)

theorem length_le_flatMap (lines : List LogLine) : lines.length ≤ (lines.flatMap text).length := by
  induction lines with
  | nil => exact le_rfl
  | cons line lines ih =>
    have := length_pos_iff.2 line.text_ne_nil
    rw [flatMap_cons, length_append, length_cons]
    omega

end LogLine

section

variable {config : TrunkConfig} {reload : Bool} {fail : TrunkFault → Prop}
  {P : List LogLine → TrunkMem → AvlTreeInfo TrunkFullInfo → Prop}

theorem restoreLoop_lines
    (hstep : ∀ line lines m tree, Printable line.info → P (line :: lines) m tree →
      Meets (m.restoreRecord config reload tree line.record)
        (fun r => r.2.2 = 0 ∧ P lines r.1 r.2.1) fail)
    {lines : List LogLine} (hlines : ∀ line ∈ lines, Printable line.info) {r : TrunkBinLogReader}
    (hr : r.Proper) (hremaining : r.remaining = lines.flatMap LogLine.text) {binlogSize fuel : ℕ}
    (hsize : binlogSize = r.binlogOffset + (lines.flatMap LogLine.text).length)
    (hfuel : lines.length < fuel) {m : TrunkMem} {tree : AvlTreeInfo TrunkFullInfo}
    (hP : P lines m tree) :
    Meets (restoreLoop config reload binlogSize fuel r m tree)
      (fun r => r.2.2 = 0 ∧ P [] r.1 r.2.1) fail := by
  induction lines generalizing r fuel m tree with
  | nil =>
    obtain ⟨fuel, rfl⟩ := Nat.exists_eq_add_of_lt hfuel
    obtain ⟨r', hread, hoffset⟩ := TrunkBinLogReader.read_of_remaining_nil hremaining
    have hend : r'.binlogOffset ≥ binlogSize := by
      rw [hsize, hoffset]
      exact le_rfl
    rw [restoreLoop, hread]
    dsimp only
    rw [if_pos hend]
    exact ⟨rfl, hP⟩
  | cons line lines ih =>
    obtain ⟨fuel, rfl⟩ := Nat.exists_eq_add_of_lt hfuel
    obtain ⟨hline, hlines⟩ := forall_mem_cons.1 hlines
    rw [flatMap_cons] at hremaining hsize
    obtain ⟨r', hread, hr', hmore, hoffset⟩ := TrunkBinLogReader.read_record hr hline hremaining
    rw [restoreLoop, hread]
    refine (hstep line lines m tree hline hP).bind ?_
    rintro ⟨m', tree', result⟩ ⟨hresult, hP'⟩
    obtain rfl : result = 0 := hresult
    have hproper : TrunkBinLogReader.Proper
        { r' with binlogOffset := r'.binlogOffset + line.text.length } :=
      ⟨hr'.length_le, hr'.atEnd⟩
    refine ih hlines hproper hmore ?_ ?_ hP'
    · rw [hsize, length_append, hoffset, ← Nat.add_assoc]
    · rw [length_cons] at hfuel ⊢
      omega

end

/-! ## Loading the data file -/

def lastPart (s : Bytes) : Bytes := s.rtakeWhile (· ≠ 10)

/-- No buffer of `storage_trunk_load` ends with the data file: the text left to read is longer than a
buffer, of which the last part is read again with the next one, or shorter. -/
def fits : ℕ → Bytes → Bool
  | 0, _ => false
  | fuel + 1, s =>
    if s.length < 4 * 1024 then true
    else if s.length = 4 * 1024 then false
    else fits fuel (lastPart (s.take (4 * 1024)) ++ s.drop (4 * 1024))

theorem lastPart_append_cons (line rest : Bytes) : lastPart (line ++ 10 :: rest) = lastPart rest := by
  unfold lastPart List.rtakeWhile
  rw [reverse_append, reverse_cons, append_assoc, takeWhile_append]
  split_ifs with hall
  · have hself := takeWhile_prefix (fun b : UInt8 => decide (b ≠ 10)) |>.eq_of_length hall
    rw [singleton_append, takeWhile_cons_of_neg (by decide), append_nil, hself]
  · rfl

theorem lastPart_of_forall {s : Bytes} (h : ∀ b ∈ s, b ≠ 10) : lastPart s = s :=
  rtakeWhile_eq_self_iff.2 fun b hb => decide_eq_true (h b hb)

theorem plain_ne {b : UInt8} (h : Plain b) : b ≠ 10 ∧ b ≠ 0 := by
  constructor <;> rintro rfl <;> exact absurd h (by unfold Plain; decide)

theorem cutLine_of_line {line rest : Bytes} (h : ∀ b ∈ line, b ≠ 10 ∧ b ≠ 0) :
    cutLine (line ++ 10 :: rest) = some (line, rest) := by
  have htest : ∀ b ∈ line, decide (b ≠ 10 ∧ b ≠ 0) = true := fun b hb => decide_eq_true (h b hb)
  unfold cutLine
  rw [takeWhile_append_of_pos htest, takeWhile_cons_of_neg (by decide), append_nil]
  dsimp only
  rw [drop_left]
  rfl

theorem cutLine_of_none {s : Bytes} (h : ∀ b ∈ s, b ≠ 10 ∧ b ≠ 0) : cutLine s = none := by
  have hself : s.takeWhile (fun b => decide (b ≠ 10 ∧ b ≠ 0)) = s :=
    takeWhile_eq_self_iff.2 fun b hb => decide_eq_true (h b hb)
  unfold cutLine
  rw [hself]
  dsimp only
  rw [drop_length]

theorem take_drop_line {line : Bytes} {n : ℕ} (rest : Bytes) (h : line.length < n) :
    (line ++ 10 :: rest).take n = line ++ 10 :: rest.take (n - line.length - 1) ∧
      (line ++ 10 :: rest).drop n = rest.drop (n - line.length - 1) := by
  obtain ⟨k, hk⟩ : ∃ k, n - line.length = k + 1 := ⟨n - line.length - 1, by omega⟩
  rw [take_append, drop_append, take_of_length_le h.le, drop_of_length_le h.le, hk]
  exact ⟨rfl, rfl⟩

variable {config : TrunkConfig} {fail : TrunkFault → Prop}
  {P : List TrunkFullInfo → TrunkMem → Prop}

/-- What the loop of `storage_trunk_load` knows about its buffer, and whether no later one ends with
the data file. -/
def Loading (ok : Bool) (current : Bytes) (bytes : ℕ) (rest : Bytes) : Prop :=
  bytes < 4 * 1024 ∧ rest = [] ∧ ok = true ∨ bytes = 4 * 1024 ∧ rest = [] ∧ ok = false ∨
    bytes = 4 * 1024 ∧ rest ≠ [] ∧
      ∃ fuel, rest.length < fuel ∧ fits fuel (lastPart current ++ rest) = ok

theorem loading_of_fits {s : Bytes} {ok : Bool} {fuel : ℕ} (hfuel : s.length < fuel + 4000)
    (hpos : 0 < fuel) (h : fits fuel s = ok) :
    Loading ok (s.take (4 * 1024)) (s.take (4 * 1024)).length (s.drop (4 * 1024)) := by
  obtain ⟨fuel, rfl⟩ := Nat.exists_eq_add_of_le' hpos
  rw [fits] at h
  rw [length_take]
  split_ifs at h with hlt heq
  · exact .inl ⟨by omega, drop_of_length_le hlt.le, h.symm⟩
  · exact .inr (.inl ⟨by omega, drop_of_length_le heq.le, h.symm⟩)
  · refine .inr (.inr ⟨by omega, ?_, fuel, by rw [length_drop]; omega, h⟩)
    rw [Ne, drop_eq_nil_iff]
    omega

theorem Loading.line {ok : Bool} {line current rest : Bytes} {bytes : ℕ}
    (h : Loading ok (line ++ 10 :: current) bytes rest) : Loading ok current bytes rest := by
  unfold Loading at h
  rwa [lastPart_append_cons] at h

theorem loadLoop_refill (m : TrunkMem) (fuel : ℕ) {current rest : Bytes}
    (hcurrent : ∀ b ∈ current, b ≠ 10 ∧ b ≠ 0) (hlength : current.length ≤ 64) (hrest : rest ≠ []) :
    loadLoop config (fuel + 1) m current (4 * 1024) rest =
      loadLoop config fuel m ((current ++ rest).take (4 * 1024))
        ((current ++ rest).take (4 * 1024)).length ((current ++ rest).drop (4 * 1024)) := by
  have hself : current.takeWhile (fun b => decide (b ≠ 0)) = current :=
    takeWhile_eq_self_iff.2 fun b hb => decide_eq_true (hcurrent b hb).2
  have hpos := length_pos_iff.2 hrest
  rw [loadLoop, cutLine_of_none hcurrent]
  have htake : (current ++ rest).take (4 * 1024) =
      current ++ rest.take (4 * 1024 - current.length) := by
    rw [take_append, take_of_length_le (by omega : current.length ≤ 4 * 1024)]
  have hdrop : (current ++ rest).drop (4 * 1024) = rest.drop (4 * 1024 - current.length) := by
    rw [drop_append, drop_of_length_le (by omega : current.length ≤ 4 * 1024), nil_append]
  rw [if_neg (lt_irrefl _), hself, if_neg (by omega), if_neg (by rw [length_take]; omega),
    htake, hdrop, length_append, TrunkBinLogReader.drop_length_take]

theorem loadLoop_blocks (hstep : ∀ info infos m, Printable info → P (info :: infos) m →
      Meets (m.addSpaceByTrunk config { info with status := .free })
        (fun r => r.2 = 0 ∧ P infos r.1) fail)
    {infos : List TrunkFullInfo} (hinfos : ∀ info ∈ infos, Printable info) {ok : Bool}
    {current rest : Bytes} {bytes fuel : ℕ} (htext : current ++ rest = infos.flatMap fieldsText)
    (hloading : Loading ok current bytes rest) (hfuel : 2 * infos.length < fuel) {m : TrunkMem}
    (hP : P infos m) :
    Meets (loadLoop config fuel m current bytes rest)
      (fun r => r.2 = (if ok then 0 else enoent) ∧ P [] r.1) fail := by
  induction infos generalizing current rest bytes fuel m with
  | nil =>
    obtain ⟨fuel, rfl⟩ := Nat.exists_eq_add_of_lt hfuel
    obtain ⟨rfl, rfl⟩ := append_eq_nil_iff.1 htext
    rw [loadLoop]
    rcases hloading with ⟨hbytes, -, rfl⟩ | ⟨rfl, -, rfl⟩ | h
    · rw [if_pos hbytes]
      exact ⟨rfl, hP⟩
    · exact ⟨rfl, hP⟩
    · exact absurd rfl h.2.1
  | cons info infos ih =>
    obtain ⟨hinfo, hinfos⟩ := forall_mem_cons.1 hinfos
    rw [flatMap_cons, fieldsText_eq, append_assoc, singleton_append] at htext
    have hplain : ∀ b ∈ blockText info, b ≠ 10 ∧ b ≠ 0 := fun b hb => plain_ne (plain_blockText b hb)
    -- a step with the line in the buffer
    have hline : ∀ {current rest : Bytes} {bytes fuel : ℕ},
        current ++ rest = infos.flatMap fieldsText →
        Loading ok (blockText info ++ 10 :: current) bytes rest → 2 * infos.length < fuel →
        Meets (loadLoop config (fuel + 1) m (blockText info ++ 10 :: current) bytes rest)
          (fun r => r.2 = (if ok then 0 else enoent) ∧ P [] r.1) fail := by
      intro current rest bytes fuel htext hloading hfuel
      have hsplit := splitEx_blockText info []
      have hread := @readTrunkInfo_text info hinfo [] (by simp)
      rw [append_nil] at hsplit
      rw [loadLoop, cutLine_of_line hplain]
      dsimp only
      rw [hsplit]
      dsimp only
      rw [hread]
      refine (hstep info infos m hinfo hP).bind ?_
      rintro ⟨m', result⟩ ⟨hresult, hP'⟩
      obtain rfl : result = 0 := hresult
      exact ih hinfos htext hloading.line hfuel hP'
    rw [length_cons] at hfuel
    obtain ⟨fuel, rfl⟩ : ∃ k, fuel = k + 1 + 1 := ⟨fuel - 2, by omega⟩
    have hcut : current ++ rest = (blockText info ++ [10]) ++ infos.flatMap fieldsText := by
      rw [htext, append_assoc, singleton_append]
    rcases append_eq_append_iff.1 hcut with ⟨t, hcurrent, hrest⟩ | ⟨t, rfl, hrest⟩
    swap
    · rw [append_assoc] at hloading ⊢
      exact hline hrest.symm hloading (by omega)
    rcases eq_nil_or_concat' t with rfl | ⟨t, b, rfl⟩
    · rw [append_nil] at hcurrent
      subst hcurrent
      exact hline hrest hloading (by omega)
    -- the buffer ends within the line
    rw [← append_assoc] at hcurrent
    obtain ⟨hblock, hb⟩ := append_inj' hcurrent rfl
    obtain rfl : 10 = b := singleton_inj.1 hb
    have hcurrent : ∀ b ∈ current, b ≠ 10 ∧ b ≠ 0 := fun b hb =>
      hplain b (hblock ▸ mem_append_left _ hb)
    have hlength : current.length ≤ 47 := by
      have := length_blockText hinfo.small
      rw [hblock, length_append] at this
      omega
    have hne : rest ≠ [] := by
      rintro rfl
      simp at hrest
    unfold Loading at hloading
    rw [lastPart_of_forall fun b hb => (hcurrent b hb).1] at hloading
    obtain ⟨rfl, -, fuel', hfuel', hfits⟩ :=
      (hloading.resolve_left fun h => hne h.2.1).resolve_left fun h => hne h.2.1
    rw [loadLoop_refill m (fuel + 1) hcurrent (by omega) hne]
    have hload := loading_of_fits (by rw [length_append]; omega) (by omega) hfits
    obtain ⟨htake, hdrop⟩ := take_drop_line (infos.flatMap fieldsText)
      (show (blockText info).length < 4 * 1024 by have := length_blockText hinfo.small; omega)
    rw [← htext] at htake hdrop
    rw [htake, hdrop] at hload ⊢
    exact hline (take_append_drop _ _) hload (by omega)

end ServerStack.Fastdfs
