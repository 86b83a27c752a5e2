import ServerStack.Fastdfs.TrunkText

/-!
# The write cache of the trunk binlog

`trunk_binlog_write` prints a record behind the bytes of `trunk_binlog_write_cache_buff`, and
`trunk_binlog_write_buffer` copies the bytes of another server there; both write the cache to the
file when it is nearly full.  A write to the file takes all its bytes or none; the `fsync` behind it
may fail as well.
-/

namespace ServerStack.Fastdfs

open Outcome List TrunkMem

/-- `TRUNK_BINLOG_BUFFER_SIZE`. -/
def bufferSize : ℕ := 8 * 1024

/-- What becomes of a write to the file and the `fsync` behind it. -/
inductive FlushResult where
  | complete
  | writeFailed
  | fsyncFailed
  deriving DecidableEq, Repr

namespace TrunkBinlog

variable (log : TrunkBinlog)

/-- `trunk_binlog_fsync_ex` for the bytes `buff`; whether it returns 0. -/
def fsyncEx (buff : Bytes) (result : FlushResult) : TrunkBinlog × Bool :=
  if buff = [] then (log, true)
  else if result = .writeFailed then (log, false)
  else ({ log with file := log.file ++ buff }, result = .complete)

/-- `trunk_binlog_fsync`; after a failure the cache is kept. -/
def fsync (result : FlushResult) : TrunkBinlog × Bool :=
  let (log, done) := log.fsyncEx log.cache result
  (if done then { log with cache := [] } else log, done)

/-- `trunk_binlog_write`, with the outcome of the write to the file it may make. -/
def write (timestamp : Int32) (opType : OpType) (info : TrunkFullInfo) (result : FlushResult) :
    Except TrunkFault (TrunkBinlog × Bool) :=
  let text := recordText timestamp opType info
  -- `sprintf` writes a NUL behind the record
  if bufferSize < log.cache.length + text.length + 1 then throw .outside
  else
    let log := { log with cache := log.cache ++ text }
    if bufferSize - (log.cache.length : ℤ) < 128 then pure (log.fsync result)
    else pure (log, true)

/-- `trunk_binlog_write_buffer`, with the outcomes of the writes to the file. -/
def writeBuffer (buff : Bytes) (results : ℕ → FlushResult) :
    Except TrunkFault (TrunkBinlog × Bool) :=
  let (log, done) :=
    if bufferSize - (log.cache.length + buff.length : ℤ) < 128 then log.fsync (results 0)
    else (log, true)
  if done then
    if bufferSize ≤ buff.length then
      let (log, done) := if 0 < log.cache.length then log.fsync (results 1) else (log, true)
      if done then pure (log.fsyncEx buff (results 2)) else pure (log, false)
    else if bufferSize < log.cache.length + buff.length then throw .outside
    else pure ({ log with cache := log.cache ++ buff }, true)
  else pure (log, false)

end TrunkBinlog

/-- A call on the binlog, with the outcomes of its writes to the file. -/
inductive BinlogOp where
  | write (timestamp : Int32) (opType : OpType) (info : TrunkFullInfo) (small : Small info)
      (result : FlushResult)
  | writeBuffer (buff : Bytes) (results : ℕ → FlushResult)
  | fsync (result : FlushResult)

namespace BinlogOp

def text : BinlogOp → Bytes
  | write timestamp opType info _ _ => recordText timestamp opType info
  | writeBuffer buff _ => buff
  | fsync _ => []

def call (log : TrunkBinlog) : BinlogOp → Except TrunkFault (TrunkBinlog × Bool)
  | write timestamp opType info _ result => log.write timestamp opType info result
  | writeBuffer buff results => log.writeBuffer buff results
  | fsync result => pure (log.fsync result)

/-- A call, and the bytes accepted so far: those of the calls that returned success. -/
def step (s : TrunkBinlog × Bytes) (op : BinlogOp) : Except TrunkFault (TrunkBinlog × Bytes) :=
  (fun r => (r.1, if r.2 then s.2 ++ op.text else s.2)) <$> op.call s.1

/-- The call leaves room for a record: a record that fills the cache gets it written, and a buffer
keeps the distance from the end or does not go through the cache.  A write to the file that fails has
no effect. -/
def KeepsRoom : BinlogOp → Prop
  | write _ _ _ _ result => result = .complete
  | writeBuffer buff results => (buff.length + 128 ≤ bufferSize ∨ bufferSize ≤ buff.length) ∧
      ∀ i, results i ≠ .fsyncFailed
  | fsync result => result ≠ .fsyncFailed

end BinlogOp

/-! ## Runs -/

/-- There is room for a record, and nothing accepted is lost. -/
structure Ordered (log : TrunkBinlog) (accepted : Bytes) : Prop where
  room : log.cache.length + 128 ≤ bufferSize
  append : log.file ++ log.cache = accepted

variable {log : TrunkBinlog} {accepted : Bytes}

theorem Ordered.flushed (h : log.file ++ log.cache = accepted) :
    Ordered (binlogFsync log) accepted :=
  ⟨by simp [binlogFsync, bufferSize], by simpa [binlogFsync] using h⟩

theorem fsyncEx_eq {result : FlushResult} (hresult : result ≠ .fsyncFailed) (buff : Bytes) :
    log.fsyncEx buff result = if buff = [] ∨ result = .complete then
      ({ log with file := log.file ++ buff }, true) else (log, false) := by
  unfold TrunkBinlog.fsyncEx
  cases result with
  | complete => by_cases hbuff : buff = [] <;> simp [hbuff]
  | writeFailed => by_cases hbuff : buff = [] <;> simp [hbuff]
  | fsyncFailed => exact absurd rfl hresult

theorem fsync_eq {result : FlushResult} (hresult : result ≠ .fsyncFailed) :
    log.fsync result = if log.cache = [] ∨ result = .complete then (binlogFsync log, true)
      else (log, false) := by
  rw [TrunkBinlog.fsync, fsyncEx_eq hresult]
  split_ifs with hdone
  · rfl
  · rfl

theorem Ordered.fsync (h : Ordered log accepted) {result : FlushResult}
    (hresult : result ≠ .fsyncFailed) : Ordered (log.fsync result).1 accepted := by
  rw [fsync_eq hresult]
  split_ifs
  · exact .flushed h.append
  · exact h

theorem cache_fsync {result : FlushResult} (h : (log.fsync result).2 = true) :
    (log.fsync result).1.cache = [] := by
  unfold TrunkBinlog.fsync at h ⊢
  exact congrArg TrunkBinlog.cache (if_pos h)

theorem Ordered.writeBuffer (h : Ordered log accepted) {buff : Bytes} {results : ℕ → FlushResult}
    (hop : (BinlogOp.writeBuffer buff results).KeepsRoom) :
    Meets (log.writeBuffer buff results)
      (fun r => Ordered r.1 (if r.2 then accepted ++ buff else accepted)) (fun _ => False) := by
  obtain ⟨hbuff, hresults⟩ := hop
  simp only [TrunkBinlog.writeBuffer]
  by_cases hfull : bufferSize - (log.cache.length + buff.length : ℤ) < 128
  · -- the cache is empty when the buffer comes
    simp only [if_pos hfull]
    have hfsync := h.fsync (hresults 0)
    by_cases hdone : (log.fsync (results 0)).2 = true
    · have hcache := cache_fsync hdone
      have happend := hfsync.append
      rw [hcache, append_nil] at happend
      simp only [hdone, hcache, if_true, length_nil, lt_irrefl, if_false, fsyncEx_eq (hresults 2),
        nil_append]
      split_ifs with hlarge hok hover
      · exact ⟨by simp [bufferSize], by simp [happend]⟩
      · exact hfsync
      · omega
      · exact ⟨by simp only; omega, by simp [happend]⟩
    · simpa [hdone] using hfsync
  · have hsmall : ¬ bufferSize ≤ buff.length := by omega
    have hfits : ¬ bufferSize < log.cache.length + buff.length := by omega
    simp only [if_neg hfull, if_true, if_neg hsmall, if_neg hfits, meets_pure]
    exact ⟨by rw [length_append]; omega, by rw [← append_assoc, h.append]⟩

theorem Ordered.call (h : Ordered log accepted) {op : BinlogOp} (hop : op.KeepsRoom) :
    Meets (op.call log) (fun r => Ordered r.1 (if r.2 then accepted ++ op.text else accepted))
      (fun _ => False) := by
  have hroom := h.room
  cases op with
  | write timestamp opType info hsmall result =>
    have hlength := @length_recordText timestamp opType info hsmall
    have hfits : ¬ bufferSize < log.cache.length +
      (recordText timestamp opType info).length + 1 := by omega
    obtain rfl : result = .complete := hop
    simp only [BinlogOp.call, BinlogOp.text, TrunkBinlog.write, if_neg hfits,
      fsync_eq (show FlushResult.complete ≠ .fsyncFailed by decide), or_true, if_true]
    split_ifs with hfull
    · exact .flushed (by simp [← append_assoc, h.append])
    · exact ⟨by simp only; omega, by simp [← append_assoc, h.append]⟩
  | writeBuffer buff results => exact h.writeBuffer hop
  | fsync result => simpa [BinlogOp.call, BinlogOp.text] using h.fsync hop

theorem Ordered.run {ops : List BinlogOp} (hops : ∀ op ∈ ops, op.KeepsRoom)
    {s : TrunkBinlog × Bytes} (h : Ordered s.1 s.2) :
    Meets (ops.foldlM BinlogOp.step s) (fun s => Ordered s.1 s.2) (fun _ => False) := by
  induction ops generalizing s with
  | nil => exact h
  | cons op ops ih =>
    obtain ⟨hop, hops⟩ := forall_mem_cons.1 hops
    exact Meets.bind (h.call hop).map fun s' hs' => ih hops hs'

theorem foldlM_step_ordered (file : Bytes) {ops : List BinlogOp}
    (hops : ∀ op ∈ ops, op.KeepsRoom) :
    Meets (ops.foldlM BinlogOp.step (⟨file, []⟩, file))
      (fun s => s.1.cache.length + 1 ≤ bufferSize ∧ s.1.file ++ s.1.cache = s.2)
      (fun _ => False) := by
  have hstart : Ordered ⟨file, []⟩ file := ⟨by simp [bufferSize], append_nil file⟩
  exact (hstart.run hops).mono (fun s hs => ⟨by have := hs.room; omega, hs.append⟩) fun _ => id

/-- A buffer one byte short of the size of the cache fills it, and the next record is printed over
its end. -/
theorem foldlM_step_fullCache :
    [.writeBuffer (replicate 8191 65) fun _ => .complete,
      .write 0 .addSpace ⟨.free, ⟨0, 0, 0⟩, 1, 0, 256⟩ (by decide) .complete].foldlM
        BinlogOp.step (⟨[], []⟩, []) = .error .outside := by
  have htext : 0 < (recordText 0 .addSpace ⟨.free, ⟨0, 0, 0⟩, 1, 0, 256⟩).length := by decide +kernel
  have hbuff : (replicate 8191 (65 : UInt8)).length = 8191 := length_replicate
  generalize replicate 8191 (65 : UInt8) = buff at hbuff ⊢
  simp [BinlogOp.step, BinlogOp.call, TrunkBinlog.writeBuffer, TrunkBinlog.write, TrunkBinlog.fsync,
    TrunkBinlog.fsyncEx, bufferSize, hbuff]
  rw [if_pos (by omega)]
  rfl

theorem foldlM_step_ordered_two :
    Meets ([BinlogOp.writeBuffer [65, 10] fun _ => .complete,
        .write 0 .addSpace ⟨.free, ⟨0, 0, 0⟩, 1, 0, 256⟩ (by decide) .complete].foldlM
          BinlogOp.step (⟨[], []⟩, []))
      (fun s => s.1.cache.length + 1 ≤ bufferSize ∧ s.1.file ++ s.1.cache = s.2)
      (fun _ => False) :=
  foldlM_step_ordered [] (by simp [BinlogOp.KeepsRoom, bufferSize])

end ServerStack.Fastdfs
