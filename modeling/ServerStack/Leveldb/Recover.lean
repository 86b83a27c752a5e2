import Mathlib

/-!
# Recovery at start

`DBImpl::Recover` and `DBImpl::RecoverLogFile`.  What the environment and the table builder answer
is given: the files of the directory, and for each log what its reader yields and how the tables
written for it end.
-/

namespace ServerStack.Leveldb.Recover

/-- `Status`, without its message. -/
inductive Status where
  | ok
  | notFound
  | corruption
  | notSupported
  | invalidArgument
  | ioError
  deriving DecidableEq

/-! ## One log -/

/-- A call of `ReadRecord` that returns a record, and what is done with it. -/
structure LogRecord where
  -- the reader reports damage before the record
  damaged : Bool
  size : ℕ
  insertInto : Status
  lastSequence : ℕ
  -- the memtable passes `write_buffer_size`
  full : Bool
  writeLevel0Table : Status

structure LogFile where
  newSequentialFile : Status
  records : List LogRecord
  -- the reader reports damage before the end
  damaged : Bool
  -- for the last memtable
  writeLevel0Table : Status

/-- What `RecoverLogFile` has done: the tables that it wrote, by how that ended, and whether the
reporter was told of damage. -/
structure LogRecovery where
  status : Status := .ok
  maxSequence : ℕ := 0
  tables : List Status := []
  dropped : Bool := false

variable (paranoidChecks : Bool)

def maybeIgnoreError (s : Status) : Status := if paranoidChecks then s else .ok

/-- `LogReporter::Corruption`; the reporter has the status in paranoid mode only. -/
def LogRecovery.corruption (st : LogRecovery) : LogRecovery :=
  { st with
    status := if paranoidChecks ∧ st.status = .ok then .corruption else st.status
    dropped := true }

def LogRecovery.write (st : LogRecovery) (s : Status) : LogRecovery :=
  { st with status := s, tables := st.tables ++ [s] }

/-- The loop over the records; `mem` says that there is a memtable. -/
def recoverRecords (log : LogFile) : List LogRecord → Bool → LogRecovery → LogRecovery
  | [], mem, st =>
    let st := if log.damaged then st.corruption paranoidChecks else st
    if st.status = .ok ∧ mem then st.write log.writeLevel0Table else st
  | r :: rest, mem, st =>
    let st := if r.damaged then st.corruption paranoidChecks else st
    if st.status ≠ .ok then st
    else if r.size < 12 then recoverRecords log rest mem (st.corruption paranoidChecks)
    else
      let st := { st with status := maybeIgnoreError paranoidChecks r.insertInto }
      if st.status ≠ .ok then st
      else
        let st := { st with maxSequence := max st.maxSequence r.lastSequence }
        if r.full then
          let st := st.write r.writeLevel0Table
          if st.status ≠ .ok then st else recoverRecords log rest false st
        else recoverRecords log rest true st

def recoverLogFile (log : LogFile) : LogRecovery :=
  if log.newSequentialFile ≠ .ok then
    { status := maybeIgnoreError paranoidChecks log.newSequentialFile }
  else recoverRecords paranoidChecks log log.records false {}

/-! ## The database -/

inductive FileType where
  | logFile
  | other
  deriving DecidableEq

/-- What `Recover` finds. -/
structure Directory where
  -- the lock, the file `CURRENT` and the options about it
  opened : Status
  -- the manifest, with what it says
  manifest : Status
  minLog : ℕ
  prevLog : ℕ
  liveFiles : List ℕ
  lastSequence : ℕ
  getChildren : Status
  -- the names that `ParseFileName` accepts
  children : List (ℕ × FileType)
  logFile : ℕ → LogFile

namespace Directory

variable (d : Directory)

/-- The logs that are replayed, in order. -/
def logs : List ℕ :=
  (d.children.filterMap fun (number, type) =>
    if type = .logFile ∧ (d.minLog ≤ number ∨ number = d.prevLog) then some number
    else none).insertionSort (· ≤ ·)

def FilesMissing : Prop := ∃ number ∈ d.liveFiles, number ∉ d.children.map Prod.fst

instance : Decidable d.FilesMissing := inferInstanceAs (Decidable (∃ number ∈ _, _))

/-- The loop over the logs, with the status and `max_sequence`. -/
def recoverLogs : List ℕ → Status → ℕ → Status × ℕ
  | [], s, maxSequence => (s, maxSequence)
  | log :: logs, _, maxSequence =>
    let st := recoverLogFile paranoidChecks (d.logFile log)
    recoverLogs logs st.status (max maxSequence st.maxSequence)

/-- `Recover`, with `LastSequence`. -/
def recover : Status × ℕ :=
  if d.opened ≠ .ok then (d.opened, d.lastSequence)
  else if d.manifest ≠ .ok then (d.manifest, d.lastSequence)
  else if d.getChildren ≠ .ok then (d.getChildren, d.lastSequence)
  else if d.FilesMissing then (.corruption, d.lastSequence)
  else
    let (s, maxSequence) := d.recoverLogs paranoidChecks d.logs .ok 0
    (s, if s = .ok then max d.lastSequence maxSequence else d.lastSequence)

end Directory

/-! ## Errors -/

variable {paranoidChecks} {log : LogFile} {st : LogRecovery} {mem : Bool}

/-- A log ends with `ok` only if no table failed and, in paranoid mode, nothing was dropped. -/
def LogRecovery.Reflects (paranoidChecks : Bool) (st : LogRecovery) : Prop :=
  st.status = .ok → (∀ s ∈ st.tables, s = .ok) ∧ (paranoidChecks → st.dropped = false)

theorem reflects_corruption (h : st.Reflects paranoidChecks) :
    (st.corruption paranoidChecks).Reflects paranoidChecks := by
  intro hok
  by_cases hst : st.status = .ok <;> cases paranoidChecks <;>
    simp [LogRecovery.corruption, hst] at hok
  exact ⟨(h hst).1, nofun⟩

theorem reflects_write (h : st.Reflects paranoidChecks) (hst : st.status = .ok) (s : Status) :
    (st.write s).Reflects paranoidChecks := by
  intro hok
  refine ⟨fun s' hs' => ?_, (h hst).2⟩
  rcases List.mem_append.1 hs' with hs' | hs'
  · exact (h hst).1 s' hs'
  · exact (List.mem_singleton.1 hs').trans hok

theorem reflects_recoverRecords {records : List LogRecord} (h : st.Reflects paranoidChecks) :
    (recoverRecords paranoidChecks log records mem st).Reflects paranoidChecks := by
  have hdamaged (damaged : Bool) {st : LogRecovery} (h : st.Reflects paranoidChecks) :
      (if damaged then st.corruption paranoidChecks else st).Reflects paranoidChecks := by
    split_ifs
    · exact reflects_corruption h
    · exact h
  induction records generalizing mem st with
  | nil =>
    have hst := hdamaged log.damaged h
    rw [recoverRecords]
    generalize (if log.damaged then st.corruption paranoidChecks else st) = st at hst ⊢
    split_ifs with hok
    · exact reflects_write hst hok.1 _
    · exact hst
  | cons r rest ih =>
    have hst := hdamaged r.damaged h
    rw [recoverRecords]
    generalize (if r.damaged then st.corruption paranoidChecks else st) = st at hst ⊢
    dsimp only
    split_ifs with hok hsize hinsert hfull hwrite
    · exact hst
    · exact ih (reflects_corruption hst)
    · exact fun h => absurd h hinsert
    · exact fun h => absurd h hwrite
    all_goals
      rw [not_not] at hok
      have hnext : LogRecovery.Reflects paranoidChecks { st with
          status := maybeIgnoreError paranoidChecks r.insertInto
          maxSequence := max st.maxSequence r.lastSequence } := fun _ => hst hok
    · exact ih (reflects_write hnext (not_not.1 hinsert) _)
    · exact ih hnext

theorem reflects_recoverLogFile : (recoverLogFile paranoidChecks log).Reflects paranoidChecks := by
  rw [recoverLogFile]
  split_ifs
  · exact fun _ => ⟨nofun, fun _ => rfl⟩
  · exact reflects_recoverRecords fun _ => ⟨nofun, fun _ => rfl⟩

namespace Directory

variable {d : Directory}

def LogOk (d : Directory) (paranoidChecks : Bool) (log : ℕ) : Prop :=
  (recoverLogFile paranoidChecks (d.logFile log)).status = .ok

/-- The status is that of the last log. -/
theorem recoverLogs_ok (logs : List ℕ) (maxSequence : ℕ) :
    (d.recoverLogs paranoidChecks logs .ok maxSequence).1 = .ok ↔
      ∀ last ∈ logs.getLast?, d.LogOk paranoidChecks last := by
  obtain rfl | ⟨logs, last, rfl⟩ := List.eq_nil_or_concat' logs
  · simp [recoverLogs]
  · suffices h : ∀ s, (d.recoverLogs paranoidChecks (logs ++ [last]) s maxSequence).1 =
        (recoverLogFile paranoidChecks (d.logFile last)).status by
      rw [h, List.getLast?_concat]
      simp [LogOk]
    intro s
    induction logs generalizing s maxSequence with
    | nil => rfl
    | cons log logs ih => exact ih _ _

/-- `Recover` comes to the logs. -/
def Found (d : Directory) : Prop :=
  d.opened = .ok ∧ d.manifest = .ok ∧ d.getChildren = .ok ∧ ¬ d.FilesMissing

theorem recover_ok : (d.recover paranoidChecks).1 = .ok ↔
    d.Found ∧ ∀ last ∈ d.logs.getLast?, d.LogOk paranoidChecks last := by
  rw [← recoverLogs_ok d.logs 0]
  unfold recover Found
  split_ifs <;> simp_all

/-- An opened database has recovered every log, if the last log fails wherever one does.  A log that
is recovered has written its tables and, in paranoid mode, dropped nothing. -/
theorem recover_reports (paranoidChecks : Bool) (d : Directory) :
    (((d.recover paranoidChecks).1 = .ok → ∀ log ∈ d.logs, d.LogOk paranoidChecks log) ↔
      (d.Found → (∃ log ∈ d.logs, ¬ d.LogOk paranoidChecks log) →
        ∃ last ∈ d.logs.getLast?, ¬ d.LogOk paranoidChecks last)) ∧
    ∀ log, (recoverLogFile paranoidChecks log).Reflects paranoidChecks := by
  refine ⟨?_, fun log => reflects_recoverLogFile⟩
  rw [recover_ok, and_imp]
  refine imp_congr_right fun _ => ?_
  rw [← not_imp_not]
  push Not
  rfl

/-- Log 1 is damaged, and log 2 is empty. -/
def twoLogs : Directory where
  opened := .ok
  manifest := .ok
  minLog := 1
  prevLog := 0
  liveFiles := []
  lastSequence := 0
  getChildren := .ok
  children := [(1, .logFile), (2, .logFile)]
  logFile number := if number = 1 then ⟨.ok, [], true, .ok⟩ else ⟨.ok, [], false, .ok⟩

theorem recover_twoLogs : (twoLogs.recover true).1 = .ok ∧ 1 ∈ twoLogs.logs ∧
    ¬ twoLogs.LogOk true 1 := by
  refine ⟨by decide, by decide, nofun⟩

end Directory

end ServerStack.Leveldb.Recover
