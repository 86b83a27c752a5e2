import ServerStack.Redis.Networking.Reply
import ServerStack.Redis.Replication.Backlog

/-!
# The replication stream

`replicationFeedSlaves` encodes every command twice: into the backlog, and into the output of each
slave through the reply functions.  Both encodings are the same `encodeCommand`, which a slave that
resumes from the backlog relies on, and the request parser reads the arguments back.
-/

namespace ServerStack.Redis.Replication

open CircularBuffer Networking Util Decimal List

/-! ## Feeding in pieces -/

def ReplServer.feed (s : ReplServer) (p : Bytes) : ReplServer :=
  match s.replBacklog with
  | none => s
  | some buf => feedReplicationBacklog s buf p

def ReplServer.IdxOk (s : ReplServer) : Prop :=
  s.replBacklog.isSome → s.replBacklogIdx < s.replBacklogSize

variable {n size : ℕ} {s : ReplServer} {dictid : ℤ}

theorem foldl_push_idx (p : List Byte) {b : (ℕ → Option Byte) × ℕ} (hidx : b.2 < size) :
    (p.foldl (push size) b).2 < size := by
  induction p generalizing b with
  | nil => exact hidx
  | cons c p ih => exact ih (advance_lt hidx (by omega))

theorem ReplServer.feed_eq {buf : ℕ → Option Byte} (hbuf : s.replBacklog = some buf)
    (hidx : s.replBacklogIdx < s.replBacklogSize) (p : Bytes) :
    s.feed p = { s with
      replBacklog := some (p.foldl (push s.replBacklogSize) (buf, s.replBacklogIdx)).1
      replBacklogIdx := (p.foldl (push s.replBacklogSize) (buf, s.replBacklogIdx)).2
      replBacklogHistlen := min s.replBacklogSize (s.replBacklogHistlen + p.length)
      masterReplOffset := s.masterReplOffset + p.length
      replBacklogOff := s.masterReplOffset + p.length -
        (min s.replBacklogSize (s.replBacklogHistlen + p.length) : ℕ) + 1 } := by
  have hmin : (if s.replBacklogHistlen + p.length > s.replBacklogSize then s.replBacklogSize
      else s.replBacklogHistlen + p.length) =
      min s.replBacklogSize (s.replBacklogHistlen + p.length) := by
    split_ifs <;> omega
  rw [ReplServer.feed, hbuf]
  simp only [feedReplicationBacklog, feedLoop_eq p.length p ⟨buf, _, _⟩ le_rfl hidx, hmin]

theorem ReplServer.feed_none (hbuf : s.replBacklog = none) (p : Bytes) : s.feed p = s := by
  rw [ReplServer.feed, hbuf]

theorem ReplServer.IdxOk.feed (h : s.IdxOk) (p : Bytes) : (s.feed p).IdxOk := by
  cases hbuf : s.replBacklog with
  | none =>
    rw [ReplServer.feed_none hbuf]
    exact h
  | some buf =>
    have hidx := h (by rw [hbuf]; rfl)
    rw [ReplServer.feed_eq hbuf hidx]
    exact fun _ => foldl_push_idx p hidx

theorem ReplServer.feed_append (h : s.IdxOk) (p q : Bytes) :
    (s.feed p).feed q = s.feed (p ++ q) := by
  cases hbuf : s.replBacklog with
  | none => rw [ReplServer.feed_none hbuf, ReplServer.feed_none hbuf, ReplServer.feed_none hbuf]
  | some buf =>
    have hidx := h (by rw [hbuf]; rfl)
    have hmin : min s.replBacklogSize
        (min s.replBacklogSize (s.replBacklogHistlen + p.length) + q.length) =
        min s.replBacklogSize (s.replBacklogHistlen + (p ++ q).length) := by
      rw [length_append]
      omega
    rw [ReplServer.feed_eq hbuf hidx (p ++ q), ReplServer.feed_eq hbuf hidx p,
      ReplServer.feed_eq rfl (foldl_push_idx p hidx), foldl_append]
    simp only [hmin, length_append, Nat.cast_add, Int.add_assoc]

/-! ## `replicationFeedSlaves` -/

/-- `replstate` of a slave. -/
inductive ReplState where
  | waitBgsaveStart
  | waitBgsaveEnd
  | sendBulk
  | online
  deriving DecidableEq, Repr

structure Slave where
  replstate : ReplState
  out : Output

/-- The fields of `server` that `replicationFeedSlaves` uses. -/
structure FeedServer where
  repl : ReplServer
  slaves : List Slave
  slaveseldb : ℤ

def sharedSelectCmds : ℤ := 10

/-- The object with the `SELECT` command, shared or created. -/
def selectcmd (dictid : ℤ) : Robj :=
  let str := if 0 ≤ dictid ∧ dictid < sharedSelectCmds then ll2string 64 dictid
    else ll2string 21 dictid
  -- "*2\r\n$6\r\nSELECT\r\n$%d\r\n%s\r\n"
  .sds .raw ([42, 50, 13, 10, 36, 54, 13, 10, 83, 69, 76, 69, 67, 84, 13, 10] ++
    headerLine 36 str.length ++ str ++ crlf)

def feedReplicationBacklogWithObject (s : ReplServer) : Robj → ReplServer
  | .sds _ ptr => s.feed ptr
  | .int n _ => s.feed (ll2string 21 n)

def stringObjectLen : Robj → ℕ
  | .sds _ ptr => ptr.length
  | .int n _ => (ll2string 32 n).length

/-- A length in the local buffer `aux`, of `REDIS_LONGSTR_SIZE+3` bytes. -/
def auxHeader (type : UInt8) (n : ℕ) : Bytes := type :: ll2string 23 n ++ crlf

def feedArgument (s : ReplServer) (o : Robj) : ReplServer :=
  (feedReplicationBacklogWithObject (s.feed (auxHeader 36 (stringObjectLen o))) o).feed crlf

def feedCommand (s : ReplServer) (argv : List Robj) : ReplServer :=
  argv.foldl feedArgument (s.feed (auxHeader 42 argv.length))

def feedSlave (argv : List Robj) (slave : Slave) : Slave :=
  if slave.replstate = .waitBgsaveStart then slave
  else { slave with out := argv.foldl addReplyBulk (addReplyMultiBulkLen slave.out argv.length) }

def selectSlave (dictid : ℤ) (slave : Slave) : Slave :=
  { slave with out := addReply slave.out (selectcmd dictid) }

/-- Send `SELECT` to the backlog and to every slave. -/
def feedSelect (s : FeedServer) (dictid : ℤ) : FeedServer :=
  { s with
    repl := feedReplicationBacklogWithObject s.repl (selectcmd dictid)
    slaves := s.slaves.map (selectSlave dictid) }

/-- `none` is the failed assertion that slaves have a backlog. -/
def replicationFeedSlaves (s : FeedServer) (dictid : ℤ) (argv : List Robj) : Option FeedServer :=
  if s.repl.replBacklog.isNone ∧ s.slaves = [] then some s
  else if s.slaves ≠ [] ∧ s.repl.replBacklog.isNone then none
  else
    let s := if s.slaveseldb ≠ dictid then feedSelect s dictid else s
    some {
      repl := feedCommand s.repl argv
      slaves := s.slaves.map (feedSlave argv)
      slaveseldb := dictid }

/-! ## The two encodings -/

/-- The argument vector of a command: `argc` and the length of an `sds` are of type `int`. -/
structure Argv where
  args : List Robj
  ne_nil : args ≠ []
  argc_lt : args.length < 2 ^ 31
  len_lt : ∀ o ∈ args, o.string.length < 2 ^ 31

def Argv.strings (argv : Argv) : List Bytes := argv.args.map Robj.string

theorem feedReplicationBacklogWithObject_eq (s : ReplServer) (o : Robj) :
    feedReplicationBacklogWithObject s o = s.feed o.string := by
  cases o with
  | sds encoding ptr => rfl
  | int n h => rw [feedReplicationBacklogWithObject, ll2string_eq h (by decide), Robj.string]

theorem stringObjectLen_eq (o : Robj) : stringObjectLen o = o.string.length := by
  cases o with
  | sds encoding ptr => rfl
  | int n h => rw [stringObjectLen, ll2string_eq h (by decide), Robj.string]

theorem auxHeader_eq (type : UInt8) (hn : n < 2 ^ 63) : auxHeader type n = headerLine type n := by
  rw [auxHeader, ll2string_natCast (by decide) hn, headerLine]

theorem feedArgument_eq (h : s.IdxOk) {o : Robj} (ho : o.string.length < 2 ^ 63) :
    feedArgument s o = s.feed (encodeBulk o.string) := by
  rw [feedArgument, stringObjectLen_eq, auxHeader_eq 36 ho, feedReplicationBacklogWithObject_eq,
    ReplServer.feed_append h, ReplServer.feed_append h, encodeBulk, append_assoc]

theorem feedCommand_eq (h : s.IdxOk) (argv : Argv) :
    feedCommand s argv.args = s.feed (encodeCommand argv.strings) := by
  have hargs : ∀ (args : List Robj), (∀ o ∈ args, o.string.length < 2 ^ 31) → ∀ pre : Bytes,
      args.foldl feedArgument (s.feed pre) =
        s.feed (pre ++ (args.map Robj.string).flatMap encodeBulk) := by
    intro args hlen
    induction args with
    | nil =>
      intro pre
      rw [foldl_nil, map_nil, flatMap_nil, append_nil]
    | cons o args ih =>
      intro pre
      have ho : o.string.length < 2 ^ 63 := lt_trans (hlen o mem_cons_self) (by decide)
      rw [foldl_cons, feedArgument_eq (h.feed pre) ho, ReplServer.feed_append h,
        ih (fun a ha => hlen a (mem_cons_of_mem o ha)), map_cons, flatMap_cons,
        append_assoc]
  rw [feedCommand, hargs argv.args argv.len_lt, auxHeader_eq 42 (lt_trans argv.argc_lt (by decide)),
    encodeCommand, Argv.strings, length_map]

theorem appends_feedSlave (argv : Argv) {slave : Slave} (hslave : slave.replstate ≠ .waitBgsaveStart) :
    Appends (encodeCommand argv.strings) slave.out (feedSlave argv.args slave).out := by
  have hargs : ∀ (args : List Robj), (∀ o ∈ args, o.string.length < 2 ^ 31) → ∀ c : Output,
      Appends ((args.map Robj.string).flatMap encodeBulk) c (args.foldl addReplyBulk c) := by
    intro args hlen
    induction args with
    | nil =>
      intro c hopen
      exact ⟨hopen, by simp⟩
    | cons o args ih =>
      intro c
      have ho : o.string.length < 2 ^ 63 := lt_trans (hlen o mem_cons_self) (by decide)
      exact (appends_addReplyBulk c ho).trans
        (ih (fun a ha => hlen a (mem_cons_of_mem o ha)) (addReplyBulk c o))
  have hheader := appends_addReplyMultiBulkLen slave.out
    (show argv.args.length < 2 ^ 63 from lt_trans argv.argc_lt (by decide))
  have hcommand := hheader.trans (hargs argv.args argv.len_lt _)
  rw [feedSlave, if_neg hslave, encodeCommand, Argv.strings, length_map]
  exact hcommand

def selectName : Bytes := [83, 69, 76, 69, 67, 84]

theorem selectcmd_string (h : IsLongLong dictid) :
    (selectcmd dictid).string = encodeCommand [selectName, decimalInt dictid] := by
  have hstr : (if 0 ≤ dictid ∧ dictid < sharedSelectCmds then ll2string 64 dictid
      else ll2string 21 dictid) = decimalInt dictid := by
    rw [ll2string_eq h (by decide), ll2string_eq h (by decide), ite_self]
  have hstar : headerLine 42 2 = [42, 50, 13, 10] := by decide +kernel
  have hdollar : headerLine 36 6 = [36, 54, 13, 10] := by decide +kernel
  rw [selectcmd, hstr]
  simp [Robj.string, encodeCommand, encodeBulk, selectName, hstar, hdollar, crlf]

/-! ## Agreement -/

/-- What a command adds to the replication stream: `SELECT` if the database changes, and the
command. -/
def streamBytes (s : FeedServer) (dictid : ℤ) (argv : Argv) : Bytes :=
  (if s.slaveseldb = dictid then [] else encodeCommand [selectName, decimalInt dictid]) ++
    encodeCommand argv.strings

/-- `processMultibulkBuffer` reads the bytes as one command with these arguments. -/
def Parses (bytes : Bytes) (args : List Bytes) : Prop :=
  ∃ c, processMultibulkBuffer { createClient with querybuf := bytes, reqtype := .multibulk } =
      .ok (c, true) ∧ c.argv = args ∧ c.querybuf = [] ∧ c.errors = []

structure Argv.Accepted (argv : Argv) : Prop where
  argc_le : argv.args.length ≤ maxMultibulkLen
  len_le : ∀ o ∈ argv.args, o.string.length ≤ maxBulkLen
  total_le : (encodeCommand argv.strings).length ≤ clientMaxQuerybufLen

theorem parses_encodeCommand {args : List Bytes} (hvalid : ValidCommand args) :
    Parses (encodeCommand args) args := by
  have hwhole := @processMultibulkBuffer_whole [] args hvalid []
  rw [append_nil] at hwhole
  exact ⟨clientAt [] args [] false [], hwhole, rfl, rfl, rfl⟩

theorem Argv.Accepted.valid {argv : Argv} (h : argv.Accepted) : ValidCommand argv.strings := by
  refine ⟨by simpa [Argv.strings] using argv.ne_nil, by simpa [Argv.strings] using h.argc_le, ?_⟩
  intro arg harg
  obtain ⟨o, ho, rfl⟩ := mem_map.1 harg
  exact h.len_le o ho

theorem validCommand_select (h : IsLongLong dictid) :
    ValidCommand [selectName, decimalInt dictid] := by
  obtain ⟨hmin, hmax⟩ := h
  have hdigits := length_decimal_le (show dictid.natAbs < 10 ^ (18 + 1) by omega)
  have hlen : (decimalInt dictid).length ≤ 20 := by
    rw [decimalInt]
    split_ifs
    · rw [length_cons]
      omega
    · omega
  refine ⟨cons_ne_nil _ _, by simp [maxMultibulkLen], ?_⟩
  simp only [mem_cons, not_mem_nil, or_false, forall_eq_or_imp, forall_eq]
  exact ⟨by decide, hlen.trans (by decide)⟩

theorem replicationFeedSlaves_eq {s : FeedServer} (hidx : s.repl.IdxOk)
    (hbacklog : s.repl.replBacklog.isSome) (hdict : IsLongLong dictid) (argv : Argv) :
    ∃ s', replicationFeedSlaves s dictid argv.args = some s' ∧
      s'.repl = s.repl.feed (streamBytes s dictid argv) ∧
      ∀ (i : ℕ) (slave : Slave), s.slaves[i]? = some slave → slave.replstate = .online →
        slave.out.Open → ∃ slave', s'.slaves[i]? = some slave' ∧
          slave'.out.sent = slave.out.sent ++ streamBytes s dictid argv := by
  have hsome : ¬ s.repl.replBacklog.isNone = true := by
    rw [Option.isNone_iff_eq_none]
    exact Option.isSome_iff_ne_none.1 hbacklog
  have honline : ∀ slave : Slave, slave.replstate = .online → slave.replstate ≠ .waitBgsaveStart :=
    fun slave h => by rw [h]; decide
  rw [replicationFeedSlaves, if_neg (fun h => hsome h.1), if_neg (fun h => hsome h.2), streamBytes]
  by_cases hdb : s.slaveseldb = dictid
  · rw [if_neg (not_not.2 hdb), if_pos hdb]
    refine ⟨_, rfl, feedCommand_eq hidx argv, fun i slave hslave hstate hopen => ?_⟩
    refine ⟨feedSlave argv.args slave, by simp [hslave], ?_⟩
    exact (appends_feedSlave argv (honline slave hstate) hopen).2
  · have hselect := selectcmd_string hdict
    rw [if_pos hdb, if_neg hdb]
    refine ⟨_, rfl, ?_, fun i slave hslave hstate hopen => ?_⟩
    · simp only [feedSelect]
      rw [feedReplicationBacklogWithObject_eq, hselect, feedCommand_eq (hidx.feed _),
        ReplServer.feed_append hidx]
    · refine ⟨feedSlave argv.args (selectSlave dictid slave), by simp [feedSelect, hslave], ?_⟩
      have hcommand := (appends_addReply slave.out (selectcmd dictid)).trans
        (appends_feedSlave argv (honline (selectSlave dictid slave) hstate))
      rw [hselect] at hcommand
      exact (hcommand hopen).2

/-- The backlog and every online slave get the same bytes, in any state that the backlog can
reach.  They are `SELECT`, if the database changes, and the command; the request parser of the slave
reads both back, the command if its arguments are within the limits of the parser. -/
theorem replication_encoders_agree (ops : List BacklogOp) (s : FeedServer) (stream : Stream)
    (hrun : ops.foldlM BacklogOp.run (initServerConfig, fun _ => none) = some (s.repl, stream))
    (hbacklog : s.repl.replBacklog.isSome) (dictid : ℤ) (hdict : IsLongLong dictid) (argv : Argv) :
    (∃ s', replicationFeedSlaves s dictid argv.args = some s' ∧
      s'.repl = s.repl.feed (streamBytes s dictid argv) ∧
      ∀ (i : ℕ) (slave : Slave), s.slaves[i]? = some slave → slave.replstate = .online →
        slave.out.Open → ∃ slave', s'.slaves[i]? = some slave' ∧
          slave'.out.sent = slave.out.sent ++ streamBytes s dictid argv) ∧
    Parses (encodeCommand [selectName, decimalInt dictid]) [selectName, decimalInt dictid] ∧
    (argv.Accepted → Parses (encodeCommand argv.strings) argv.strings) := by
  have hinit : BacklogInv (initServerConfig, fun _ => none) :=
    ⟨by decide, fun buf hbuf => by cases hbuf⟩
  have hidx : s.repl.IdxOk := by
    intro hsome
    obtain ⟨buf, hbuf⟩ := Option.isSome_iff_exists.1 hsome
    obtain ⟨base, history, htracks⟩ := (run_backlogInv hinit hrun).2 buf hbuf
    exact htracks.holds.idx_lt
  exact ⟨replicationFeedSlaves_eq hidx hbacklog hdict argv,
    parses_encodeCommand (validCommand_select hdict), fun h => parses_encodeCommand h.valid⟩

/-- A server with a new backlog and one online slave. -/
def onlineServer : FeedServer where
  repl := { initServerConfig with
    replBacklog := some zmalloc
    masterReplOffset := 1
    replBacklogOff := 2 }
  slaves := [⟨.online, ⟨true, false, [], []⟩⟩]
  slaveseldb := -1

/-- `INCRBY k` with the smallest `long`. -/
def incrby : Argv where
  args := [.sds .embstr [73, 78, 67, 82, 66, 89], .sds .embstr [107], .int (-(2 ^ 63)) (by decide)]
  ne_nil := cons_ne_nil _ _
  argc_lt := by decide
  len_lt := by decide +kernel

theorem replication_encoders_agree_incrby :
    (∃ s', replicationFeedSlaves onlineServer 0 incrby.args = some s' ∧
      s'.repl = onlineServer.repl.feed (streamBytes onlineServer 0 incrby) ∧
      ∃ slave', s'.slaves[0]? = some slave' ∧ slave'.out.sent = streamBytes onlineServer 0 incrby) ∧
    Parses (encodeCommand incrby.strings) incrby.strings := by
  obtain ⟨⟨s', hs', hrepl, hslaves⟩, -, hparses⟩ := replication_encoders_agree [.create] onlineServer
    (fun _ => none) rfl rfl 0 (by decide) incrby
  obtain ⟨slave', hslave', hsent⟩ := hslaves 0 _ rfl rfl ⟨rfl, rfl⟩
  exact ⟨⟨s', hs', hrepl, slave', hslave', hsent⟩,
    hparses ⟨by decide, by decide +kernel, by decide +kernel⟩⟩

theorem not_parses_encodeCommand {args : List Bytes} (hmany : maxMultibulkLen < args.length)
    (hlen : args.length < 2 ^ 63) : ¬ Parses (encodeCommand args) args := by
  rintro ⟨c, hc, -⟩
  have hzero : (clientAt [] [] [] false (encodeCommand args)).multibulklen = 0 := rfl
  have hfirst : processMultibulkBuffer (clientAt [] [] [] false (encodeCommand args)) =
      .ok (c, true) := hc
  rw [processMultibulkBuffer, encodeCommand,
    readMultibulkLen_line (Nat.zero_lt_of_lt hmany) hlen, if_pos hmany] at hfirst
  cases hfirst

def emptyArguments (n : ℕ) (hpos : 0 < n) (hlt : n < 2 ^ 31) : Argv where
  args := List.replicate n (.sds .embstr [])
  ne_nil := by simp [hpos.ne']
  argc_lt := by rwa [length_replicate]
  len_lt := by
    intro o ho
    rw [eq_of_mem_replicate ho]
    decide

theorem emptyArguments_rejected (hpos : 0 < n) (hlt : n < 2 ^ 31) (hmany : maxMultibulkLen < n) :
    ∃ s', replicationFeedSlaves onlineServer (-1) (emptyArguments n hpos hlt).args = some s' ∧
      s'.repl = onlineServer.repl.feed (encodeCommand (emptyArguments n hpos hlt).strings) ∧
      ¬ Parses (encodeCommand (emptyArguments n hpos hlt).strings)
        (emptyArguments n hpos hlt).strings := by
  have hlen : (emptyArguments n hpos hlt).strings.length = n := by
    rw [Argv.strings, length_map, emptyArguments, length_replicate]
  have hdict : IsLongLong (-1) := by decide
  obtain ⟨s', hs', hrepl, -⟩ := replicationFeedSlaves_eq (s := onlineServer)
    (fun _ => by decide) rfl hdict (emptyArguments n hpos hlt)
  refine ⟨s', hs', hrepl, not_parses_encodeCommand ?_ ?_⟩
  · rwa [hlen]
  · rw [hlen]
    exact lt_trans hlt (by decide)

/-- 1048577 empty arguments go to the backlog and to the slave, whose parser rejects them. -/
theorem replication_rejected_command : ∃ s', replicationFeedSlaves onlineServer (-1)
        (emptyArguments 1048577 (by decide) (by decide)).args = some s' ∧
      s'.repl = onlineServer.repl.feed
        (encodeCommand (emptyArguments 1048577 (by decide) (by decide)).strings) ∧
      ¬ Parses (encodeCommand (emptyArguments 1048577 (by decide) (by decide)).strings)
        (emptyArguments 1048577 (by decide) (by decide)).strings :=
  emptyArguments_rejected (by decide) (by decide) (by decide)

end ServerStack.Redis.Replication
