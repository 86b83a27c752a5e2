import ServerStack.Redis.Replication.Feed
import ServerStack.Redis.Sds
import ServerStack.Redis.StringCommands

/-!
# The slave's side of the stream

The slave reads the stream as the requests of a client.  A `SELECT` of the stream changes the
database of that client, and every other command is executed there: in the database in which the
master has executed it.
-/

namespace ServerStack.Redis.Replication

open Networking Util Decimal StringCommands Sds List

/-! ## `SELECT` -/

structure SelectConfig where
  dbnum : ℤ
  clusterEnabled : Bool

/-- `selectDb`; the argument is an `int`. -/
def selectDb (conf : SelectConfig) (id : ℤ) : Option ℤ :=
  let id := id.bmod (2 ^ 32)
  if id < 0 ∨ id ≥ conf.dbnum then none else some id

/-- The selected database, or the text of the error. -/
def selectCommand (conf : SelectConfig) (arg : Bytes) : Except String ℤ :=
  match getLongLongFromObject (some (.sds .raw arg)) with
  | none => .error "invalid DB index"
  | some id =>
    if conf.clusterEnabled ∧ id ≠ 0 then .error "SELECT is not allowed in cluster mode"
    else match selectDb conf id with
      | none => .error "invalid DB index"
      | some id => .ok id

/-- The command table is searched without regard to case. -/
def IsSelect (args : List Bytes) : Prop :=
  args.length = 2 ∧ args.head?.map (map fun b => if 65 ≤ b ∧ b ≤ 90 then b + 32 else b) =
    some [115, 101, 108, 101, 99, 116]

instance (args : List Bytes) : Decidable (IsSelect args) := inferInstanceAs (Decidable (_ ∧ _))

/-- A command changes the selected database, or it is executed there. -/
def executeCommand (conf : SelectConfig) (st : ℤ × List (ℤ × List Bytes)) (args : List Bytes) :
    ℤ × List (ℤ × List Bytes) :=
  if IsSelect args then
    match selectCommand conf (args.getD 1 []) with
    | .ok id => (id, st.2)
    | .error _ => st
  else (st.1, st.2 ++ [(st.1, args)])

structure SelectConfig.Has (conf : SelectConfig) (dictid : ℤ) : Prop where
  nonneg : 0 ≤ dictid
  lt_dbnum : dictid < conf.dbnum
  lt : dictid < 2 ^ 31
  cluster : conf.clusterEnabled = true → dictid = 0

theorem getLongLongFromObject_decimal {n : ℕ} (h : n < 2 ^ 63) :
    getLongLongFromObject (some (.sds .raw (decimal n))) = some (n : ℤ) := by
  obtain ⟨b, t, hbt⟩ := exists_cons_of_ne_nil (decimal_ne_nil n)
  have hdigits : ∀ d ∈ decimal n, IsDigit d := fun d hd => isDigit_of_mem_decimal hd
  obtain ⟨hspace, -, -⟩ := IsDigit.cases (hdigits b (hbt ▸ mem_cons_self))
  have hnul : (decimal n).takeWhile (· ≠ 0) = decimal n :=
    takeWhile_eq_self_iff.2 fun d hd => decide_eq_true fun h0 => by
      have := hdigits d hd
      rw [h0] at this
      exact absurd this (by decide)
  have hsign := readSign_decimal n []
  have htake := @takeWhile_decimal [] n nofun
  rw [append_nil] at hsign htake
  have hrest : (decimal n).dropWhile (fun d => decide (IsDigit d)) = [] :=
    dropWhile_eq_nil_iff.2 fun d hd => decide_eq_true (hdigits d hd)
  have hstrtoll : strtoll (decimal n) = (↑n, []) := by
    simp only [strtoll, hsign, htake, hrest, if_neg (decimal_ne_nil n), value_decimal,
      Bool.false_eq_true, if_false]
    congr
    omega
  have hrange : strtollErange (decimal n) = false := by
    simp only [strtollErange, hsign, htake, value_decimal, Bool.false_eq_true, if_false]
    exact decide_eq_false (not_not.2 ⟨by omega, by omega⟩)
  simp only [getLongLongFromObject, hnul, hstrtoll, hrange]
  exact if_neg (by simp [hbt, hspace])

theorem executeCommand_select {conf : SelectConfig} {dictid : ℤ} (h : conf.Has dictid)
    (st : ℤ × List (ℤ × List Bytes)) :
    executeCommand conf st [selectName, decimalInt dictid] = (dictid, st.2) := by
  obtain ⟨n, rfl⟩ := Int.eq_ofNat_of_zero_le h.nonneg
  have hn := h.lt
  have hbmod : (n : ℤ).bmod (2 ^ 32) = n := by
    rw [Int.bmod_def]
    split_ifs <;> omega
  have hdb : selectDb conf n = some (n : ℤ) := by
    rw [selectDb, hbmod]
    exact if_neg fun hbad => hbad.elim (by omega) fun hge => absurd h.lt_dbnum (not_lt.2 hge)
  have hcommand : selectCommand conf (decimalInt n) = .ok (n : ℤ) := by
    rw [selectCommand, decimalInt, if_neg (by omega), Int.natAbs_natCast,
      getLongLongFromObject_decimal (by omega)]
    simp only [hdb]
    exact if_neg fun hbad => hbad.2 (h.cluster hbad.1)
  rw [executeCommand, if_pos ⟨rfl, by rw [head?_cons]; decide⟩]
  simp only [getD_cons_succ, getD_cons_zero, hcommand]

/-! ## The commands of the stream -/

/-- What `replicationFeedSlaves` sends for some commands, each with its database. -/
def streamCommands : ℤ → List (ℤ × Argv) → List (List Bytes)
  | _, [] => []
  | db, (dictid, argv) :: cmds =>
    (if db = dictid then [] else [[selectName, decimalInt dictid]]) ++
      argv.strings :: streamCommands dictid cmds

def feedAll (s : FeedServer) (cmds : List (ℤ × Argv)) : Option FeedServer :=
  cmds.foldlM (fun s c => replicationFeedSlaves s c.1 c.2.args) s

/-- The slave takes the command, and the databases are those that the slave has. -/
structure Sendable (conf : SelectConfig) (c : ℤ × Argv) : Prop where
  accepted : c.2.Accepted
  not_select : ¬ IsSelect c.2.strings
  has : conf.Has c.1

variable {conf : SelectConfig} {cmds : List (ℤ × Argv)}

theorem foldl_executeCommand (hcmds : ∀ c ∈ cmds, Sendable conf c) (db : ℤ)
    (done : List (ℤ × List Bytes)) :
    ((streamCommands db cmds).foldl (executeCommand conf) (db, done)).2 =
      done ++ cmds.map fun c => (c.1, c.2.strings) := by
  induction cmds generalizing db done with
  | nil => simp [streamCommands]
  | cons c cmds ih =>
    obtain ⟨hc, htail⟩ := forall_mem_cons.1 hcmds
    have hselect : (if db = c.1 then [] else [[selectName, decimalInt c.1]]).foldl
        (executeCommand conf) (db, done) = (c.1, done) := by
      split_ifs with hdb
      · rw [foldl_nil, hdb]
      · rw [foldl_cons, foldl_nil, executeCommand_select hc.has]
    have hcommand : executeCommand conf (c.1, done) c.2.strings =
        (c.1, done ++ [(c.1, c.2.strings)]) := if_neg hc.not_select
    rw [streamCommands, foldl_append, hselect, foldl_cons, hcommand, ih htail, map_cons,
      append_assoc, singleton_append]

theorem validCommand_stream (hcmds : ∀ c ∈ cmds, Sendable conf c) (db : ℤ) :
    ∀ args ∈ streamCommands db cmds, ValidCommand args := by
  induction cmds generalizing db with
  | nil => exact fun args hargs => absurd hargs not_mem_nil
  | cons c cmds ih =>
    obtain ⟨hc, htail⟩ := forall_mem_cons.1 hcmds
    intro args hargs
    rcases mem_append.1 hargs with hargs | hargs
    · split_ifs at hargs
      · cases hargs
      · have hhas := hc.has
        rw [mem_singleton.1 hargs]
        exact validCommand_select ⟨by linarith [hhas.nonneg], by linarith [hhas.lt]⟩
    · rcases mem_cons.1 hargs with rfl | hargs
      · exact hc.accepted.valid
      · exact ih htail c.1 args hargs

/-! ## The run -/

variable {s s' : FeedServer} {dictid : ℤ} {argv : Argv}

theorem feedSlave_open {slave : Slave} (hstate : slave.replstate = .online)
    (hopen : slave.out.Open) :
    (feedSlave argv.args slave).replstate = .online ∧ (feedSlave argv.args slave).out.Open := by
  refine ⟨?_, (appends_feedSlave argv (by rw [hstate]; decide) hopen).1⟩
  rw [feedSlave]
  split_ifs <;> exact hstate

/-- A command leaves a slave that is online there, with its output open. -/
theorem replicationFeedSlaves_online (hbacklog : s.repl.replBacklog.isSome)
    (hs : replicationFeedSlaves s dictid argv.args = some s') :
    s'.slaveseldb = dictid ∧ ∀ (i : ℕ) (slave : Slave), s.slaves[i]? = some slave →
      slave.replstate = .online → slave.out.Open →
      ∃ slave', s'.slaves[i]? = some slave' ∧ slave'.replstate = .online ∧ slave'.out.Open := by
  have hsome : ¬ s.repl.replBacklog.isNone = true := by
    rw [Option.isNone_iff_eq_none]
    exact Option.isSome_iff_ne_none.1 hbacklog
  rw [replicationFeedSlaves, if_neg (fun h => hsome h.1), if_neg (fun h => hsome h.2)] at hs
  obtain rfl := Option.some.inj hs
  refine ⟨rfl, fun i slave hslave hstate hopen => ?_⟩
  split_ifs
  · have hselect : (selectSlave dictid slave).out.Open := (appends_addReply slave.out _ hopen).1
    exact ⟨feedSlave argv.args (selectSlave dictid slave), by simp [feedSelect, hslave],
      feedSlave_open hstate hselect⟩
  · exact ⟨feedSlave argv.args slave, by simp [hslave], feedSlave_open hstate hopen⟩

/-- The bytes of the stream, from a state of the server on. -/
def streamText (s : FeedServer) (cmds : List (ℤ × Argv)) : Bytes :=
  (streamCommands s.slaveseldb cmds).flatMap encodeCommand

variable {stream : Stream} {buf : ℕ → Option Byte} {base : ℤ} {history : Bytes}

/-- A run of commands adds their stream to the backlog and to the output of every slave. -/
theorem feedAll_spec (hbuf : s.repl.replBacklog = some buf)
    (h : Tracks s.repl stream buf base history) (hcmds : ∀ c ∈ cmds, Sendable conf c) :
    ∃ s' stream' buf', feedAll s cmds = some s' ∧ s'.repl.replBacklog = some buf' ∧
      Tracks s'.repl stream' buf' base (history ++ streamText s cmds) ∧
      ∀ (i : ℕ) (slave : Slave), s.slaves[i]? = some slave → slave.replstate = .online →
        slave.out.Open → ∃ slave', s'.slaves[i]? = some slave' ∧
          slave'.out.sent = slave.out.sent ++ streamText s cmds := by
  induction cmds generalizing s stream buf history with
  | nil =>
    simp only [streamText, streamCommands, flatMap_nil, append_nil]
    exact ⟨s, stream, buf, rfl, hbuf, h, fun i slave hslave _ _ => ⟨slave, hslave, rfl⟩⟩
  | cons c cmds ih =>
    obtain ⟨hc, htail⟩ := forall_mem_cons.1 hcmds
    have hdict : IsLongLong c.1 := ⟨by linarith [hc.has.nonneg], by linarith [hc.has.lt]⟩
    have hbacklog : s.repl.replBacklog.isSome := by rw [hbuf]; rfl
    obtain ⟨s₁, hs₁, hrepl₁, hslaves₁⟩ :=
      replicationFeedSlaves_eq (fun _ => h.holds.idx_lt) hbacklog hdict c.2
    obtain ⟨hdb, honline⟩ := replicationFeedSlaves_online hbacklog hs₁
    obtain ⟨buf₁, hbuf₁, h₁⟩ := h.feed (streamBytes s c.1 c.2)
    have hfeed : feedReplicationBacklog s.repl buf (streamBytes s c.1 c.2) = s₁.repl := by
      rw [hrepl₁, ReplServer.feed, hbuf]
    rw [hfeed] at hbuf₁ h₁
    obtain ⟨s', stream', buf', hrun, hbuf', h', hslaves⟩ := ih hbuf₁ h₁ htail
    have htext : streamText s (c :: cmds) = streamBytes s c.1 c.2 ++ streamText s₁ cmds := by
      rw [streamText, streamText, hdb, streamBytes, streamCommands]
      split_ifs <;> simp
    rw [htext, ← append_assoc]
    refine ⟨s', stream', buf', ?_, hbuf', h', fun i slave hslave hstate hopen => ?_⟩
    · rw [feedAll, foldlM_cons, hs₁]
      exact hrun
    · obtain ⟨slave₁, hslave₁, hsent₁⟩ := hslaves₁ i slave hslave hstate hopen
      obtain ⟨x, hx, hstate₁, hopen₁⟩ := honline i slave hslave hstate hopen
      obtain rfl := Option.some.inj (hslave₁.symm.trans hx)
      obtain ⟨slave', hslave', hsent⟩ := hslaves i slave₁ hslave₁ hstate₁ hopen₁
      exact ⟨slave', hslave', by rw [hsent, hsent₁, append_assoc]⟩

theorem exists_tracks {ops : List BacklogOp} {r : ReplServer}
    (hrun : ops.foldlM BacklogOp.run (initServerConfig, fun _ => none) = some (r, stream))
    (hbacklog : r.replBacklog.isSome) :
    ∃ buf base history, r.replBacklog = some buf ∧ Tracks r stream buf base history := by
  obtain ⟨buf, hbuf⟩ := Option.isSome_iff_exists.1 hbacklog
  have hinit : BacklogInv (initServerConfig, fun _ => none) :=
    ⟨by decide, fun _ hbuf => by cases hbuf⟩
  obtain ⟨base, history, h⟩ := (run_backlogInv hinit hrun).2 buf hbuf
  exact ⟨buf, base, history, hbuf, h⟩

/-- The slave has executed these commands, each one once and in its database. -/
def Executes (conf : SelectConfig) (db : ℤ) (chunks : List Bytes) (cmds : List (ℤ × Argv)) : Prop :=
  ∀ processInlineBuffer, ∃ c, chunks.foldlM (receive processInlineBuffer) createClient = .ok c ∧
    c.errors = [] ∧ (c.executed.foldl (executeCommand conf) (db, [])).2 =
      cmds.map fun c => (c.1, c.2.strings)

theorem executes_stream (hcmds : ∀ c ∈ cmds, Sendable conf c) {chunks : List Bytes}
    (hchunks : chunks.flatten = streamText s cmds)
    (hcuts : CutsAccepted (streamCommands s.slaveseldb cmds) (chunks.map List.length)) :
    Executes conf s.slaveseldb chunks cmds := by
  intro processInlineBuffer
  obtain ⟨c, hc, hexecuted, herrors⟩ :=
    (receive_stream (validCommand_stream hcmds s.slaveseldb) hchunks).executed_iff.2 hcuts
  exact ⟨c, hc, herrors, by rw [hexecuted, foldl_executeCommand hcmds, nil_append]⟩

/-- A slave executes the commands of the master, each one once, in their order and in the database
in which the master has executed it, however the stream is cut. -/
theorem slave_executes {ops : List BacklogOp}
    (hrun : ops.foldlM BacklogOp.run (initServerConfig, fun _ => none) = some (s.repl, stream))
    (hbacklog : s.repl.replBacklog.isSome) (hcmds : ∀ c ∈ cmds, Sendable conf c) {i : ℕ}
    {slave : Slave} (hslave : s.slaves[i]? = some slave) (hstate : slave.replstate = .online)
    (hopen : slave.out.Open) (hnew : slave.out.sent = []) :
    ∃ s' slave', feedAll s cmds = some s' ∧ s'.slaves[i]? = some slave' ∧
      ∀ chunks : List Bytes, chunks.flatten = slave'.out.sent →
        CutsAccepted (streamCommands s.slaveseldb cmds) (chunks.map List.length) →
        Executes conf s.slaveseldb chunks cmds := by
  obtain ⟨buf, base, history, hbuf, h⟩ := exists_tracks hrun hbacklog
  obtain ⟨s', -, -, hfeed, -, -, hslaves⟩ := feedAll_spec hbuf h hcmds
  obtain ⟨slave', hslave', hsent⟩ := hslaves i slave hslave hstate hopen
  refine ⟨s', slave', hfeed, hslave', fun chunks hchunks => executes_stream hcmds ?_⟩
  rw [hchunks, hsent, hnew, nil_append]

theorem sendable_incrby : ∀ c ∈ [((0 : ℤ), incrby), (5, incrby)], Sendable ⟨16, false⟩ c := by
  have haccepted : incrby.Accepted := ⟨by decide, by decide +kernel, by decide +kernel⟩
  have hselect : ¬ IsSelect incrby.strings := by decide +kernel
  simp only [mem_cons, not_mem_nil, or_false, forall_eq_or_imp, forall_eq]
  exact ⟨⟨haccepted, hselect, ⟨by decide, by decide, by decide, by decide⟩⟩,
    ⟨haccepted, hselect, ⟨by decide, by decide, by decide, by decide⟩⟩⟩

/-- The same command in two databases, with the stream cut inside the first `SELECT`. -/
theorem slave_executes_incrby : ∃ s' slave',
    feedAll onlineServer [(0, incrby), (5, incrby)] = some s' ∧ s'.slaves[0]? = some slave' ∧
      Executes ⟨16, false⟩ (-1) [slave'.out.sent.take 10, slave'.out.sent.drop 10]
        [(0, incrby), (5, incrby)] := by
  obtain ⟨s', slave', hfeed, hslave', h⟩ := slave_executes (s := onlineServer)
    (show [BacklogOp.create].foldlM BacklogOp.run _ = _ from rfl) rfl sendable_incrby
    (show onlineServer.slaves[0]? = some ⟨.online, ⟨true, false, [], []⟩⟩ from rfl) rfl ⟨rfl, rfl⟩
    rfl
  refine ⟨s', slave', hfeed, hslave', h _ (by simp) ?_⟩
  have hlen : slave'.out.sent.length = 146 := by
    have hall : ((feedAll onlineServer [(0, incrby), (5, incrby)]).bind (·.slaves[0]?)).all
        (fun slave => decide (slave.out.sent.length = 146)) = true := by decide +kernel
    rw [hfeed, Option.bind_some, hslave'] at hall
    exact of_decide_eq_true hall
  simp only [map_cons, length_take, length_drop, hlen, map_nil]
  decide +kernel

/-! ## Partial resynchronization -/

theorem Tracks.resync {r : ReplServer} {p : Bytes} (hbuf : r.replBacklog = some buf)
    (h : Tracks r stream buf base (history ++ p)) {k : ℕ}
    (hlow : r.replBacklogOff ≤ base + history.length + k + 1)
    (hhigh : base + history.length + k + 1 ≤ r.replBacklogOff + r.replBacklogHistlen)
    (hfit : PiecesFit r (base + history.length + k + 1)) :
    masterTryPartialResynchronization r true (some (base + history.length + k + 1)) =
      .continue ((p.drop k).map some) (p.drop k).length := by
  obtain ⟨sent, bytes, hreply, hsent, hend, hstream⟩ := h.reply hlow hhigh
  have hmaster := h.offset_eq
  rw [length_append] at hmaster
  have hbytes : bytes = p.drop k := by
    apply ext_getElem?
    intro j
    by_cases hj : j < bytes.length
    · have hright : p[k + j]? = (history ++ p)[history.length + (k + j)]? := by
        rw [getElem?_append_right (by omega), Nat.add_sub_cancel_left]
      rw [← hstream j hj, getElem?_drop, hright, ← h.stream_eq _ (by rw [length_append]; omega)]
      congr 1
      omega
    · rw [getElem?_eq_none (by omega), getElem?_eq_none (by rw [length_drop]; omega)]
  have haccept : ¬ (base + history.length + k + 1 < r.replBacklogOff ∨
      base + history.length + k + 1 > r.replBacklogOff + r.replBacklogHistlen) := by omega
  simp only [masterTryPartialResynchronization, hbuf, if_neg haccept, hreply, hsent.2 hfit, hbytes]

/-- The connection breaks after any number of bytes, and the slave asks for the rest: if the backlog
has it, in pieces shorter than `2 ^ 31` bytes, the master sends exactly the rest of the stream, and
the slave executes all commands as if nothing had happened. -/
theorem resync_executes {ops : List BacklogOp}
    (hrun : ops.foldlM BacklogOp.run (initServerConfig, fun _ => none) = some (s.repl, stream))
    (hbacklog : s.repl.replBacklog.isSome) (hcmds : ∀ c ∈ cmds, Sendable conf c) :
    ∃ s', feedAll s cmds = some s' ∧ ∀ k : ℕ,
      s'.repl.replBacklogOff ≤ s.repl.masterReplOffset + k + 1 →
      s.repl.masterReplOffset + k + 1 ≤ s'.repl.replBacklogOff + s'.repl.replBacklogHistlen →
      PiecesFit s'.repl (s.repl.masterReplOffset + k + 1) →
      masterTryPartialResynchronization s'.repl true (some (s.repl.masterReplOffset + k + 1)) =
        .continue (((streamText s cmds).drop k).map some) ((streamText s cmds).drop k).length ∧
      ∀ before after : List Bytes, before.flatten = (streamText s cmds).take k →
        after.flatten = (streamText s cmds).drop k →
        CutsAccepted (streamCommands s.slaveseldb cmds) ((before ++ after).map List.length) →
        Executes conf s.slaveseldb (before ++ after) cmds := by
  obtain ⟨buf, base, history, hbuf, h⟩ := exists_tracks hrun hbacklog
  obtain ⟨s', stream', buf', hfeed, hbuf', h', -⟩ := feedAll_spec hbuf h hcmds
  refine ⟨s', hfeed, fun k hlow hhigh hfit => ⟨?_, fun before after hbefore hafter => ?_⟩⟩
  · rw [h.offset_eq] at hlow hhigh hfit ⊢
    exact h'.resync hbuf' hlow hhigh hfit
  · apply executes_stream hcmds
    rw [flatten_append, hbefore, hafter, take_append_drop]

/-- The slave has received the first ten bytes. -/
theorem resync_executes_incrby : ∃ s', feedAll onlineServer [(0, incrby), (5, incrby)] = some s' ∧
    masterTryPartialResynchronization s'.repl true (some 12) = .continue
      (((streamText onlineServer [(0, incrby), (5, incrby)]).drop 10).map some) 136 ∧
    Executes ⟨16, false⟩ (-1) [(streamText onlineServer [(0, incrby), (5, incrby)]).take 10,
      (streamText onlineServer [(0, incrby), (5, incrby)]).drop 10] [(0, incrby), (5, incrby)] := by
  obtain ⟨s', hfeed, h⟩ := resync_executes (s := onlineServer)
    (show [BacklogOp.create].foldlM BacklogOp.run _ = _ from rfl) rfl sendable_incrby
  have hrange : s'.repl.replBacklogOff ≤ 12 ∧
      12 ≤ s'.repl.replBacklogOff + s'.repl.replBacklogHistlen ∧ PiecesFit s'.repl 12 := by
    have hall : (feedAll onlineServer [(0, incrby), (5, incrby)]).all (fun s : FeedServer =>
        decide (s.repl.replBacklogOff ≤ 12 ∧
          12 ≤ s.repl.replBacklogOff + s.repl.replBacklogHistlen ∧ PiecesFit s.repl 12)) = true := by
      decide +kernel
    rw [hfeed] at hall
    exact of_decide_eq_true hall
  obtain ⟨hreply, hexecutes⟩ := h 10 hrange.1 hrange.2.1 hrange.2.2
  have hlen : ((streamText onlineServer [(0, incrby), (5, incrby)]).drop 10).length = 136 := by
    decide +kernel
  rw [hlen] at hreply
  exact ⟨s', hfeed, hreply, hexecutes [_] [_] (append_nil _) (append_nil _) (by decide +kernel)⟩

end ServerStack.Redis.Replication
