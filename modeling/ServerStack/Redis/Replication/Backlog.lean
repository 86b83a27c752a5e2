import ServerStack.Lib.CircularBuffer

/-!
# The replication backlog

The circular backlog of `replication.c`, its writers and the reply to a partial
resynchronization.  The cells of a new buffer are `none` until they are written.

The stream of the server is the byte at every replication offset.  In every reachable state the
backlog holds the last `repl_backlog_histlen` bytes of it (`Tracks`), and an accepted `PSYNC` is
answered with exactly the bytes from the requested offset on, if both pieces that are sent are
shorter than `2 ^ 31` bytes.
-/

namespace ServerStack.Redis.Replication

open CircularBuffer List

abbrev Byte := UInt8

/-- The fields of `server` that the backlog functions use. -/
structure ReplServer where
  /-- `server.repl_backlog`: `none` is NULL, and a cell that was never written is `none`. -/
  replBacklog : Option (ℕ → Option Byte)
  replBacklogSize : ℕ
  replBacklogHistlen : ℕ
  replBacklogIdx : ℕ
  replBacklogOff : ℤ
  masterReplOffset : ℤ

variable (s : ReplServer) (buf : ℕ → Option Byte)

def replBacklogMinSize : ℤ := 1024 * 16

/-- The fields set by `initServerConfig`. -/
def initServerConfig : ReplServer where
  replBacklog := none
  replBacklogSize := 1024 * 1024
  replBacklogHistlen := 0
  replBacklogIdx := 0
  replBacklogOff := 0
  masterReplOffset := 0

/-- A buffer as `zmalloc` returns it. -/
def zmalloc : ℕ → Option Byte := fun _ => none

/-- `none` is the failed assertion that there is no backlog yet. -/
def createReplicationBacklog : Option ReplServer :=
  if s.replBacklog.isSome then none
  else some { s with
    replBacklog := some zmalloc
    replBacklogHistlen := 0
    replBacklogIdx := 0
    masterReplOffset := s.masterReplOffset + 1
    replBacklogOff := s.masterReplOffset + 1 + 1 }

def atLeastMinSize (newsize : ℤ) : ℤ :=
  if newsize < replBacklogMinSize then replBacklogMinSize else newsize

def resizeReplicationBacklog (newsize : ℤ) : ReplServer :=
  let newsize := atLeastMinSize newsize
  if (s.replBacklogSize : ℤ) = newsize then s
  else if s.replBacklog.isSome then
    { s with
      replBacklogSize := newsize.toNat
      replBacklog := some zmalloc
      replBacklogHistlen := 0
      replBacklogIdx := 0
      replBacklogOff := s.masterReplOffset + 1 }
  else { s with replBacklogSize := newsize.toNat }

def freeReplicationBacklog : ReplServer := { s with replBacklog := none }

/-- The state of the copy loop of `feedReplicationBacklog`. -/
structure FeedLoop where
  buf : ℕ → Option Byte
  idx : ℕ
  histlen : ℕ

/-- The copy loop: write up to the end of the buffer, then rewind.  One unit of fuel per byte is
enough, because every round copies at least one byte. -/
def feedLoop (size : ℕ) : ℕ → FeedLoop → List Byte → FeedLoop
  | 0, b, _ => b
  | _ + 1, b, [] => b
  | fuel + 1, b, c :: cs =>
    let p := c :: cs
    let thislen := min (size - b.idx) p.length
    let idx := b.idx + thislen
    feedLoop size fuel
      { buf := write b.buf b.idx (p.take thislen)
        idx := if idx = size then 0 else idx
        histlen := b.histlen + thislen } (p.drop thislen)

/-- `feedReplicationBacklog`, for a buffer that exists. -/
def feedReplicationBacklog (p : List Byte) : ReplServer :=
  let offset := s.masterReplOffset + p.length
  let b := feedLoop s.replBacklogSize p.length ⟨buf, s.replBacklogIdx, s.replBacklogHistlen⟩ p
  let histlen := if b.histlen > s.replBacklogSize then s.replBacklogSize else b.histlen
  { s with
    replBacklog := some b.buf
    replBacklogIdx := b.idx
    replBacklogHistlen := histlen
    masterReplOffset := offset
    replBacklogOff := offset - histlen + 1 }

/-- What is sent of an `sds` that `sdsnewlen` has made.  Its length is an `int`, and a negative one
is refused by `write`. -/
def sdsnewlen (init : List (Option Byte)) : List (Option Byte) :=
  init.take ((init.length : ℤ).bmod (2 ^ 32)).toNat

/-- The loop of `addReplyReplicationBacklog`: the cells sent to the slave. -/
def replyLoop (buf : ℕ → Option Byte) (size : ℕ) : ℕ → ℕ → ℕ → List (Option Byte)
  | 0, _, _ => []
  | fuel + 1, j, len =>
    if len = 0 then []
    else
      let thislen := if size - j < len then size - j else len
      sdsnewlen (cells buf j thislen) ++ replyLoop buf size fuel 0 (len - thislen)

/-- The cells sent to the slave and the returned length. -/
def addReplyReplicationBacklog (offset : ℤ) : List (Option Byte) × ℤ :=
  if s.replBacklogHistlen = 0 then ([], 0)
  else
    let skip := offset - s.replBacklogOff
    let j := (s.replBacklogIdx + (s.replBacklogSize - s.replBacklogHistlen)) % s.replBacklogSize
    let j := (j + skip.toNat) % s.replBacklogSize
    let len := s.replBacklogHistlen - skip
    (replyLoop buf s.replBacklogSize len.toNat j len.toNat, s.replBacklogHistlen - skip)

inductive PsyncReply where
  /-- `+CONTINUE`, followed by these cells of the backlog. -/
  | continue (sent : List (Option Byte)) (len : ℤ)
  /-- `+FULLRESYNC` with the offset the slave has to start from. -/
  | fullresync (offset : ℤ)

/-- `masterTryPartialResynchronization`, for a request whose run id matches or not and whose
offset parses or not. -/
def masterTryPartialResynchronization (runidMatches : Bool) (psyncOffset : Option ℤ) : PsyncReply :=
  let needFullResync := PsyncReply.fullresync
    (if s.replBacklog.isNone then s.masterReplOffset + 1 else s.masterReplOffset)
  match runidMatches, psyncOffset, s.replBacklog with
  | true, some offset, some buf =>
    if offset < s.replBacklogOff ∨ offset > s.replBacklogOff + s.replBacklogHistlen then
      needFullResync
    else
      let (sent, len) := addReplyReplicationBacklog s buf offset
      .continue sent len
  | _, _, _ => needFullResync

/-! ## The replication stream -/

/-- The byte fed when `master_repl_offset` became a given value. -/
abbrev Stream := ℤ → Option Byte

/-- The bytes of a chunk take the offsets after the current one. -/
def Stream.feed (stream : Stream) (offset : ℤ) (p : List Byte) : Stream := fun i =>
  if offset < i ∧ i ≤ offset + p.length then p[(i - offset - 1).toNat]? else stream i

inductive BacklogOp where
  | create
  | feed (p : List Byte)
  | resize (newsize : ℤ)
  | free

/-- One call, together with the stream it extends.  The backlog is fed only when it exists, as
`replicationFeedSlaves` does; `none` is a failed assertion. -/
def BacklogOp.run : ReplServer × Stream → BacklogOp → Option (ReplServer × Stream)
  | (s, stream), create => do
    let s ← createReplicationBacklog s
    return (s, stream)
  | (s, stream), feed p =>
    match s.replBacklog with
    | none => some (s, stream)
    | some buf => some (feedReplicationBacklog s buf p, stream.feed s.masterReplOffset p)
  | (s, stream), resize newsize => some (resizeReplicationBacklog s newsize, stream)
  | (s, stream), free => some (freeReplicationBacklog s, stream)

/-! ## The backlog holds the end of the stream -/

/-- The bytes fed since the backlog was last emptied, which started after offset `base`. -/
structure Tracks (s : ReplServer) (stream : Stream) (buf : ℕ → Option Byte) (base : ℤ)
    (history : List Byte) : Prop where
  offset_eq : s.masterReplOffset = base + history.length
  stream_eq : ∀ k < history.length, stream (base + 1 + k) = history[k]?
  histlen_eq : s.replBacklogHistlen = min s.replBacklogSize history.length
  off_eq : s.replBacklogOff = s.masterReplOffset - s.replBacklogHistlen + 1
  holds : Holds buf s.replBacklogSize s.replBacklogIdx (lastN s.replBacklogSize history)

theorem feedLoop_eq {size : ℕ} :
    ∀ (fuel : ℕ) (p : List Byte) (b : FeedLoop), p.length ≤ fuel → b.idx < size →
      feedLoop size fuel b p =
        ⟨(p.foldl (push size) (b.buf, b.idx)).1, (p.foldl (push size) (b.buf, b.idx)).2,
          b.histlen + p.length⟩ := by
  intro fuel
  induction fuel with
  | zero =>
    intro p b hfuel _
    obtain rfl := length_eq_zero_iff.1 (Nat.le_zero.1 hfuel)
    rfl
  | succ fuel ih =>
    intro p b hfuel hidx
    cases p with
    | nil => rfl
    | cons c cs =>
      obtain ⟨n, hn⟩ : ∃ n, n = min (size - b.idx) (c :: cs).length := ⟨_, rfl⟩
      have hlen : ((c :: cs).take n).length = n := by
        rw [length_take]
        omega
      have hstep : feedLoop size (fuel + 1) b (c :: cs) = feedLoop size fuel
          ⟨write b.buf b.idx ((c :: cs).take n), advance size b.idx n, b.histlen + n⟩
          ((c :: cs).drop n) := by
        rw [hn]
        rfl
      have hpush := foldl_push ((c :: cs).take n) b.buf hidx (by rw [hlen]; omega)
      rw [hlen] at hpush
      rw [hstep, ih _ _ (by rw [length_drop]; omega) (advance_lt (by omega) (by omega))]
      simp only [← hpush, ← foldl_append, take_append_drop, length_drop]
      congr 1
      omega

variable {s : ReplServer}

theorem Tracks.feed {stream : Stream} {buf : ℕ → Option Byte} {base : ℤ} {history : List Byte}
    (h : Tracks s stream buf base history) (p : List Byte) :
    ∃ buf', (feedReplicationBacklog s buf p).replBacklog = some buf' ∧
      Tracks (feedReplicationBacklog s buf p) (stream.feed s.masterReplOffset p) buf' base
        (history ++ p) := by
  have hloop := feedLoop_eq p.length p ⟨buf, s.replBacklogIdx, s.replBacklogHistlen⟩ le_rfl
    h.holds.idx_lt
  refine ⟨_, rfl, ?_⟩
  constructor
  · simp only [feedReplicationBacklog, length_append, h.offset_eq]
    push_cast
    ring
  · intro k hk
    rw [length_append] at hk
    simp only [Stream.feed, h.offset_eq]
    rcases Nat.lt_or_ge k history.length with hold | hnew
    · rw [if_neg (by omega), h.stream_eq k hold, getElem?_append_left hold]
    · rw [if_pos (by omega), getElem?_append_right hnew]
      congr 1
      omega
  · have hold := h.histlen_eq
    simp only [feedReplicationBacklog, hloop, length_append]
    split_ifs <;> omega
  · rfl
  · simp only [feedReplicationBacklog, hloop]
    exact h.holds.foldl_push p

/-! ## Reading the backlog -/

theorem sdsnewlen_cases (l : List (Option Byte)) :
    sdsnewlen l = l ∧ l.length < 2 ^ 31 ∨ (sdsnewlen l).length < l.length ∧ 2 ^ 31 ≤ l.length := by
  rw [sdsnewlen, take_eq_self_iff, length_take, Int.bmod_def]
  split_ifs <;> omega

theorem sdsnewlen_append_iff (l r : List (Option Byte)) :
    sdsnewlen l ++ sdsnewlen r = l ++ r ↔ l.length < 2 ^ 31 ∧ r.length < 2 ^ 31 := by
  constructor
  · intro h
    have hlen := congrArg length h
    rw [length_append, length_append] at hlen
    have hl := length_take_le' ((l.length : ℤ).bmod (2 ^ 32)).toNat l
    have hr := length_take_le' ((r.length : ℤ).bmod (2 ^ 32)).toNat r
    rw [← sdsnewlen] at hl hr
    have hcl := sdsnewlen_cases l
    have hcr := sdsnewlen_cases r
    omega
  · rintro ⟨hl, hr⟩
    rw [((sdsnewlen_cases l).resolve_right (by omega)).1,
      ((sdsnewlen_cases r).resolve_right (by omega)).1]

/-- Two rounds of the reply loop read everything, and two units of fuel are there when the second
round has something to read. -/
theorem replyLoop_eq {size j len : ℕ} (hj : j < size) (hlen : len ≤ size) :
    replyLoop buf size len j len = sdsnewlen (cells buf j (min (size - j) len)) ++
      sdsnewlen (cells buf 0 (len - (size - j))) := by
  rcases len with _ | len
  · simp [replyLoop, cells, sdsnewlen]
  · rw [replyLoop, if_neg (by omega)]
    simp only
    split_ifs with hcross
    · have hrest : replyLoop buf size len 0 (len + 1 - (size - j)) =
          sdsnewlen (cells buf 0 (len + 1 - (size - j))) := by
        obtain ⟨fuel, rfl⟩ : ∃ fuel, len = fuel + 1 := ⟨len - 1, by omega⟩
        rw [replyLoop, if_neg (by omega)]
        simp only
        rw [if_neg (by omega)]
        rcases fuel with _ | fuel <;> simp [replyLoop]
      rw [hrest, Nat.min_eq_left (by omega)]
    · rw [Nat.sub_self, Nat.min_eq_right (by omega), Nat.sub_eq_zero_of_le (by omega)]
      rcases len with _ | len <;> simp [replyLoop, cells, sdsnewlen]

/-- The bytes from the requested one up to the end of the buffer, and those from its start on, are
fewer than `2 ^ 31` each. -/
def PiecesFit (s : ReplServer) (offset : ℤ) : Prop :=
  let skip := (offset - s.replBacklogOff).toNat
  let j := (s.replBacklogIdx + (s.replBacklogSize - s.replBacklogHistlen) + skip) %
    s.replBacklogSize
  min (s.replBacklogSize - j) (s.replBacklogHistlen - skip) < 2 ^ 31 ∧
    s.replBacklogHistlen - skip - (s.replBacklogSize - j) < 2 ^ 31

instance (s : ReplServer) (offset : ℤ) : Decidable (PiecesFit s offset) :=
  inferInstanceAs (Decidable (_ ∧ _))

theorem Tracks.reply {stream : Stream} {buf : ℕ → Option Byte} {base : ℤ} {history : List Byte}
    (h : Tracks s stream buf base history) {offset : ℤ} (hlow : s.replBacklogOff ≤ offset)
    (hhigh : offset ≤ s.replBacklogOff + s.replBacklogHistlen) :
    ∃ (sent : List (Option Byte)) (bytes : List Byte),
      addReplyReplicationBacklog s buf offset = (sent, (bytes.length : ℤ)) ∧
      (sent = bytes.map some ↔ PiecesFit s offset) ∧
      offset + bytes.length = s.masterReplOffset + 1 ∧
      ∀ k < bytes.length, stream (offset + k) = bytes[k]? := by
  have hoff := h.off_eq
  have hmaster := h.offset_eq
  have hhist := h.histlen_eq
  have hcontents : (lastN s.replBacklogSize history).length = s.replBacklogHistlen := by
    rw [length_lastN, hhist]
  obtain ⟨skip, hskip⟩ : ∃ skip : ℕ, (skip : ℤ) = offset - s.replBacklogOff :=
    ⟨(offset - s.replBacklogOff).toNat, Int.toNat_of_nonneg (by omega)⟩
  refine ⟨(addReplyReplicationBacklog s buf offset).1,
    (lastN s.replBacklogSize history).drop skip, ?_, ?_, ?_, ?_⟩
  · rw [addReplyReplicationBacklog, length_drop]
    split_ifs with hempty
    · rw [hcontents, hempty, Nat.zero_sub, Nat.cast_zero]
    · refine Prod.ext rfl ?_
      dsimp only
      omega
  · rw [addReplyReplicationBacklog, PiecesFit]
    split_ifs with hempty
    · have hnil : lastN s.replBacklogSize history = [] :=
        eq_nil_of_length_eq_zero (by rw [hcontents, hempty])
      simp [hnil, hempty]
    · have hsize : s.replBacklogIdx + s.replBacklogSize - s.replBacklogHistlen =
          s.replBacklogIdx + (s.replBacklogSize - s.replBacklogHistlen) := by omega
      have hlen : skip + (s.replBacklogHistlen - skip) =
          (lastN s.replBacklogSize history).length := by
        omega
      have hread := h.holds.read hlen rfl
      rw [hcontents, hsize] at hread
      simp only [← hskip, Int.toNat_natCast, Nat.mod_add_mod]
      rw [show ((s.replBacklogHistlen : ℤ) - skip).toNat = s.replBacklogHistlen - skip by omega,
        replyLoop_eq buf (Nat.mod_lt _ (by omega)) (by omega), ← hread, sdsnewlen_append_iff]
      simp [cells]
  · rw [length_drop]
    omega
  · intro k hk
    rw [length_drop] at hk
    rw [getElem?_drop, getElem?_lastN]
    have hstream := h.stream_eq (history.length - s.replBacklogSize + (skip + k)) (by omega)
    rw [← hstream]
    congr 1
    omega

/-! ## Runs -/

/-- The backlog, when there is one, holds the end of the stream. -/
def BacklogInv : ReplServer × Stream → Prop
  | (s, stream) => 0 < s.replBacklogSize ∧ ∀ buf, s.replBacklog = some buf →
      ∃ base history, Tracks s stream buf base history

theorem tracks_nil (stream : Stream) (hsize : 0 < s.replBacklogSize)
    (hhist : s.replBacklogHistlen = 0) (hidx : s.replBacklogIdx = 0)
    (hoff : s.replBacklogOff = s.masterReplOffset + 1) :
    Tracks s stream zmalloc s.masterReplOffset [] where
  offset_eq := by simp
  stream_eq := fun k hk => absurd hk (Nat.not_lt_zero k)
  histlen_eq := by simp [hhist]
  off_eq := by simp [hhist, hoff]
  holds := by
    rw [hidx, lastN_nil]
    exact holds_nil _ hsize

theorem backlogOp_inv {r r' : ReplServer × Stream} {op : BacklogOp} (hr : BacklogInv r)
    (hop : op.run r = some r') : BacklogInv r' := by
  obtain ⟨s, stream⟩ := r
  obtain ⟨hsize, htracks⟩ := hr
  cases op with
  | create =>
    simp only [BacklogOp.run, createReplicationBacklog] at hop
    split_ifs at hop with hexists
    · cases hop
    · cases hop
      refine ⟨hsize, fun buf hbuf => ?_⟩
      cases hbuf
      exact ⟨_, [], tracks_nil stream hsize rfl rfl rfl⟩
  | feed p =>
    simp only [BacklogOp.run] at hop
    cases hbuf : s.replBacklog with
    | none =>
      rw [hbuf] at hop
      cases hop
      exact ⟨hsize, htracks⟩
    | some buf =>
      rw [hbuf] at hop
      cases hop
      obtain ⟨base, history, htrack⟩ := htracks buf hbuf
      obtain ⟨buf', hbuf', htrack'⟩ := htrack.feed p
      refine ⟨hsize, fun b hb => ?_⟩
      obtain rfl := Option.some.inj (hbuf'.symm.trans hb)
      exact ⟨base, history ++ p, htrack'⟩
  | resize newsize =>
    cases hop
    have hpos : 0 < (atLeastMinSize newsize).toNat := by
      unfold atLeastMinSize replBacklogMinSize
      split_ifs <;> omega
    simp only [resizeReplicationBacklog]
    split_ifs with hsame hexists
    · exact ⟨hsize, htracks⟩
    · refine ⟨hpos, fun buf hbuf => ?_⟩
      cases hbuf
      exact ⟨_, [], tracks_nil stream hpos rfl rfl rfl⟩
    · refine ⟨hpos, fun buf hbuf => ?_⟩
      rw [Option.not_isSome_iff_eq_none] at hexists
      cases hexists.symm.trans hbuf
  | free =>
    cases hop
    exact ⟨hsize, fun buf hbuf => by cases hbuf⟩

theorem run_backlogInv {r r' : ReplServer × Stream} :
    ∀ {ops : List BacklogOp}, BacklogInv r → ops.foldlM BacklogOp.run r = some r' → BacklogInv r'
  | [], hr, h => by
      cases h
      exact hr
  | op :: ops, hr, h => by
      obtain ⟨mid, hmid, hrest⟩ := Option.bind_eq_some_iff.1 h
      exact run_backlogInv (backlogOp_inv hr hmid) hrest

/-- Whatever the run of the backlog functions, an offset that passes the test of
`masterTryPartialResynchronization` is answered with the written bytes of the stream from that
offset up to `master_repl_offset`, if and only if both pieces are shorter than `2 ^ 31` bytes. -/
theorem psync_sends_stream (ops : List BacklogOp) (s : ReplServer) (stream : Stream)
    (hrun : ops.foldlM BacklogOp.run (initServerConfig, fun _ => none) = some (s, stream))
    (offset : ℤ) (hbacklog : s.replBacklog.isSome) (hlow : s.replBacklogOff ≤ offset)
    (hhigh : offset ≤ s.replBacklogOff + s.replBacklogHistlen) :
    (∃ bytes : List Byte, masterTryPartialResynchronization s true (some offset) =
        .continue (bytes.map some) bytes.length ∧
      offset + bytes.length = s.masterReplOffset + 1 ∧
      ∀ k < bytes.length, stream (offset + k) = bytes[k]?) ↔ PiecesFit s offset := by
  have hinit : BacklogInv (initServerConfig, fun _ => none) :=
    ⟨by decide, fun buf hbuf => by cases hbuf⟩
  obtain ⟨buf, hbuf⟩ := Option.isSome_iff_exists.1 hbacklog
  obtain ⟨base, history, htracks⟩ := (run_backlogInv hinit hrun).2 buf hbuf
  obtain ⟨sent, bytes, hreply, hfit, hend, hstream⟩ := htracks.reply hlow hhigh
  have haccept : ¬ (offset < s.replBacklogOff ∨
      offset > s.replBacklogOff + s.replBacklogHistlen) := by omega
  simp only [masterTryPartialResynchronization, hbuf, if_neg haccept, hreply]
  rw [← hfit]
  constructor
  · rintro ⟨bytes', hsent, hend', hstream'⟩
    have hlen : bytes'.length = bytes.length := by omega
    have hbytes : bytes' = bytes := by
      apply ext_getElem?
      intro k
      rcases Nat.lt_or_ge k bytes.length with hk | hk
      · rw [← hstream k hk, ← hstream' k (by omega)]
      · rw [getElem?_eq_none hk, getElem?_eq_none (by omega)]
    rw [← hbytes]
    exact (PsyncReply.continue.inj hsent).1
  · intro hsent
    exact ⟨bytes, by rw [hsent], hend, hstream⟩

/-- After three bytes the second one is still available. -/
theorem psync_sends_stream_second :
    ∃ s stream, [BacklogOp.create, .feed [1, 2, 3]].foldlM BacklogOp.run
        (initServerConfig, fun _ => none) = some (s, stream) ∧
      ∃ bytes : List Byte, masterTryPartialResynchronization s true (some 3) =
          .continue (bytes.map some) bytes.length ∧
        3 + (bytes.length : ℤ) = s.masterReplOffset + 1 ∧
        ∀ k < bytes.length, stream (3 + k) = bytes[k]? :=
  ⟨_, _, rfl, (psync_sends_stream [.create, .feed [1, 2, 3]] _ _ rfl 3 rfl (by decide)
    (by decide)).2 ⟨by decide, by decide⟩⟩

/-- What is fed to an empty backlog that has room for it is one piece. -/
theorem psync_one_piece {p : List Byte} {size : ℕ} (hpos : 0 < p.length) (hlt : p.length < size) :
    masterTryPartialResynchronization (feedReplicationBacklog ⟨some zmalloc, size, 0, 0, 2, 1⟩
      zmalloc p) true (some 2) =
        .continue (sdsnewlen (cells (write zmalloc 0 p) 0 p.length)) p.length := by
  have hloop := feedLoop_eq p.length p ⟨zmalloc, 0, 0⟩ le_rfl (show 0 < size by omega)
  dsimp only at hloop
  rw [foldl_push p zmalloc (by omega) (by omega), advance, if_neg (by omega),
    Nat.zero_add] at hloop
  have hfeed : feedReplicationBacklog ⟨some zmalloc, size, 0, 0, 2, 1⟩ zmalloc p =
      ⟨some (write zmalloc 0 p), size, p.length, p.length, 2, 1 + p.length⟩ := by
    simp only [feedReplicationBacklog, hloop, if_neg (show ¬ p.length > size by omega)]
    congr 1
    omega
  have hreply := replyLoop_eq (write zmalloc 0 p) (show 0 < size by omega) hlt.le
  rw [Nat.sub_zero, Nat.min_eq_right hlt.le, Nat.sub_eq_zero_of_le hlt.le,
    show sdsnewlen (cells (write zmalloc 0 p) 0 0) = [] from take_nil, append_nil] at hreply
  have hfirst : (p.length + (size - p.length)) % size = 0 := by
    rw [Nat.add_sub_cancel' hlt.le, Nat.mod_self]
  have haccept : ¬ ((2 : ℤ) < 2 ∨ 2 > 2 + (p.length : ℤ)) := by omega
  have hhist : ¬ p.length = 0 := by omega
  rw [hfeed]
  simp only [masterTryPartialResynchronization, addReplyReplicationBacklog, if_neg haccept,
    if_neg hhist, sub_self, Int.toNat_zero, hfirst, Nat.add_zero, Nat.zero_mod, sub_zero,
    Int.toNat_natCast, hreply]

theorem psync_five {p : List Byte} (hp : p.length = 2 ^ 32 + 5) :
    ∃ s stream, [BacklogOp.create, .resize (2 ^ 33), .feed p].foldlM BacklogOp.run
        (initServerConfig, fun _ => none) = some (s, stream) ∧
      ∃ sent, masterTryPartialResynchronization s true (some 2) =
        .continue sent (2 ^ 32 + 5) ∧ sent.length = 5 := by
  have hsize : resizeReplicationBacklog ⟨some zmalloc, 1024 * 1024, 0, 0, 2, 1⟩ (2 ^ 33) =
      ⟨some zmalloc, 2 ^ 33, 0, 0, 2, 1⟩ := by
    norm_num [resizeReplicationBacklog, atLeastMinSize, replBacklogMinSize]
    rfl
  have hpiece := psync_one_piece (show 0 < p.length by omega) (show p.length < 2 ^ 33 by omega)
  rw [← hsize, hp] at hpiece
  refine ⟨_, _, rfl, _, hpiece, ?_⟩
  rw [sdsnewlen, length_take, cells, length_map, length_range]
  rfl

/-- With a backlog of 8 GB, `2 ^ 32 + 5` bytes are one piece, of which 5 bytes are sent. -/
theorem psync_long : ∃ s stream,
    [BacklogOp.create, .resize (2 ^ 33), .feed (replicate (2 ^ 32 + 5) 0)].foldlM BacklogOp.run
        (initServerConfig, fun _ => none) = some (s, stream) ∧
      ∃ sent, masterTryPartialResynchronization s true (some 2) =
        .continue sent (2 ^ 32 + 5) ∧ sent.length = 5 :=
  psync_five length_replicate

end ServerStack.Redis.Replication
