import ServerStack.Memcached.AsciiHandlers
import ServerStack.Memcached.Framing

/-!
# Framing of the text protocol

A stream of well-formed commands, cut into reads anyhow, is given to `process_command` line by line,
and no data block is taken for a command: at every step the input that is left is the rest of the
current block and then the commands that follow.
-/

namespace ServerStack.Memcached

open Decimal Run List

/-! ## Streams of commands -/

/-- A command as a client sends it; `plain` is one without data. -/
inductive Command where
  | storage (u : Storage)
  | plain (line : Bytes)

namespace Command

def line : Command → Bytes
  | storage u => u.line
  | plain line => line

def block : Command → Bytes
  | storage u => u.data ++ crlf
  | plain _ => []

def encode (cmd : Command) : Bytes := cmd.line ++ crlf ++ cmd.block

/-- A line of at most 1024 bytes with its end, or a `get`. -/
structure PlainLine (line : Bytes) : Prop where
  ne_nil : line ≠ []
  text : ∀ b ∈ line, b ≠ 10 ∧ b ≠ 0
  not_binary : line.head? ≠ some 0x80
  not_storage : ∀ comm, (words line).head? ≠ some (verb comm)
  short : line.length + 2 ≤ 1024 ∨ line.take 4 = ascii "get " ∨ line.take 5 = ascii "gets "

def WellFormed : Command → Prop
  | storage u => u.WellFormed
  | plain line => PlainLine line

def isQuit : Command → Bool
  | storage _ => false
  | plain line => decide (words line = [ascii "quit"])

end Command

def encodeAll (cmds : List Command) : Bytes := cmds.flatMap Command.encode

/-- The lines that are to be processed: `quit` ends the connection. -/
def commandLines : List Command → List Bytes
  | [] => []
  | cmd :: cmds => cmd.line :: if cmd.isQuit then [] else commandLines cmds

@[simp] theorem encodeAll_cons (cmd : Command) (cmds : List Command) :
    encodeAll (cmd :: cmds) = cmd.encode ++ encodeAll cmds := rfl

variable {cmds : List Command} {c : Conn}

theorem commandLines_append (h : ∀ cmd ∈ cmds, cmd.isQuit = false) (rest : List Command) :
    commandLines (cmds ++ rest) = cmds.map Command.line ++ commandLines rest := by
  induction cmds with
  | nil => rfl
  | cons cmd cmds ih =>
    rw [cons_append, commandLines, if_neg (by rw [h cmd mem_cons_self]; decide),
      ih fun cmd' hcmd' => h cmd' (mem_cons_of_mem _ hcmd'), map_cons, cons_append]

/-! ## The bytes of a line -/

theorem mem_line {ws : List Bytes} {b : UInt8} (h : b ∈ line ws) : b = 32 ∨ ∃ w ∈ ws, b ∈ w := by
  induction ws with
  | nil => cases h
  | cons w ws ih =>
    cases ws with
    | nil =>
      refine .inr ⟨w, mem_cons_self, ?_⟩
      simpa [line, List.intercalate] using h
    | cons w' ws =>
      rw [line_cons_cons, mem_append, mem_cons] at h
      rcases h with h | h | h
      · exact .inr ⟨w, mem_cons_self, h⟩
      · exact .inl h
      · rcases ih h with h | ⟨w'', hw'', hb⟩
        · exact .inl h
        · exact .inr ⟨w'', mem_cons_of_mem _ hw'', hb⟩

theorem IsNumber.text {digits : Bytes} (h : IsNumber digits) : ∀ b ∈ digits, b ≠ 10 ∧ b ≠ 0 := by
  intro b hb
  have hdigit := h.2 b hb
  exact ⟨fun heq => absurd (heq ▸ hdigit) (by decide), fun heq => absurd (heq ▸ hdigit) (by decide)⟩

theorem verb_text (comm : NreadCmd) : ∀ b ∈ verb comm, b ≠ 10 ∧ b ≠ 0 := by
  cases comm <;> decide +kernel

theorem Storage.WellFormed.text {u : Storage} (h : u.WellFormed) :
    ∀ b ∈ u.line, b ≠ 10 ∧ b ≠ 0 := by
  intro b hb
  rcases mem_line hb with rfl | ⟨w, hw, hbw⟩
  · decide
  unfold Storage.fields at hw
  simp only [mem_append, mem_cons, not_mem_nil, or_false] at hw
  rcases hw with (rfl | rfl | rfl | rfl | rfl) | hcas | hnoreply
  · exact verb_text u.comm b hbw
  · exact h.key.2.2 b hbw
  · exact h.flags.1.text b hbw
  · obtain ⟨digits, hdigits, -, heq | heq⟩ := h.exptime <;> rw [heq] at hbw
    · exact hdigits.text b hbw
    · rcases mem_cons.1 hbw with rfl | hbw
      · decide
      · exact hdigits.text b hbw
  · exact h.bytes.1.text b hbw
  · split_ifs at hcas with hcomm
    · rw [mem_singleton.1 hcas] at hbw
      exact (h.casUnique hcomm).1.text b hbw
    · cases hcas
  · split_ifs at hnoreply
    · have htext : ∀ b ∈ ascii "noreply", b ≠ 10 ∧ b ≠ 0 := by decide +kernel
      rw [mem_singleton.1 hnoreply] at hbw
      exact htext b hbw
    · cases hnoreply

namespace Command

variable {cmd : Command}

variable (h : cmd.WellFormed)

include h

theorem WellFormed.text : ∀ b ∈ cmd.line, b ≠ 10 ∧ b ≠ 0 := by
  cases cmd with
  | storage u => exact Storage.WellFormed.text h
  | plain line => exact PlainLine.text h

theorem WellFormed.line_ne_nil : cmd.line ≠ [] := by
  cases cmd with
  | storage u =>
    intro hnil
    have hwords : words u.line = u.fields := words_line (Storage.WellFormed.fields_isWord h)
    change u.line = [] at hnil
    rw [hnil] at hwords
    cases hwords
  | plain line => exact PlainLine.ne_nil h

theorem WellFormed.not_binary : cmd.line.head? ≠ some 0x80 := by
  cases cmd with
  | storage u =>
    have hline : u.line = verb u.comm ++ 32 :: Memcached.line u.fields.tail :=
      line_cons_cons _ _ _
    change u.line.head? ≠ _
    rw [hline, head?_append_of_ne_nil _ (verb_isWord u.comm).1]
    cases u.comm <;> decide
  | plain line => exact PlainLine.not_binary h

theorem WellFormed.commandOf : commandOf (cmd.line ++ [13]) = cmd.line := by
  have hpos := length_pos_iff.2 h.line_ne_nil
  unfold Memcached.commandOf
  rw [if_pos ⟨by rw [length_append, length_singleton]; omega, by simp⟩, dropLast_concat]

end Command

theorem takeWhile_line {buf more line rest : Bytes} (h : buf ++ more = line ++ 10 :: rest)
    (hline : 10 ∉ line) (hbuf : 10 ∈ buf) :
    buf.takeWhile (· ≠ 10) = line ∧ line.length + 1 ≤ buf.length ∧
      buf.drop (line.length + 1) ++ more = rest := by
  induction line generalizing buf with
  | nil =>
    cases buf with
    | nil => cases hbuf
    | cons b buf =>
      injection h with hb hrest
      subst hb
      exact ⟨rfl, Nat.succ_le_succ (Nat.zero_le _), hrest⟩
  | cons a line ih =>
    cases buf with
    | nil => cases hbuf
    | cons b buf =>
      injection h with hb hrest
      subst hb
      rw [mem_cons, not_or] at hline
      obtain ⟨htake, hlength, hdrop⟩ :=
        ih hrest hline.2 ((mem_cons.1 hbuf).resolve_left hline.1)
      refine ⟨?_, Nat.succ_le_succ hlength, hdrop⟩
      rw [takeWhile_cons_of_pos (by simpa using Ne.symm hline.1), htake]

theorem isPrefix_line {buf more line rest : Bytes} (h : buf ++ more = line ++ 10 :: rest)
    (hbuf : 10 ∉ buf) : buf.length ≤ line.length ∧ buf = line.take buf.length := by
  have hle : buf.length ≤ line.length := by
    by_contra hlt
    have hget := congrArg (fun l => l[line.length]?) h
    simp only [getElem?_append_left (not_le.1 hlt), getElem?_append_right le_rfl,
      Nat.sub_self, getElem?_cons_zero] at hget
    exact hbuf (mem_of_getElem? hget)
  refine ⟨hle, ?_⟩
  have htake := congrArg (List.take buf.length) h
  rwa [take_left, take_append_of_le_length hle] at htake

/-! ## The invariant -/

def Pending (c : Conn) (k : ℤ) : Prop :=
  match c.state with
  | .newCmd | .parseCmd | .mwrite => k = 0
  | .waiting | .read => k = 0 ∧ 10 ∉ c.rbuf
  | .nread => k = c.rlbytes ∧ c.rlbytes < 2 ^ 31 ∧ c.protocol = .ascii ∧
    ∃ id comm, c.item = some id ∧ c.cmd = .nread comm
  | .swallow => k = c.sbytes ∧ c.sbytes < 2 ^ 31
  | .write => c.writeAndGo = .newCmd ∧ k = 0 ∨
    c.writeAndGo = .swallow ∧ k = c.sbytes ∧ c.sbytes < 2 ^ 31
  | .closing | .closed => False

theorem pending_nread (hstate : c.state = .nread) {k : ℤ} :
    Pending c k ↔ k = c.rlbytes ∧ c.rlbytes < 2 ^ 31 ∧ c.protocol = .ascii ∧
      ∃ id comm, c.item = some id ∧ c.cmd = .nread comm := by
  unfold Pending
  rw [hstate]

theorem pending_write (hstate : c.state = .write) {k : ℤ} :
    Pending c k ↔ c.writeAndGo = .newCmd ∧ k = 0 ∨
      c.writeAndGo = .swallow ∧ k = c.sbytes ∧ c.sbytes < 2 ^ 31 := by
  unfold Pending
  rw [hstate]

theorem pending_answered
    (hstate : c.state = .newCmd ∨ c.state = .write ∧ c.writeAndGo = .newCmd ∨ c.state = .mwrite) :
    Pending c 0 := by
  rcases hstate with hstate | ⟨hstate, hgo⟩ | hstate
  · unfold Pending
    rw [hstate]
  · exact (pending_write hstate).2 (.inl ⟨hgo, rfl⟩)
  · unfold Pending
    rw [hstate]

/-- A connection in the middle of a stream, with the commands that are still to come. -/
structure Live (rest : List Command) (c : Conn) : Prop where
  protocol : c.protocol = .ascii ∨ c.protocol = .negotiating ∧ c.commands = []
  fits : c.Fits
  noEof : Arrival.eof ∉ c.socket
  noreply : c.state ≠ .nread → c.noreply = false
  input : ∃ k, Pending c k ∧ c.Behind k (encodeAll rest)

/-- A connection is in the middle of the stream, or has been ended by the client. -/
inductive Framed (cmds : List Command) (c : Conn) : Prop where
  | live (done rest : List Command) (hcmds : cmds = done ++ rest)
      (hquit : ∀ cmd ∈ done, cmd.isQuit = false) (hcommands : c.commands = done.map Command.line)
      (hlive : Live rest c)
  | quit (done rest : List Command) (cmd : Command) (hcmds : cmds = done ++ cmd :: rest)
      (hquit : ∀ cmd ∈ done, cmd.isQuit = false) (hcmd : cmd.isQuit = true)
      (hcommands : c.commands = done.map Command.line ++ [cmd.line])
      (hstate : c.state = .closing ∨ c.state = .closed)

theorem Framed.commands_isPrefix (h : Framed cmds c) : c.commands <+: commandLines cmds := by
  cases h with
  | live done rest hcmds hquit hcommands hlive =>
    rw [hcmds, commandLines_append hquit, hcommands]
    exact prefix_append _ _
  | quit done rest cmd hcmds hquit hcmd hcommands hstate =>
    rw [hcmds, commandLines_append hquit, hcommands, commandLines, if_pos hcmd]

theorem Framed.commands_eq (h : Framed cmds c) (hrest : AtRest c) :
    c.commands = commandLines cmds := by
  cases h with
  | quit done rest cmd hcmds hquit hcmd hcommands hstate =>
    rw [hcmds, commandLines_append hquit, hcommands, commandLines, if_pos hcmd]
  | live done rest hcmds hquit hcommands hlive =>
    obtain ⟨k, hpending, block, hblock, hunread⟩ := hlive.input
    unfold Pending at hpending
    rcases hrest with hstate | hstate | ⟨hstate, hsocket⟩
    · rw [hstate] at hpending
      cases hpending
    · rw [hstate] at hpending
      cases hpending
    · have hline : k = 0 ∧ 10 ∉ c.rbuf := by
        rcases hstate with hstate | hstate <;> rwa [hstate] at hpending
      have hnil : block = [] := length_eq_zero_iff.1 (by omega)
      unfold Conn.unread at hunread
      rw [hsocket, hnil, nil_append] at hunread
      cases rest with
      | nil =>
        rw [hcmds, commandLines_append hquit, hcommands, commandLines, append_nil]
      | cons cmd rest =>
        exfalso
        apply hline.2
        have hmem : 10 ∈ encodeAll (cmd :: rest) := by
          simp [Command.encode, crlf]
        rwa [← hunread, socketBytes, flatMap_nil, append_nil] at hmem

/-! ## The steps inside a command -/

section

variable {rest : List Command} {c c' : Conn}

theorem Conn.Behind.of_sameInput {k : ℤ} {bytes : Bytes} (h : c.Behind k bytes)
    (hsame : SameInput c c') : c'.Behind k bytes := by
  unfold Conn.Behind Conn.unread
  rw [hsame.rbuf, hsame.socket]
  exact h

theorem SameInput.weight (h : SameInput c c') : c'.weight = c.weight := by
  unfold Conn.weight
  rw [h.rbuf, h.socket]

section

variable (h : Live rest c)

include h

theorem Live.of_sameInput (hsame : SameInput c c')
    (hnoreply : c'.state ≠ .nread → c'.noreply = false)
    (hinput : ∃ k, Pending c' k ∧ c.Behind k (encodeAll rest)) : Live rest c' where
  protocol := by
    rw [hsame.protocol, hsame.commands]
    exact h.protocol
  fits := by
    unfold Conn.Fits
    rw [hsame.rbuf, hsame.rsize]
    exact h.fits
  noEof := by
    rw [hsame.socket]
    exact h.noEof
  noreply := hnoreply
  input := by
    obtain ⟨k, hpending, hbehind⟩ := hinput
    exact ⟨k, hpending, hbehind.of_sameInput hsame⟩

theorem Live.of_answered (hbehind : c.Behind 0 (encodeAll rest))
    (hanswered : Answered c c') : Live rest c' := by
  refine h.of_sameInput hanswered.toSameInput (fun _ => hanswered.noreply) ⟨0, ?_, hbehind⟩
  unfold Pending
  rcases hanswered.state with hstate | ⟨hstate, hgo⟩ | hstate <;> rw [hstate]
  exact .inl ⟨hgo, rfl⟩

theorem Live.behind (hstate : c.state = .newCmd ∨ c.state = .mwrite ∨ c.state = .parseCmd) :
    c.Behind 0 (encodeAll rest) := by
  obtain ⟨k, hpending, hbehind⟩ := h.input
  unfold Pending at hpending
  rcases hstate with hstate | hstate | hstate <;> rw [hstate] at hpending <;> rwa [hpending] at hbehind

theorem Live.unread_eq (hstate : c.state = .parseCmd) : c.unread = encodeAll rest :=
  (h.behind (.inr (.inr hstate))).unread_eq

theorem Live.state_ne : c.state ≠ .closing ∧ c.state ≠ .closed := by
  obtain ⟨k, hpending, -⟩ := h.input
  unfold Pending at hpending
  constructor
  · intro hstate
    rwa [hstate] at hpending
  · intro hstate
    rwa [hstate] at hpending

theorem live_waiting (hstate : c.state = .waiting) : Live rest { c with state := .read } := by
  obtain ⟨k, hpending, hbehind⟩ := h.input
  unfold Pending at hpending
  rw [hstate] at hpending
  exact h.of_sameInput ⟨rfl, rfl, rfl, rfl, rfl⟩
    (fun _ => h.noreply (by rw [hstate]; decide)) ⟨k, hpending, hbehind⟩

theorem live_newCmd (hstate : c.state = .newCmd) (cache : Cache) :
    Live rest (resetCmdHandler cache c).2 ∧ measure (resetCmdHandler cache c).2 < measure c := by
  have hbehind := h.behind (.inl hstate)
  have hnoreply := h.noreply (by rw [hstate]; decide)
  have hfits := fits_connShrink h.fits
  by_cases hempty : c.rbuf = []
  · have hnext : (resetCmdHandler cache c).2.state = .waiting := if_pos hempty
    refine ⟨⟨h.protocol, hfits, h.noEof, fun _ => hnoreply, 0, ?_, hbehind⟩,
      measure_lt_of_rank le_rfl hstate hnext (by decide)⟩
    unfold Pending
    rw [hnext]
    refine ⟨rfl, ?_⟩
    change 10 ∉ c.rbuf
    rw [hempty]
    exact not_mem_nil
  · have hnext : (resetCmdHandler cache c).2.state = .parseCmd := if_neg hempty
    refine ⟨⟨h.protocol, hfits, h.noEof, fun _ => hnoreply, 0, ?_, hbehind⟩,
      measure_lt_of_rank le_rfl hstate hnext (by decide)⟩
    unfold Pending
    rw [hnext]

theorem Live.received (hstate : c.state = .read) (hreceived : Received c c')
    {state : ConnState} (hpending : Pending { c' with state := state } 0) :
    Live rest { c' with state := state } := by
  obtain ⟨k, hpending', block, hblock, hunread⟩ := h.input
  unfold Pending at hpending'
  rw [hstate] at hpending'
  obtain ⟨rfl, -⟩ := hpending'
  refine ⟨by rw [hreceived.protocol, hreceived.commands]; exact h.protocol,
    hreceived.fits, fun heof => h.noEof (hreceived.eof heof),
    fun _ => hreceived.noreply.trans (h.noreply (by rw [hstate]; decide)), 0, hpending, block,
    hblock, hreceived.unread.trans hunread⟩

theorem Live.no_line (hstate : c.state = .read) : 10 ∉ c.rbuf := by
  obtain ⟨k, hpending, -⟩ := h.input
  unfold Pending at hpending
  rw [hstate] at hpending
  exact hpending.2

theorem live_write (hstate : c.state = .write) : Live rest { c with state := c.writeAndGo } ∧
      measure { c with state := c.writeAndGo } < measure c := by
  have hnoreply := h.noreply (by rw [hstate]; decide)
  obtain ⟨k, hpending, hbehind⟩ := h.input
  unfold Pending at hpending
  rw [hstate] at hpending
  rcases hpending with ⟨hgo, rfl⟩ | ⟨hgo, hpending⟩
  · rw [hgo]
    exact ⟨h.of_sameInput ⟨rfl, rfl, rfl, rfl, rfl⟩ (fun _ => hnoreply) ⟨0, rfl, hbehind⟩,
      measure_lt_of_rank le_rfl hstate (show _ = ConnState.newCmd from rfl) (by decide)⟩
  · rw [hgo]
    exact ⟨h.of_sameInput ⟨rfl, rfl, rfl, rfl, rfl⟩ (fun _ => hnoreply) ⟨k, hpending, hbehind⟩,
      measure_lt_of_rank le_rfl hstate (show _ = ConnState.swallow from rfl) (by decide)⟩

theorem live_mwrite (hstate : c.state = .mwrite) {ilist : List ItemId}
    {suffixes suffixleft : ℕ} (hc' : c' = { c with
      ilist := ilist
      suffixes := suffixes
      suffixleft := suffixleft
      state := if c.protocol = .binary then c.writeAndGo else .newCmd }) :
    Live rest c' ∧ measure c' < measure c := by
  have hprotocol : c.protocol ≠ .binary := by
    rcases h.protocol with hascii | ⟨hnegotiating, -⟩
    · rw [hascii]
      decide
    · rw [hnegotiating]
      decide
  rw [if_neg hprotocol] at hc'
  subst hc'
  have hbehind := h.behind (.inr (.inl hstate))
  exact ⟨h.of_sameInput ⟨rfl, rfl, rfl, rfl, rfl⟩
      (fun _ => h.noreply (by rw [hstate]; decide)) ⟨0, rfl, hbehind⟩,
    measure_lt_of_rank le_rfl hstate (show _ = ConnState.newCmd from rfl) (by decide)⟩

theorem ReadsOn.live {before after : ℤ} (hreads : ReadsOn before after c c')
    (hbehind : c.Behind before (encodeAll rest)) (hpos : 0 < before)
    (hnoreply : c'.state ≠ .nread → c.noreply = false)
    (hpending : c'.state = c.state → Pending c' after) :
    Live rest c' ∧ c'.commands = c.commands ∧ measure c' < measure c := by
  have hstate : c'.state = c.state ∧ (c'.weight < c.weight ∨ c.rbuf = [] ∧ c.socket = []) :=
    hreads.outcome.resolve_right fun heof => h.noEof heof.2
  obtain ⟨k, hconsumed, -, -⟩ := hreads.consumed
  have hbehind' := hreads.behind hbehind
  have hcommands : c'.commands = c.commands := by rw [hreads.same]
  refine ⟨⟨?_, hconsumed.fits h.fits, fun heof => h.noEof (hconsumed.eof heof), ?_, after,
    hpending hstate.1, hbehind'⟩, hcommands, measure_lt_of_weight (hstate.2.resolve_right ?_)⟩
  · rw [hreads.same]
    exact h.protocol
  · intro hne
    rw [hreads.same]
    exact hnoreply hne
  · -- there is as much input as is to be read
    rintro ⟨hrbuf, hsocket⟩
    obtain ⟨block, hblock, hunread⟩ := hbehind
    have hlength := congrArg List.length hunread
    unfold Conn.unread at hlength
    rw [hrbuf, hsocket] at hlength
    simp only [socketBytes, flatMap_nil, append_nil, length_nil, length_append] at hlength
    omega

theorem live_swallow (hstate : c.state = .swallow) :
    Live rest (stepSwallow c) ∧ (stepSwallow c).commands = c.commands ∧
      measure (stepSwallow c) < measure c := by
  have hnoreply := h.noreply (by rw [hstate]; decide)
  obtain ⟨k, hpending, hbehind⟩ := id h.input
  unfold Pending at hpending
  rw [hstate] at hpending
  obtain ⟨rfl, hlt⟩ := hpending
  have hnonneg : 0 ≤ c.sbytes := by
    obtain ⟨block, hblock, -⟩ := hbehind
    omega
  rcases hnonneg.eq_or_lt with hzero | hpos
  · unfold stepSwallow
    rw [if_pos hzero.symm]
    rw [← hzero] at hbehind
    exact ⟨h.of_sameInput ⟨rfl, rfl, rfl, rfl, rfl⟩ (fun _ => hnoreply) ⟨0, rfl, hbehind⟩, rfl,
      measure_lt_of_rank le_rfl hstate (show _ = ConnState.newCmd from rfl) (by decide)⟩
  · have hreads := stepSwallow_readsOn hpos hlt h.fits
    refine hreads.live h hbehind hpos (fun _ => hnoreply) fun hsame => ?_
    unfold Pending
    rw [hsame, hstate]
    exact ⟨rfl, hreads.nonneg.2.trans_lt hlt⟩

end

theorem Answered.measure_lt (h : Answered c c') (hstate : c.state = .nread) :
    measure c' < measure c := by
  have hweight := h.toSameInput.weight.le
  rcases h.state with hstate' | ⟨hstate', -⟩ | hstate' <;>
    exact measure_lt_of_rank hweight hstate hstate' (by decide)

theorem live_nread (h : Live rest c) (hstate : c.state = .nread) (s : Settings) (env : Env)
    (cache : Cache) :
    Live rest (stepNread s env cache c).2 ∧ (stepNread s env cache c).2.commands = c.commands ∧
      measure (stepNread s env cache c).2 < measure c := by
  obtain ⟨k, hpending, hbehind⟩ := id h.input
  unfold Pending at hpending
  rw [hstate] at hpending
  obtain ⟨rfl, hlt, hprotocol, id, comm, hitem, hcmd⟩ := hpending
  have hnonneg : 0 ≤ c.rlbytes := by
    obtain ⟨block, hblock, -⟩ := hbehind
    omega
  unfold stepNread
  rcases hnonneg.eq_or_lt with hzero | hpos
  · rw [if_pos hzero.symm]
    unfold completeNread
    rw [if_pos hprotocol]
    rw [← hzero] at hbehind
    have hanswered := answered_completeNreadAscii s env cache c hitem hcmd
    exact ⟨h.of_answered hbehind hanswered, hanswered.commands, hanswered.measure_lt hstate⟩
  · rw [if_neg hpos.ne']
    have hreads := nreadMore_readsOn hpos hlt
    refine hreads.live h hbehind hpos (fun hne => ?_) fun hsame => ?_
    · rcases hreads.outcome with ⟨hsame, -⟩ | ⟨-, heof⟩
      · exact absurd (hsame.trans hstate) hne
      · exact absurd heof h.noEof
    · have heq := hreads.same
      unfold Pending
      rw [hsame, hstate]
      refine ⟨rfl, hreads.nonneg.2.trans_lt hlt, ?_, id, comm, ?_, ?_⟩
      · rw [heq]
        exact hprotocol
      · rw [heq]
        exact hitem
      · rw [heq]
        exact hcmd

/-! ## Parsing a command -/

theorem negotiate_eq (h : Live rest c) (hunread : c.unread = encodeAll rest)
    (hwf : ∀ cmd ∈ rest, cmd.WellFormed) : negotiate c = { c with protocol := .ascii } := by
  have hhead : c.rbuf.headD 0 ≠ 0x80 := by
    cases hrbuf : c.rbuf with
    | nil => decide
    | cons b rbuf =>
      unfold Conn.unread at hunread
      rw [hrbuf] at hunread
      cases rest with
      | nil => cases hunread
      | cons cmd rest =>
        have hcmd := hwf cmd mem_cons_self
        have hfirst := congrArg List.head? hunread
        rw [encodeAll_cons, Command.encode, append_assoc, append_assoc,
          head?_append_of_ne_nil _ hcmd.line_ne_nil] at hfirst
        intro hb
        refine hcmd.not_binary (hfirst.symm.trans ?_)
        exact congrArg some hb
  unfold negotiate
  rcases h.protocol with hascii | ⟨hnegotiating, -⟩
  · rw [if_neg (by rw [hascii]; decide)]
    rw [← hascii]
  · rw [if_pos hnegotiating, if_neg hhead]

variable {cmd : Command} {line : Bytes}

/-- A long buffer without a line end is the beginning of a `get`. -/
theorem longGet_of_line (hcmd : cmd.WellFormed) {buf : Bytes}
    (hle : buf.length ≤ (cmd.line ++ [13]).length) (hbuf : buf = (cmd.line ++ [13]).take buf.length)
    (hlong : 1024 < buf.length) : longGet buf = true := by
  rw [length_append] at hle
  cases cmd with
  | storage u =>
    have := Storage.WellFormed.line_le hcmd
    change buf.length ≤ u.line.length + 1 at hle
    omega
  | plain line =>
    change buf.length ≤ line.length + 1 at hle
    have htake : ∀ n ≤ 5, buf.take n = line.take n := by
      intro n hn
      rw [hbuf, take_take, min_eq_left (by omega)]
      change (line ++ [13]).take n = _
      exact take_append_of_le_length (by omega)
    have hget := (Command.PlainLine.short hcmd).resolve_left (by omega)
    have hspace : ∀ b rest, buf = b :: rest → b ≠ 32 := by
      rintro b rest rfl rfl
      rcases hget with hget | hget
      · rw [← htake 4 (by decide)] at hget
        exact absurd (congrArg List.head? hget) (by simp [ascii])
      · rw [← htake 5 le_rfl] at hget
        exact absurd (congrArg List.head? hget) (by simp [ascii])
    have hdrop : buf.dropWhile (· = 32) = buf := by
      cases hcases : buf with
      | nil => rfl
      | cons b rest =>
        exact dropWhile_cons_of_neg (by simpa using hspace b rest hcases)
    unfold longGet
    rw [hdrop]
    simp only [Nat.sub_self, Nat.zero_le, decide_true, Bool.true_and, Bool.or_eq_true,
      decide_eq_true_eq]
    rcases hget with hget | hget
    · exact .inl ((htake 4 (by decide)).trans hget)
    · exact .inr ((htake 5 le_rfl).trans hget)

theorem cString_eq (h : ∀ b ∈ line, b ≠ 10 ∧ b ≠ 0) : cString line = line :=
  takeWhile_eq_self_iff.2 fun b hb => by simpa using (h b hb).2

theorem Command.PlainLine.get_zero_ne (h : Command.PlainLine line) (comm : NreadCmd) :
    (tokenizeCommand line).get 0 ≠ verb comm := by
  intro heq
  refine h.not_storage comm ?_
  rw [← head?_tokenizeCommand]
  unfold Tokens.get at heq
  cases hvalues : (tokenizeCommand line).values with
  | nil =>
    rw [hvalues] at heq
    exact absurd heq.symm (verb_isWord comm).1
  | cons w ws =>
    rw [hvalues] at heq
    exact congrArg some heq

theorem storageCommand_eq_none {command : Bytes} (h : ∀ comm, command ≠ verb comm) :
    storageCommand command = none := by
  unfold storageCommand
  rw [if_neg (show command ≠ ascii "add" from h .add),
    if_neg (show command ≠ ascii "set" from h .set),
    if_neg (show command ≠ ascii "replace" from h .replace),
    if_neg (show command ≠ ascii "prepend" from h .prepend),
    if_neg (show command ≠ ascii "append" from h .append)]

theorem processCommand_plain (h : Command.PlainLine line) (s : Settings) (env : Env) (cache : Cache)
    (hnoreply : c.noreply = false) :
    ((Command.plain line).isQuit = false → Answered { c with commands := c.commands ++ [line] }
        (processCommand s env line cache c).2) ∧
    ((Command.plain line).isQuit = true → (processCommand s env line cache c).2 =
      { c with commands := c.commands ++ [line], state := .closing }) := by
  have hstorage := storageCommand_eq_none h.get_zero_ne
  have hquit : (Command.plain line).isQuit = true ↔
      (tokenizeCommand line).values = [ascii "quit"] := by
    unfold Command.isQuit
    rw [decide_eq_true_iff]
    constructor
    · intro hwords
      rw [tokenizeCommand_of_words (by rw [hwords]; decide), hwords]
    · intro hvalues
      rw [words_eq_tokenizeCommand]
      cases hrest : (tokenizeCommand line).rest with
      | none => rw [hvalues, Option.elim_none, append_nil]
      | some rest =>
        have := @length_tokenizeCommand_of_rest line (by rw [hrest]; simp)
        rw [hvalues] at this
        cases this
  unfold processCommand
  rw [cString_eq h.text]
  set c' : Conn := { c with commands := c.commands ++ [line] } with hc'
  by_cases hget : 3 ≤ (tokenizeCommand line).ntokens ∧
      ((tokenizeCommand line).get 0 = ascii "get" ∨ (tokenizeCommand line).get 0 = ascii "bget")
  · refine ⟨fun _ => ?_, fun hisQuit => ?_⟩
    · unfold dispatchCommand
      rw [if_pos hget]
      exact answered_processGetCommand s env _ cache c' false hnoreply
    · have hn := hget.1
      unfold Tokens.ntokens at hn
      rw [hquit.1 hisQuit] at hn
      exact absurd hn (by decide)
  · have hother : dispatchCommand s env (tokenizeCommand line) cache c' =
        processOther s env (tokenizeCommand line) cache c' := by
      unfold dispatchCommand
      rw [if_neg hget, hstorage, ite_self]
      exact if_neg fun hcas => h.get_zero_ne .cas hcas.2
    rw [hother]
    have hspec := processOther_spec s env (tokenizeCommand line) cache c' hnoreply
    refine ⟨fun hisQuit => hspec.1 fun hvalues => ?_, fun hisQuit => hspec.2 (hquit.1 hisQuit)⟩
    rw [hquit.2 hvalues] at hisQuit
    cases hisQuit

theorem processCommand_storage {u : Storage} (h : u.WellFormed)
    (hlength : u.data.length + 2 < 2 ^ 31) (s : Settings) (env : Env) (cache : Cache)
    (hnoreply : c.noreply = false) (halloc : u.noreply = true → u.Allocates s env cache)
    (hc' : c' = (processCommand s env u.line cache c).2) :
    SameInput { c with commands := c.commands ++ [u.line] } c' ∧
      (c'.state = .nread ∧ c'.rlbytes = u.data.length + 2 ∧
          (∃ id comm, c'.item = some id ∧ c'.cmd = .nread comm) ∨
        c'.state = .write ∧ c'.writeAndGo = .swallow ∧ c'.sbytes = u.data.length + 2 ∧
          c'.noreply = false) := by
  have hkey : (tokenizeCommand u.line).get 1 = u.key := by
    unfold Tokens.get
    rw [h.tokens]
    rfl
  unfold processCommand at hc'
  rw [cString_eq h.text, h.dispatchCommand, h.processUpdateCommand s env cache hlength
    (by exact hnoreply)] at hc'
  rcases updateAlloc_spec s env cache (tokenizeCommand u.line) u.comm (value 0 u.flags) u.exptimeArg
    (u.data.length + 2) u.casArg
    { c with commands := c.commands ++ [u.line], noreply := u.noreply } with
    ⟨id, -, hresult⟩ | ⟨hnone, hresult⟩
  · rw [hresult] at hc'
    subst hc'
    exact ⟨⟨rfl, rfl, rfl, rfl, rfl⟩, .inl ⟨rfl, rfl, id, u.comm, rfl, rfl⟩⟩
  · rw [hkey] at hnone
    cases hflag : u.noreply with
    | true => exact absurd hnone (halloc hflag)
    | false =>
      rw [hresult, hflag] at hc'
      subst hc'
      exact ⟨⟨rfl, rfl, rfl, rfl, rfl⟩, .inr ⟨rfl, rfl, rfl, rfl⟩⟩

theorem rbuf_append (hunread : c.unread = encodeAll (cmd :: rest)) : c.rbuf ++ socketBytes c.socket =
    (cmd.line ++ [13]) ++ 10 :: (cmd.block ++ encodeAll rest) := by
  unfold Conn.unread at hunread
  rw [hunread, encodeAll_cons, Command.encode, crlf]
  simp only [append_assoc, cons_append, nil_append]

theorem parse_line (hcmd : cmd.WellFormed) (hunread : c.unread = encodeAll (cmd :: rest))
    (hmem : 10 ∈ c.rbuf) :
    c.rbuf.takeWhile (· ≠ 10) = cmd.line ++ [13] ∧ cmd.line.length + 2 ≤ c.rbuf.length ∧
      c.rbuf.drop (cmd.line.length + 2) ++ socketBytes c.socket = cmd.block ++ encodeAll rest := by
  have hline : 10 ∉ cmd.line ++ [13] := by
    rw [mem_append, not_or]
    exact ⟨fun h => (hcmd.text 10 h).1 rfl, by decide⟩
  have := takeWhile_line (rbuf_append hunread) hline hmem
  rwa [length_append] at this

variable {s : Settings} {env : Env} {cache : Cache}

theorem stepParse_of_line {cmd : Command} (h : Live (cmd :: rest) c) (hstate : c.state = .parseCmd)
    (hwf : ∀ cmd' ∈ cmd :: rest, cmd'.WellFormed) (hmem : 10 ∈ c.rbuf) :
    (stepParse s env cache c).2 =
      { (processCommand s env cmd.line cache { c with protocol := .ascii }).2 with
        rbuf := c.rbuf.drop (cmd.line.length + 2) } := by
  have hcmd := hwf cmd mem_cons_self
  have hunread := h.unread_eq hstate
  have hnegotiate := negotiate_eq h hunread hwf
  obtain ⟨htake, -, -⟩ := parse_line hcmd hunread hmem
  unfold stepParse tryReadCommand
  rw [hnegotiate]
  unfold tryReadAscii
  simp only [reduceCtorEq, if_false, if_pos hmem, htake, hcmd.commandOf, length_append,
    length_singleton]

theorem live_after_line (h : Live (cmd :: rest) c) (hcmd : cmd.WellFormed)
    (hunread : c.unread = encodeAll (cmd :: rest)) (hmem : 10 ∈ c.rbuf) {r : Conn}
    (hsame : SameInput { c with protocol := .ascii, commands := c.commands ++ [cmd.line] } r)
    (hc' : c' = { r with rbuf := c.rbuf.drop (cmd.line.length + 2) })
    (hnoreply : c'.state ≠ .nread → c'.noreply = false) (hpending : Pending c' cmd.block.length) :
    Live rest c' ∧ c'.commands = c.commands ++ [cmd.line] ∧ measure c' < measure c := by
  obtain ⟨-, hlength, hdrop⟩ := parse_line hcmd hunread hmem
  have hsocket : c'.socket = c.socket := by rw [hc']; exact hsame.socket
  have hrbuf : c'.rbuf = c.rbuf.drop (cmd.line.length + 2) := by rw [hc']
  have hcommands : c'.commands = c.commands ++ [cmd.line] := by rw [hc']; exact hsame.commands
  have hprotocol : c'.protocol = .ascii := by rw [hc']; exact hsame.protocol
  have hrsize : c'.rsize = c.rsize := by rw [hc']; exact hsame.rsize
  have hconsumed := consumed_drop hlength hrbuf hsocket hrsize
  have hweight := hconsumed.weight
  refine ⟨⟨.inl hprotocol, hconsumed.fits h.fits, ?_, hnoreply, _, hpending, cmd.block, rfl, ?_⟩,
    hcommands, measure_lt_of_weight (by omega)⟩
  · rw [hsocket]
    exact h.noEof
  · unfold Conn.unread
    rw [hrbuf, hsocket, hdrop]

theorem framed_line {cmds done : List Command} (hcmds : cmds = done ++ cmd :: rest)
    (hquit : ∀ cmd ∈ done, cmd.isQuit = false) (hcommands : c.commands = done.map Command.line)
    (h : Live (cmd :: rest) c) (hstate : c.state = .parseCmd)
    (hwf : ∀ cmd' ∈ cmd :: rest, cmd'.WellFormed) (hmem : 10 ∈ c.rbuf)
    (hdata : ∀ u, cmd = .storage u → u.data.length + 2 < 2 ^ 31 ∧
      (u.noreply = true → u.Allocates s env cache)) :
    Framed cmds (stepParse s env cache c).2 ∧ measure (stepParse s env cache c).2 < measure c := by
  have hcmd := hwf cmd mem_cons_self
  have hnoreply := h.noreply (by rw [hstate]; decide)
  have hunread := h.unread_eq hstate
  have hlive : ∀ c', cmd.isQuit = false → Live rest c' ∧ c'.commands = c.commands ++ [cmd.line] ∧
      measure c' < measure c → Framed cmds c' ∧ measure c' < measure c := by
    rintro c' hcmd' ⟨hlive, hcommands', hlt⟩
    refine ⟨.live (done ++ [cmd]) rest (by rw [hcmds]; simp) ?_ ?_ hlive, hlt⟩
    · intro cmd' hmem'
      rcases mem_append.1 hmem' with hmem' | hmem'
      · exact hquit cmd' hmem'
      · rwa [mem_singleton.1 hmem']
    · rw [hcommands', hcommands, map_append, map_singleton]
  have hstep := @stepParse_of_line rest c s env cache cmd h hstate hwf hmem
  cases cmd with
  | storage u =>
    obtain ⟨hlength, halloc⟩ := hdata u rfl
    obtain ⟨hsame, hcases⟩ := processCommand_storage (c := { c with protocol := .ascii }) hcmd hlength
      s env cache hnoreply halloc rfl
    have hprotocol := hsame.protocol
    refine hlive _ rfl (live_after_line h hcmd hunread hmem hsame hstep ?_ ?_)
    · rw [hstep]
      intro hne
      rcases hcases with ⟨hnread, -⟩ | ⟨-, -, -, hfalse⟩
      · exact absurd hnread hne
      · exact hfalse
    · have hblock : ((Command.storage u).block.length : ℤ) = u.data.length + 2 := by
        simp [Command.block, crlf]
      rw [hblock, hstep]
      rcases hcases with ⟨hnread, hrl, hitem⟩ | ⟨hwrite, hgo, hsbytes, -⟩
      · apply (pending_nread (by exact hnread)).2
        exact ⟨hrl.symm, hrl.trans_lt (by omega), hprotocol, hitem⟩
      · apply (pending_write (by exact hwrite)).2
        exact .inr ⟨hgo, hsbytes.symm, hsbytes.trans_lt (by omega)⟩
  | plain line =>
    obtain ⟨hanswered, hclosing⟩ := processCommand_plain (c := { c with protocol := .ascii }) hcmd s
      env cache hnoreply
    cases hisQuit : (Command.plain line).isQuit with
    | false =>
      have hanswered := hanswered hisQuit
      refine hlive _ hisQuit (live_after_line h hcmd hunread hmem hanswered.toSameInput hstep ?_ ?_)
      · rw [hstep]
        exact fun _ => hanswered.noreply
      · rw [hstep]
        exact pending_answered hanswered.state
    | true =>
      have hresult : (processCommand s env (Command.plain line).line cache
          { c with protocol := .ascii }).2 = _ := hclosing hisQuit
      obtain ⟨-, hlength, -⟩ := parse_line hcmd hunread hmem
      have hstep' : (stepParse s env cache c).2 = { c with
          protocol := .ascii
          commands := c.commands ++ [line]
          state := .closing
          rbuf := c.rbuf.drop ((Command.plain line).line.length + 2) } := by
        rw [hstep, hresult]
      refine ⟨.quit done rest (.plain line) hcmds hquit hisQuit ?_ ?_, ?_⟩
      · rw [hstep', ← hcommands]
        rfl
      · rw [hstep']
        exact .inl rfl
      · have hconsumed : Consumed ((Command.plain line).line.length + 2) c
            (stepParse s env cache c).2 := by
          rw [hstep']
          exact consumed_drop hlength rfl rfl rfl
        have hweight := hconsumed.weight
        exact measure_lt_of_weight (by omega)

theorem live_no_line (h : Live rest c) (hstate : c.state = .parseCmd)
    (hwf : ∀ cmd ∈ rest, cmd.WellFormed) (hmem : 10 ∉ c.rbuf) :
    Live rest (stepParse s env cache c).2 ∧ (stepParse s env cache c).2.commands = c.commands ∧
      measure (stepParse s env cache c).2 < measure c := by
  have hunread := h.unread_eq hstate
  have hnegotiate := negotiate_eq h hunread hwf
  have hshort : ¬ (1024 < c.rbuf.length ∧ longGet c.rbuf = false) := by
    rintro ⟨hlong, hget⟩
    cases rest with
    | nil =>
      have hlength := congrArg List.length hunread
      unfold Conn.unread at hlength
      rw [length_append] at hlength
      change c.rbuf.length + _ = 0 at hlength
      omega
    | cons cmd rest =>
      have hcmd := hwf cmd mem_cons_self
      obtain ⟨hle, hbuf⟩ := isPrefix_line (rbuf_append hunread) hmem
      rw [longGet_of_line hcmd hle hbuf hlong] at hget
      cases hget
  have hstep : (stepParse s env cache c).2 = { c with protocol := .ascii, state := .waiting } := by
    unfold stepParse tryReadCommand
    rw [hnegotiate]
    unfold tryReadAscii
    simp only [reduceCtorEq, if_false, if_neg hmem, if_neg hshort]
  rw [hstep]
  refine ⟨⟨.inl rfl, h.fits, h.noEof, fun _ => h.noreply (by rw [hstate]; decide), 0,
    ⟨rfl, hmem⟩, h.behind (.inr (.inr hstate))⟩, rfl, ?_⟩
  exact measure_lt_of_rank le_rfl hstate (show _ = ConnState.waiting from rfl) (by decide)

end

/-! ## Runs -/

/-- The item of a storage command that wants no reply can be allocated. -/
def Command.Allocates (s : Settings) (env : Env) (cache : Cache) : Command → Prop
  | .storage u => u.noreply = true → u.Allocates s env cache
  | .plain _ => True

instance (s : Settings) (env : Env) (cache : Cache) :
    ∀ cmd : Command, Decidable (cmd.Allocates s env cache)
  | .storage u => inferInstanceAs (Decidable (u.noreply = true → u.Allocates s env cache))
  | .plain _ => .isTrue trivial

/-- Replies can be sent, the read buffer can be made larger, and the item of a storage command that
wants no reply can be allocated. -/
def AsciiCond (s : Settings) (cmds : List Command) (c : Conn) (o : Env × Cache) : Prop :=
  o.1.transmit ≠ .hardError ∧ (c.state = .read → o.1.realloc = true ∧ c.rsize ≤ 2 ^ 26) ∧
    (c.state = .parseCmd → 10 ∈ c.rbuf → ∀ cmd ∈ cmds[c.commands.length]?, cmd.Allocates s o.1 o.2)

instance (s : Settings) (cmds : List Command) (c : Conn) (o : Env × Cache) :
    Decidable (AsciiCond s cmds c o) := by
  unfold AsciiCond
  infer_instance

section

variable {cmds rest done : List Command} {c : Conn} {s : Settings} {o : Env × Cache}

structure GoesOn (rest : List Command) (o : Env × Cache) (c c' : Conn) : Prop
    extends Progress o c c' where
  live : Live rest c'
  commands : c'.commands = c.commands

theorem GoesOn.of_lt {c' : Conn} (hbusy : ¬ AtRest c)
    (h : Live rest c' ∧ c'.commands = c.commands ∧ measure c' < measure c) :
    GoesOn rest o c c' where
  toProgress := .of_lt hbusy h.2.2
  live := h.1
  commands := h.2.1

theorem GoesOn.refl (h : Live rest c) (hcounts : counts o = false) : GoesOn rest o c c where
  toProgress := .refl hcounts
  live := h
  commands := rfl

theorem goesOn_write (h : Live rest c) (hstate : c.state = .write ∨ c.state = .mwrite)
    (htransmit : o.1.transmit ≠ .hardError) : GoesOn rest o c (stepWrite o.1 o.2 c).2 := by
  have hbusy : ¬ AtRest c := by
    rcases hstate with hstate | hstate <;>
      exact not_atRest hstate (by decide)
  unfold stepWrite
  cases hsent : o.1.transmit with
  | complete =>
    rcases hstate with hstate | hstate
    · obtain ⟨hlive, hlt⟩ := live_write h hstate
      rw [hstate]
      exact GoesOn.of_lt hbusy ⟨hlive, rfl, hlt⟩
    · obtain ⟨hlive, hlt⟩ := live_mwrite h hstate rfl
      rw [hstate]
      exact GoesOn.of_lt hbusy ⟨hlive, rfl, hlt⟩
  | incomplete | softError => exact GoesOn.refl h (counts_of_transmit (by rw [hsent]; decide))
  | hardError => exact absurd hsent htransmit

theorem goesOn_connStep (h : Live rest c) (hcond : AsciiCond s cmds c o)
    (hparse : c.state ≠ .parseCmd) : GoesOn rest o c (connStep s c o) := by
  obtain ⟨htransmit, hread, -⟩ := hcond
  unfold connStep step
  cases hstate : c.state with
  | waiting => exact ⟨progress_waiting hstate, live_waiting h hstate, rfl⟩
  | read =>
    obtain ⟨hrealloc, hcap⟩ := hread hstate
    obtain ⟨c', state, hstep, hreceived, hprogress, hcases⟩ :=
      stepRead_spec o hstate hrealloc h.fits hcap
    simp only [hstep]
    refine ⟨hprogress, h.received hstate hreceived ?_, hreceived.commands⟩
    rcases hcases with ⟨rfl, hrbuf⟩ | ⟨rfl, -⟩ | ⟨-, heof⟩
    · exact ⟨rfl, hrbuf.symm ▸ h.no_line hstate⟩
    · exact rfl
    · exact absurd heof h.noEof
  | parseCmd => exact absurd hstate hparse
  | newCmd =>
    have hbusy := not_atRest hstate (by decide)
    cases hyield : o.1.yield with
    | true => exact GoesOn.refl h (counts_of_yield hyield)
    | false =>
      obtain ⟨hlive, hlt⟩ := live_newCmd h hstate o.2
      exact GoesOn.of_lt hbusy ⟨hlive, rfl, hlt⟩
  | nread =>
    exact GoesOn.of_lt (not_atRest hstate (by decide)) (live_nread h hstate s o.1 o.2)
  | swallow =>
    exact GoesOn.of_lt (not_atRest hstate (by decide)) (live_swallow h hstate)
  | write => exact goesOn_write h (.inl hstate) htransmit
  | mwrite => exact goesOn_write h (.inr hstate) htransmit
  | closing => exact absurd hstate h.state_ne.1
  | closed => exact absurd hstate h.state_ne.2

theorem framed_parse (hwf : ∀ cmd ∈ cmds, cmd.WellFormed)
    (hdata : ∀ u, .storage u ∈ cmds → u.data.length + 2 < 2 ^ 31) (hcmds : cmds = done ++ rest)
    (hquit : ∀ cmd ∈ done, cmd.isQuit = false) (hcommands : c.commands = done.map Command.line)
    (h : Live rest c) (hcond : AsciiCond s cmds c o) (hstate : c.state = .parseCmd) :
    Framed cmds (connStep s c o) ∧ measure (connStep s c o) < measure c := by
  have hstep : connStep s c o = (stepParse s o.1 o.2 c).2 := by
    unfold connStep step
    rw [hstate]
  have hwf' : ∀ cmd ∈ rest, cmd.WellFormed := fun cmd hcmd =>
    hwf cmd (hcmds ▸ mem_append_right _ hcmd)
  rw [hstep]
  by_cases hmem : 10 ∈ c.rbuf
  · cases rest with
    | nil =>
      have hnil : c.rbuf = [] := (append_eq_nil_iff.1 (h.unread_eq hstate)).1
      rw [hnil] at hmem
      cases hmem
    | cons cmd rest =>
      refine framed_line hcmds hquit hcommands h hstate hwf' hmem fun u hu => ?_
      subst hu
      refine ⟨hdata u (by rw [hcmds]; simp), ?_⟩
      have hnext : cmds[c.commands.length]? = some (.storage u) := by
        rw [hcommands, length_map, hcmds, getElem?_append_right le_rfl, Nat.sub_self]
        rfl
      exact hcond.2.2 hstate hmem _ hnext
  · obtain ⟨hlive, hcommands', hlt⟩ := live_no_line h hstate hwf' hmem
    exact ⟨.live done rest hcmds hquit (hcommands'.trans hcommands) hlive, hlt⟩

/-- What a step of the connection does, by what is left of the stream. -/
theorem framed_connStep (hwf : ∀ cmd ∈ cmds, cmd.WellFormed)
    (hdata : ∀ u, .storage u ∈ cmds → u.data.length + 2 < 2 ^ 31) (h : Framed cmds c)
    (hcond : AsciiCond s cmds c o) :
    Framed cmds (connStep s c o) ∧ Progress o c (connStep s c o) := by
  cases h with
  | live done rest hcmds hquit hcommands hlive =>
    by_cases hstate : c.state = .parseCmd
    · obtain ⟨hframed, hlt⟩ := framed_parse hwf hdata hcmds hquit hcommands hlive hcond hstate
      have hbusy := not_atRest hstate (by decide)
      exact ⟨hframed, .of_lt hbusy hlt⟩
    · have hgoes := goesOn_connStep hlive hcond hstate
      exact ⟨.live done rest hcmds hquit (hgoes.commands.trans hcommands) hgoes.live,
        hgoes.toProgress⟩
  | quit done rest cmd hcmds hquit hcmd hcommands hstate =>
    obtain ⟨item, ilist, suffixes, suffixleft, hclosed⟩ := @connStep_closing s c o hstate
    rw [hclosed]
    exact ⟨.quit done rest cmd hcmds hquit hcmd hcommands (.inr rfl), progress_closing hstate rfl⟩

theorem framed_connNew (hrsize : 0 < c.rsize) {protocol : Protocol}
    (hprotocol : protocol = .ascii ∨ protocol = .negotiating) {socket : List Arrival}
    (hsocket : Arrival.eof ∉ socket) (hbytes : socketBytes socket = encodeAll cmds) :
    Framed cmds (connNew c protocol socket) := by
  refine .live [] cmds rfl (fun _ hcmd => by cases hcmd) rfl ⟨hprotocol.imp_right fun h => ⟨h, rfl⟩,
    ?_, hsocket, fun _ => rfl, 0, rfl, [], rfl, hbytes⟩
  exact ⟨hrsize, Nat.zero_le _⟩

/-- In every run the commands that are processed are the first lines of the stream, whatever the
cuts of the stream are, and when the connection has been served long enough they are all its
lines.  The structure of the connection may have served others before. -/
theorem ascii_commands_eq (s : Settings) (cmds : List Command) (hwf : ∀ cmd ∈ cmds, cmd.WellFormed)
    (hdata : ∀ u, .storage u ∈ cmds → u.data.length + 2 < 2 ^ 31) (old : Conn)
    (hrsize : 0 < old.rsize) (protocol : Protocol)
    (hprotocol : protocol = .ascii ∨ protocol = .negotiating) (socket : List Arrival)
    (hsocket : Arrival.eof ∉ socket) (hbytes : socketBytes socket = encodeAll cmds)
    (os : List (Env × Cache))
    (hrun : Run.Along (connStep s) (AsciiCond s cmds) (connNew old protocol socket) os) :
    (os.foldl (connStep s) (connNew old protocol socket)).commands <+: commandLines cmds ∧
      (measure (connNew old protocol socket) < os.countP counts →
        (os.foldl (connStep s) (connNew old protocol socket)).commands = commandLines cmds) := by
  have hinit := framed_connNew hrsize hprotocol hsocket hbytes
  have hstep : ∀ c o, Framed cmds c → AsciiCond s cmds c o → Framed cmds (connStep s c o) :=
    fun c o h hcond => (framed_connStep hwf hdata h hcond).1
  have hinv := hrun.foldl hstep hinit
  refine ⟨hinv.commands_isPrefix, fun hcount => hinv.commands_eq ?_⟩
  exact hrun.foldl_done measure counts hstep
    (fun c o h hcond => (framed_connStep hwf hdata h hcond).2.atRest)
    (fun c o h hcond hbusy => ⟨(framed_connStep hwf hdata h hcond).2.le hbusy,
      (framed_connStep hwf hdata h hcond).2.lt hbusy⟩) hinit hcount

end

def setNoreply : Storage where
  comm := .set
  key := ascii "a"
  flags := ascii "0"
  exptime := ascii "0"
  bytes := ascii "9"
  casUnique := []
  noreply := true
  data := ascii "flush_all"

theorem setNoreply_wellFormed : setNoreply.WellFormed where
  key := ⟨⟨by decide +kernel, by decide +kernel⟩, by decide +kernel, by decide +kernel⟩
  flags := ⟨⟨by decide +kernel, by decide +kernel⟩, by decide +kernel⟩
  exptime := ⟨ascii "0", ⟨by decide +kernel, by decide +kernel⟩, by decide +kernel, .inl rfl⟩
  bytes := ⟨⟨by decide +kernel, by decide +kernel⟩, by decide +kernel⟩
  casUnique h := by cases h
  line_le := by decide +kernel

/-- A stream that is cut inside the data block. -/
theorem ascii_commands_eq_setNoreply :
    ((List.replicate 700 (goodEnv true, Cache.init 2)).foldl (connStep smallSettings)
      (connNew connAlloc .negotiating
        [.data (ascii "set a 0 0 9 noreply\r\nflush"), .data (ascii "_all\r\n")])).commands =
      [ascii "set a 0 0 9 noreply"] := by
  refine (ascii_commands_eq smallSettings [.storage setNoreply] ?_ ?_ connAlloc (by decide) _
    (.inr rfl) _ (by decide +kernel) (by decide +kernel) _ (by decide +kernel)).2 (by decide +kernel)
  · rintro cmd hcmd
    rw [mem_singleton.1 hcmd]
    exact setNoreply_wellFormed
  · rintro u hu
    cases mem_singleton.1 hu
    decide +kernel

/-- If the item cannot be allocated and no reply is wanted, the data block is not skipped: its bytes
are processed as a command. -/
theorem ascii_data_processed :
    ((List.replicate 20 (goodEnv false, Cache.init 2)).foldl (connStep smallSettings)
      (connNew connAlloc .negotiating [.data (encodeAll [.storage setNoreply])])).commands =
      [ascii "set a 0 0 9 noreply", ascii "flush_all"] := by
  decide +kernel

end ServerStack.Memcached
