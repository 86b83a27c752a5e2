import ServerStack.Memcached.Ascii

/-!
# Where the text commands leave a connection

A command without data is answered, whatever the cache holds: the connection has a reply to write, or
is ready for the next command if the reply is not wanted.  A storage command whose line is well formed
goes on to read its data, or to swallow it.
-/

namespace ServerStack.Memcached

open Decimal

structure SameInput (c c' : Conn) : Prop where
  protocol : c'.protocol = c.protocol
  rbuf : c'.rbuf = c.rbuf
  rsize : c'.rsize = c.rsize
  socket : c'.socket = c.socket
  commands : c'.commands = c.commands

structure Answered (c c' : Conn) : Prop extends SameInput c c' where
  noreply : c'.noreply = false
  state : c'.state = .newCmd ∨ c'.state = .write ∧ c'.writeAndGo = .newCmd ∨ c'.state = .mwrite

variable {c : Conn}

theorem Answered.of_sameInput {b c' : Conn} (h : Answered b c') (hsame : SameInput c b) :
    Answered c c' where
  protocol := h.protocol.trans hsame.protocol
  rbuf := h.rbuf.trans hsame.rbuf
  rsize := h.rsize.trans hsame.rsize
  socket := h.socket.trans hsame.socket
  commands := h.commands.trans hsame.commands
  noreply := h.noreply
  state := h.state

theorem answered_ite {p : Prop} [Decidable p] {t e : Cache × Conn} (ht : p → Answered c t.2)
    (he : ¬ p → Answered c e.2) : Answered c (if p then t else e).2 := by
  split_ifs with h
  · exact ht h
  · exact he h

theorem answered_outString (c : Conn) (str : Bytes) : Answered c (c.outString str) := by
  unfold Conn.outString
  by_cases hnoreply : c.noreply = true
  · rw [if_pos hnoreply]
    exact ⟨⟨rfl, rfl, rfl, rfl, rfl⟩, rfl, .inl rfl⟩
  · rw [if_neg hnoreply]
    exact ⟨⟨rfl, rfl, rfl, rfl, rfl⟩, by simpa using hnoreply, .inr (.inl ⟨rfl, rfl⟩)⟩

theorem sameInput_setNoreplyMaybe (c : Conn) (tokens : Tokens) :
    SameInput c (setNoreplyMaybe c tokens) := by
  unfold setNoreplyMaybe
  split_ifs <;> exact ⟨rfl, rfl, rfl, rfl, rfl⟩

theorem answered_noreply (c : Conn) (tokens : Tokens) (str : Bytes) :
    Answered c ((setNoreplyMaybe c tokens).outString str) :=
  (answered_outString _ str).of_sameInput (sameInput_setNoreplyMaybe c tokens)

section

variable (s : Settings) (env : Env) (tokens : Tokens) (cache : Cache) (c : Conn)

theorem answered_processGetCommand (returnCas : Bool) (hnoreply : c.noreply = false) :
    Answered c (processGetCommand s returnCas env tokens cache c).2 := by
  unfold processGetCommand
  split
  · exact (answered_outString _ _).of_sameInput ⟨rfl, rfl, rfl, rfl, rfl⟩
  · exact (answered_outString _ _).of_sameInput ⟨rfl, rfl, rfl, rfl, rfl⟩
  next g _ _ _ _ =>
    by_cases hmemory : g.memory.headD .ok = .noIov
    · rw [if_pos hmemory]
      exact (answered_outString _ _).of_sameInput ⟨rfl, rfl, rfl, rfl, rfl⟩
    · rw [if_neg hmemory]
      exact ⟨⟨rfl, rfl, rfl, rfl, rfl⟩, hnoreply, .inr (.inr rfl)⟩

theorem answered_processTouchCommand : Answered c (processTouchCommand s tokens cache c).2 := by
  unfold processTouchCommand
  split_ifs
  · exact answered_noreply c tokens _
  · split
    · exact answered_noreply c tokens _
    · split <;> exact answered_noreply c tokens _

theorem doAddDelta_ne_casMismatch (m : Memory) (key : Bytes) (incr : Bool) (delta : ℕ) :
    (cache.doAddDelta s m key incr delta 0).2 ≠ .casMismatch := by
  unfold Cache.doAddDelta
  intro h
  split at h
  · cases h
  · split at h
    · cases h
    · rw [if_neg (by simp)] at h
      split at h
      · cases h
      · dsimp only at h
        split_ifs at h
        unfold Cache.deltaReplace at h
        split at h <;> cases h

theorem answered_processArithmeticCommand (incr : Bool) :
    Answered c (processArithmeticCommand s env tokens incr cache c).2 := by
  unfold processArithmeticCommand
  split_ifs
  · exact answered_noreply c tokens _
  · split
    · exact answered_noreply c tokens _
    · split
      · exact answered_noreply c tokens _
      · exact answered_noreply c tokens _
      · exact answered_noreply c tokens _
      · exact answered_noreply c tokens _
      next hdelta =>
        exact absurd (congrArg Prod.snd hdelta) (doAddDelta_ne_casMismatch s cache _ _ _ _)

theorem answered_processDeleteCommand : Answered c (processDeleteCommand s tokens cache c).2 := by
  have hsame : SameInput c (if 3 < tokens.ntokens then setNoreplyMaybe c tokens else c) := by
    split_ifs
    · exact sameInput_setNoreplyMaybe c tokens
    · exact ⟨rfl, rfl, rfl, rfl, rfl⟩
  unfold processDeleteCommand
  generalize (if 3 < tokens.ntokens then setNoreplyMaybe c tokens else c) = b at hsame ⊢
  dsimp only
  split
  · exact (answered_outString b _).of_sameInput hsame
  · split
    · exact (answered_outString b _).of_sameInput hsame
    · split <;> exact (answered_outString b _).of_sameInput hsame

theorem answered_processFlushAll : Answered c (processFlushAll s tokens cache c).2 := by
  refine answered_ite (fun _ => answered_noreply c tokens _) fun _ => ?_
  split
  · exact answered_noreply c tokens _
  · split_ifs <;> exact answered_noreply c tokens _

theorem answered_processSlabs : Answered c (processSlabs tokens c) := by
  unfold processSlabs processSlabsAutomoveCommand
  split
  · exact answered_outString c _
  · split
    · exact answered_noreply c tokens _
    · exact answered_outString c _

theorem answered_processStat (hnoreply : c.noreply = false) : Answered c (processStat env c) := by
  unfold processStat
  split
  · exact ⟨⟨rfl, rfl, rfl, rfl, rfl⟩, hnoreply, .inr (.inl ⟨rfl, rfl⟩)⟩
  · exact answered_outString c _

theorem answered_completeNreadAscii {id : ItemId} {comm : NreadCmd} (hitem : c.item = some id)
    (hcmd : c.cmd = .nread comm) : Answered c (completeNreadAscii s env cache c).2 := by
  unfold completeNreadAscii
  rw [hitem, hcmd]
  split_ifs
  · have hanswered := answered_outString c (ascii "CLIENT_ERROR bad data chunk")
    exact ⟨⟨hanswered.protocol, hanswered.rbuf, hanswered.rsize, hanswered.socket,
      hanswered.commands⟩, hanswered.noreply, hanswered.state⟩
  · have hanswered := answered_outString c (storeReply
      ((cache.modify id fun it => { it with data := c.ritem }).doStoreItem s env.memory comm id).2)
    exact ⟨⟨hanswered.protocol, hanswered.rbuf, hanswered.rsize, hanswered.socket,
      hanswered.commands⟩, hanswered.noreply, hanswered.state⟩

theorem processOther_spec (hnoreply : c.noreply = false) :
    (tokens.values ≠ [ascii "quit"] → Answered c (processOther s env tokens cache c).2) ∧
      (tokens.values = [ascii "quit"] →
        (processOther s env tokens cache c).2 = { c with state := .closing }) := by
  constructor
  · intro hquit
    refine answered_ite (fun _ => answered_processArithmeticCommand s env tokens cache c true)
      fun _ => ?_
    refine answered_ite (fun _ => answered_processGetCommand s env tokens cache c true hnoreply)
      fun _ => ?_
    refine answered_ite (fun _ => answered_processArithmeticCommand s env tokens cache c false)
      fun _ => ?_
    refine answered_ite (fun _ => answered_processDeleteCommand s tokens cache c) fun _ => ?_
    refine answered_ite (fun _ => answered_processTouchCommand s tokens cache c) fun _ => ?_
    refine answered_ite (fun _ => answered_processStat env c hnoreply) fun _ => ?_
    refine answered_ite (fun _ => answered_processFlushAll s tokens cache c) fun _ => ?_
    refine answered_ite (fun _ => answered_outString c _) fun _ => ?_
    refine answered_ite (fun h => ?_) fun _ => ?_
    · -- two tokens, the second one the terminal token
      exfalso
      obtain ⟨hn, hcommand⟩ := h
      obtain ⟨command, hvalues⟩ := List.length_eq_one_iff.1 (Nat.succ_injective hn)
      unfold Tokens.get at hcommand
      rw [hvalues] at hcommand hquit
      exact hquit (congrArg (fun w => [w]) hcommand)
    refine answered_ite (fun _ => answered_processSlabs tokens c) fun _ => ?_
    exact answered_ite (fun _ => answered_noreply c tokens _) fun _ => answered_outString c _
  · intro hquit
    have hn : tokens.ntokens = 2 := by
      unfold Tokens.ntokens
      rw [hquit]
      rfl
    have hcommand : tokens.get 0 = ascii "quit" := by
      unfold Tokens.get
      rw [hquit]
      rfl
    unfold processOther
    rw [hn, hcommand]
    rw [if_neg (by decide), if_neg (by decide), if_neg (by decide), if_neg (by decide),
      if_neg (by decide), if_neg (by decide), if_neg (by decide), if_neg (by decide),
      if_pos (by decide)]

end

/-! ## Storage commands -/

def IsNumber (digits : Bytes) : Prop := digits ≠ [] ∧ ∀ b ∈ digits, IsDigit b

structure Storage where
  comm : NreadCmd
  key : Bytes
  flags : Bytes
  exptime : Bytes
  bytes : Bytes
  casUnique : Bytes
  noreply : Bool
  data : Bytes

def verb : NreadCmd → Bytes
  | .add => ascii "add"
  | .set => ascii "set"
  | .replace => ascii "replace"
  | .append => ascii "append"
  | .prepend => ascii "prepend"
  | .cas => ascii "cas"

namespace Storage

variable (u : Storage)

def fields : List Bytes :=
  [verb u.comm, u.key, u.flags, u.exptime, u.bytes] ++
    ((if u.comm = .cas then [u.casUnique] else []) ++
      if u.noreply then [ascii "noreply"] else [])

def line : Bytes := Memcached.line u.fields

structure WellFormed : Prop where
  key : IsWord u.key ∧ u.key.length ≤ keyMaxLength ∧ ∀ b ∈ u.key, b ≠ 10 ∧ b ≠ 0
  flags : IsNumber u.flags ∧ value 0 u.flags < 2 ^ 32
  exptime : ∃ digits, IsNumber digits ∧ value 0 digits < 2 ^ 63 ∧
    (u.exptime = digits ∨ u.exptime = 45 :: digits)
  bytes : IsNumber u.bytes ∧ value 0 u.bytes = u.data.length
  casUnique : u.comm = .cas → IsNumber u.casUnique ∧ value 0 u.casUnique < 2 ^ 64
  line_le : u.line.length + 2 ≤ 1024

def exptimeArg : ℤ :=
  if (safeStrtol u.exptime).getD 0 < 0 then realtimeMaxdelta + 1 else (safeStrtol u.exptime).getD 0

/-- The unique id of a `cas` command, 0 for the others. -/
def casArg : ℕ := if u.comm = .cas then value 0 u.casUnique else 0

def Allocates (s : Settings) (env : Env) (cache : Cache) : Prop :=
  (cache.itemAlloc s env.memory u.key ((value 0 u.flags : ℤ).bmod (2 ^ 32))
    (realtime s cache u.exptimeArg) (u.data.length + 2)).2 ≠ none

instance (s : Settings) (env : Env) (cache : Cache) : Decidable (u.Allocates s env cache) :=
  inferInstanceAs (Decidable (¬ _))

end Storage

theorem IsNumber.isWord {digits : Bytes} (h : IsNumber digits) : IsWord digits :=
  ⟨h.1, fun hspace => absurd (h.2 32 hspace) (by decide)⟩

theorem verb_isWord (comm : NreadCmd) : IsWord (verb comm) := by
  cases comm <;> exact ⟨by decide, by decide⟩

variable {u : Storage}

theorem Storage.WellFormed.fields_isWord (h : u.WellFormed) : ∀ w ∈ u.fields, IsWord w := by
  obtain ⟨digits, hdigits, -, hexptime⟩ := h.exptime
  have hminus : IsWord u.exptime := by
    rcases hexptime with heq | heq <;> rw [heq]
    · exact hdigits.isWord
    · exact ⟨by simp, by simpa using hdigits.isWord.2⟩
  intro w hw
  unfold Storage.fields at hw
  simp only [List.mem_append, List.mem_cons, List.not_mem_nil, or_false] at hw
  rcases hw with (rfl | rfl | rfl | rfl | rfl) | hcas | hnoreply
  · exact verb_isWord u.comm
  · exact h.key.1
  · exact h.flags.1.isWord
  · exact hminus
  · exact h.bytes.1.isWord
  · split_ifs at hcas with hcomm
    · rw [List.mem_singleton.1 hcas]
      exact (h.casUnique hcomm).1.isWord
    · cases hcas
  · split_ifs at hnoreply
    · rw [List.mem_singleton.1 hnoreply]
      exact ⟨by decide, by decide⟩
    · cases hnoreply

theorem Storage.length_fields (u : Storage) : u.fields.length =
    5 + (if u.comm = .cas then 1 else 0) + if u.noreply then 1 else 0 := by
  unfold Storage.fields
  split_ifs <;> rfl

theorem Storage.WellFormed.tokens (h : u.WellFormed) :
    (tokenizeCommand u.line).values = u.fields := by
  have hwords : words u.line = u.fields := words_line h.fields_isWord
  rw [tokenizeCommand_of_words, hwords]
  rw [hwords, u.length_fields]
  split_ifs <;> decide

theorem Storage.WellFormed.setNoreplyMaybe (h : u.WellFormed) (hnoreply : c.noreply = false) :
    setNoreplyMaybe c (tokenizeCommand u.line) = { c with noreply := u.noreply } := by
  have hdigits : ∀ {digits : Bytes}, IsNumber digits → digits ≠ ascii "noreply" := by
    rintro digits hdigits rfl
    exact absurd (hdigits.2 110 (by decide)) (by decide)
  unfold Memcached.setNoreplyMaybe
  rw [h.tokens]
  unfold Storage.fields
  cases hflag : u.noreply with
  | true => split_ifs <;> simp_all
  | false =>
    rw [if_neg]
    · rw [← hnoreply]
    · rw [if_neg Bool.false_ne_true]
      split_ifs with hcomm
      · simpa using hdigits (h.casUnique hcomm).1
      · simpa using hdigits h.bytes.1

theorem Storage.WellFormed.exptime_isSome (h : u.WellFormed) : ∃ e, safeStrtol u.exptime = some e := by
  obtain ⟨digits, hdigits, hlt, heq | heq⟩ := h.exptime
  · exact ⟨_, heq ▸ safeStrtol_digits hdigits.1 hdigits.2 hlt⟩
  · exact ⟨_, heq ▸ safeStrtol_minus hdigits.1 hdigits.2 hlt⟩

variable (s : Settings) (env : Env) (cache : Cache)

theorem Storage.WellFormed.processUpdateCommand (h : u.WellFormed)
    (hlength : u.data.length + 2 < 2 ^ 31) {c : Conn} (hnoreply : c.noreply = false) :
    processUpdateCommand s env (tokenizeCommand u.line) u.comm (u.comm = .cas) cache c =
      updateAlloc s env (tokenizeCommand u.line) u.comm (value 0 u.flags) u.exptimeArg
        (u.data.length + 2) u.casArg cache { c with noreply := u.noreply } := by
  have hkey : (tokenizeCommand u.line).get 1 = u.key := by
    unfold Tokens.get
    rw [h.tokens]
    rfl
  have hflags : safeStrtoul ((tokenizeCommand u.line).get 2) = some (value 0 u.flags) := by
    unfold Tokens.get safeStrtoul
    rw [h.tokens]
    change (safeStrtoull u.flags).map _ = _
    rw [safeStrtoull_digits h.flags.1.1 h.flags.1.2 (h.flags.2.trans (by decide)),
      Option.map_some, Nat.mod_eq_of_lt h.flags.2]
  obtain ⟨e, he⟩ := h.exptime_isSome
  have hexptime : safeStrtol ((tokenizeCommand u.line).get 3) = some e := by
    unfold Tokens.get
    rw [h.tokens]
    exact he
  have hbytes : safeStrtol ((tokenizeCommand u.line).get 4) = some (u.data.length : ℤ) := by
    unfold Tokens.get
    rw [h.tokens]
    change safeStrtol u.bytes = _
    rw [safeStrtol_digits h.bytes.1.1 h.bytes.1.2 (by rw [h.bytes.2]; omega), h.bytes.2,
      Int.bmod_eq_of_le (by omega) (by omega)]
  have hcas : (if decide (u.comm = .cas) = true then safeStrtoull ((tokenizeCommand u.line).get 5)
      else some 0) = some u.casArg := by
    unfold Storage.casArg
    by_cases hcomm : u.comm = .cas
    · rw [if_pos (by simpa using hcomm), if_pos hcomm]
      unfold Tokens.get
      rw [h.tokens]
      unfold Storage.fields
      rw [if_pos hcomm]
      exact safeStrtoull_digits (h.casUnique hcomm).1.1 (h.casUnique hcomm).1.2
        (h.casUnique hcomm).2
    · rw [if_neg (by simpa using hcomm), if_neg hcomm]
  have hvlen : ((u.data.length : ℤ) + 2).bmod (2 ^ 32) = u.data.length + 2 :=
    Int.bmod_eq_of_le (by omega) (by omega)
  unfold Memcached.processUpdateCommand
  rw [h.setNoreplyMaybe hnoreply, hkey, if_neg (by have := h.key.2.1; omega), hflags, hexptime,
    hbytes, hcas]
  dsimp only
  rw [hvlen, if_neg (by omega)]
  unfold Storage.exptimeArg
  rw [he, Option.getD_some]

theorem Storage.WellFormed.dispatchCommand (h : u.WellFormed) (c : Conn) :
    dispatchCommand s env (tokenizeCommand u.line) cache c =
      Memcached.processUpdateCommand s env (tokenizeCommand u.line) u.comm (u.comm = .cas) cache
        c := by
  have hcommand : (tokenizeCommand u.line).get 0 = verb u.comm := by
    unfold Tokens.get
    rw [h.tokens]
    rfl
  have hn : (tokenizeCommand u.line).ntokens =
      6 + (if u.comm = .cas then 1 else 0) + if u.noreply then 1 else 0 := by
    unfold Tokens.ntokens
    rw [h.tokens, u.length_fields]
    omega
  unfold Memcached.dispatchCommand
  rw [hcommand, hn]
  cases hcomm : u.comm <;> cases u.noreply <;> rfl

theorem updateAlloc_spec (tokens : Tokens) (comm : NreadCmd) (flags : ℕ) (exptime vlen : ℤ)
    (reqCasId : ℕ) (c : Conn) :
    (∃ id, (cache.itemAlloc s env.memory (tokens.get 1) ((flags : ℤ).bmod (2 ^ 32))
        (realtime s cache exptime) vlen).2 = some id ∧
      (updateAlloc s env tokens comm flags exptime vlen reqCasId cache c).2 = { c with
        item := some id
        ritem := []
        rlbytes := vlen
        cmd := .nread comm
        state := .nread }) ∨
    (cache.itemAlloc s env.memory (tokens.get 1) ((flags : ℤ).bmod (2 ^ 32))
        (realtime s cache exptime) vlen).2 = none ∧
      (updateAlloc s env tokens comm flags exptime vlen reqCasId cache c).2 =
        { c.outString (allocError s (tokens.get 1) ((flags : ℤ).bmod (2 ^ 32)) vlen) with
          writeAndGo := .swallow
          sbytes := vlen } := by
  unfold updateAlloc
  dsimp only
  split
  next cache' halloc =>
    refine .inr ⟨by rw [halloc], ?_⟩
    split
    · split <;> rfl
    · rfl
  next cache' id halloc => exact .inl ⟨id, by rw [halloc], rfl⟩

end ServerStack.Memcached
