import ServerStack.Redis.Networking.Query

/-!
# Parsing a stream that arrives in chunks

After every chunk the parser stands at the first line or argument that is not complete, whatever
the chunks before, and has dropped what is before it.  A walk along the commands by lengths alone
says where that is, and whether the `$` line of an argument was cut with more than
`REDIS_INLINE_MAX_SIZE` bytes in the buffer, which the parser takes for a count that is too big.
-/

namespace ServerStack.Redis.Networking

open Util Decimal List

/-! ## The walk -/

inductive Walk where
  /-- A `$` line was cut with too many bytes in the buffer. -/
  | tooBig
  /-- The next line or argument is not complete: the arguments read, those to come, whether the
  length of the next one is known, and the number of bytes left. -/
  | stuck (parsed args : List Bytes) (known : Bool) (left : ℕ)
  | complete (left : ℕ)

/-- The argument itself, when `held` bytes of the buffer are consumed and `avail` are not. -/
def walkBody (resume : ℕ → ℕ → Walk) (parsed : List Bytes) (arg : Bytes) (args : List Bytes)
    (held avail : ℕ) : Walk :=
  if avail < arg.length + 2 then .stuck parsed (arg :: args) true avail
  else if held = 0 ∧ arg.length ≥ mbulkBigArg ∧ avail = arg.length + 2 then resume 0 0
  else resume (held + (arg.length + 2)) (avail - (arg.length + 2))

/-- Walk along the arguments of a command.  A line that announces a big argument empties the
consumed part of the buffer. -/
def walkArgs : List Bytes → List Bytes → Bool → ℕ → ℕ → Walk
  | _, [], _, _, avail => .complete avail
  | parsed, arg :: args, true, held, avail =>
    walkBody (walkArgs (parsed ++ [arg]) args false) parsed arg args held avail
  | parsed, arg :: args, false, held, avail =>
    let line := (headerLine 36 arg.length).length
    if avail + 2 ≤ line then
      if held + avail > inlineMaxSize then .tooBig else .stuck parsed (arg :: args) false avail
    else if avail < line then .stuck parsed (arg :: args) false avail
    else walkBody (walkArgs (parsed ++ [arg]) args false) parsed arg args
      (if arg.length ≥ mbulkBigArg then 0 else held + line) (avail - line)

/-! ## Lines -/

variable {u rest buf : Bytes} {n : ℕ} {args : List Bytes}

theorem strchr_append_left {w t : Bytes} (hw : ∀ b ∈ w, b ≠ 13 ∧ b ≠ 0) (hu : u <+: w ++ 13 :: t) :
    strchr 13 u = if w.length < u.length then some w.length else none := by
  induction w generalizing u with
  | nil =>
    cases u with
    | nil => rfl
    | cons b u =>
      rw [nil_append, cons_prefix_cons] at hu
      rw [strchr, if_pos hu.1]
      rfl
  | cons a w ih =>
    cases u with
    | nil => rfl
    | cons b u =>
      rw [cons_append, cons_prefix_cons] at hu
      obtain ⟨rfl, hu⟩ := hu
      have hb := hw b mem_cons_self
      rw [strchr, if_neg hb.1, if_neg hb.2, ih (fun c hc => hw c (mem_cons_of_mem b hc)) hu]
      simp only [length_cons, Nat.add_lt_add_iff_right]
      split_ifs <;> rfl

theorem headerLine_eq (type : UInt8) (n : ℕ) :
    headerLine type n = type :: decimal n ++ [13, 10] := rfl

theorem length_headerLine (type : UInt8) (n : ℕ) :
    (headerLine type n).length = (decimal n).length + 3 := by
  rw [headerLine_eq]
  simp

theorem strchr_headerLine {type : UInt8} (htype : type ≠ 13 ∧ type ≠ 0)
    (hu : u <+: headerLine type n ++ rest) :
    strchr 13 u = if u.length + 2 ≤ (headerLine type n).length then none
      else some ((headerLine type n).length - 2) := by
  have hline : headerLine type n ++ rest = (type :: decimal n) ++ 13 :: (10 :: rest) := by
    rw [headerLine_eq]
    simp
  have hbytes : ∀ b ∈ type :: decimal n, b ≠ 13 ∧ b ≠ 0 := by
    intro b hb
    rcases mem_cons.1 hb with rfl | hb
    · exact htype
    · have hdigit := isDigit_of_mem_decimal hb
      constructor
      · rintro rfl
        exact absurd hdigit.1 (by decide)
      · rintro rfl
        exact absurd hdigit.1 (by decide)
  rw [hline] at hu
  rw [strchr_append_left hbytes hu, length_headerLine, length_cons]
  split_ifs
  · omega
  · congr 1
  · rfl
  · omega

theorem string2ll_decimal (h : n < 2 ^ 63) : string2ll (decimal n) = some (n : ℤ) := by
  have hint : decimalInt n = decimal n := by
    rw [decimalInt, if_neg (by omega), Int.natAbs_natCast]
  rw [← hint]
  exact string2ll_decimalInt ⟨by omega, by omega⟩

/-! ## One command -/

def clientAt (executed : List (List Bytes)) (parsed args : List Bytes) (known : Bool)
    (buf : Bytes) : Client where
  querybuf := buf
  reqtype := .multibulk
  multibulklen := args.length
  bulklen := if known then args.head?.map List.length else none
  argv := parsed
  closeAfterReply := false
  errors := []
  executed := executed

def bulkRest (known : Bool) : List Bytes → Bytes
  | [] => []
  | arg :: args => (if known then arg ++ crlf else encodeBulk arg) ++ args.flatMap encodeBulk

/-- The loop over the arguments did what the walk says; `fut` is the stream that has not arrived,
and `more` what follows the command. -/
def LoopResult (executed : List (List Bytes)) (all : List Bytes) (fut more : Bytes)
    (r : Client × Bool) : Walk → Prop
  | .tooBig => r.2 = false ∧ r.1.closeAfterReply = true ∧ r.1.errors = [.tooBigBulkCount]
  | .stuck parsed args known left => ∃ w, w.length = left ∧ w ++ fut = bulkRest known args ++ more ∧
      parsed ++ args = all ∧ args ≠ [] ∧ left < (bulkRest known args).length ∧
      r = (clientAt executed parsed args known w, false)
  | .complete left => ∃ w, w.length = left ∧ w ++ fut = more ∧
      r = (clientAt executed all [] false w, true)

def finishRound (n : ℕ) : Round → Client × Bool
  | .stop c pos => ({ c with querybuf := c.querybuf.drop pos }, false)
  | .fail c => (c, false)
  | .next c pos => bulkLoop n { c with multibulklen := n } pos

theorem bulkLoop_succ (n : ℕ) (c : Client) (pos : ℕ) :
    bulkLoop (n + 1) c pos = finishRound n (bulkRound c pos) := by
  rw [bulkLoop]
  cases bulkRound c pos <;> rfl

variable {executed : List (List Bytes)} {fut more : Bytes}

theorem exists_of_append_eq {piece : Bytes} (h : u ++ fut = piece ++ rest)
    (hlen : piece.length ≤ u.length) : ∃ u', u = piece ++ u' ∧ u' ++ fut = rest := by
  obtain ⟨u', rfl⟩ : piece <+: u :=
    prefix_of_prefix_length_le ⟨rest, rfl⟩ ⟨fut, h⟩ hlen
  rw [append_assoc] at h
  exact ⟨u', rfl, append_cancel_left h⟩

theorem bulkRest_true (arg : Bytes) (args : List Bytes) :
    bulkRest true (arg :: args) = arg ++ crlf ++ bulkRest false args := by
  cases args <;> simp [bulkRest]

theorem bulkRest_false (arg : Bytes) (args : List Bytes) :
    bulkRest false (arg :: args) = headerLine 36 arg.length ++ bulkRest true (arg :: args) := by
  simp [bulkRest, encodeBulk]

theorem bulkRest_eq_flatMap (args : List Bytes) : bulkRest false args = args.flatMap encodeBulk := by
  cases args <;> rfl

theorem finishRound_readBulk {arg : Bytes} {parsed : List Bytes}
    (ih : ∀ pre u : Bytes, u ++ fut = bulkRest false args ++ more →
      LoopResult executed (parsed ++ [arg] ++ args) fut more
        (bulkLoop args.length (clientAt executed (parsed ++ [arg]) args false (pre ++ u)) pre.length)
        (walkArgs (parsed ++ [arg]) args false pre.length u.length))
    (pre u : Bytes) (hu : u ++ fut = bulkRest true (arg :: args) ++ more) :
    LoopResult executed (parsed ++ arg :: args) fut more (finishRound args.length
        (readBulk (clientAt executed parsed (arg :: args) true (pre ++ u)) pre.length arg.length))
      (walkBody (walkArgs (parsed ++ [arg]) args false) parsed arg args pre.length u.length) := by
  have hcopy : (pre.length = 0 ∧ arg.length ≥ mbulkBigArg ∧
      pre.length + u.length = arg.length + 2) ↔
      (pre.length = 0 ∧ arg.length ≥ mbulkBigArg ∧ u.length = arg.length + 2) := by omega
  have hcrlf : (arg ++ crlf).length = arg.length + 2 := by simp [crlf]
  rw [walkBody, readBulk]
  simp only [clientAt, length_append, Nat.add_sub_cancel_left, hcopy]
  by_cases hshort : u.length < arg.length + 2
  · -- the argument is not complete
    rw [if_pos hshort, if_pos hshort]
    refine ⟨u, rfl, hu, rfl, by simp, ?_, ?_⟩
    · rw [bulkRest_true, length_append]
      omega
    · simp [finishRound, clientAt]
  · rw [bulkRest_true, append_assoc] at hu
    obtain ⟨u', rfl, hu'⟩ := exists_of_append_eq hu (by omega)
    split_ifs with hzero
    · -- the buffer holds just the argument
      have hpre : pre = [] := eq_nil_of_length_eq_zero hzero.1
      have hu'nil : u' = [] := by
        have := hzero.2.2
        rw [length_append] at this
        exact eq_nil_of_length_eq_zero (by omega)
      subst hpre hu'nil
      have hnext := ih [] [] hu'
      simpa [finishRound, clientAt] using hnext
    · have hnext := ih (pre ++ (arg ++ crlf)) u' hu'
      rw [length_append, hcrlf] at hnext
      rw [length_append, hcrlf, Nat.add_sub_cancel_left]
      simpa [finishRound, clientAt, Nat.add_assoc] using hnext

theorem readBulkLen_line {arg : Bytes} (harg : arg.length ≤ maxBulkLen) (parsed args : List Bytes)
    (pre u : Bytes) :
    readBulkLen (clientAt executed parsed (arg :: args) false
        (pre ++ (headerLine 36 arg.length ++ u))) pre.length =
      if arg.length ≥ mbulkBigArg then
        readBulk (clientAt executed parsed (arg :: args) true u) 0 arg.length
      else
        readBulk (clientAt executed parsed (arg :: args) true
          (pre ++ (headerLine 36 arg.length ++ u)))
          (pre.length + (headerLine 36 arg.length).length) arg.length := by
  have hmax : maxBulkLen = 536870912 := rfl
  have hline := length_headerLine 36 arg.length
  have hnewline : strchr 13 (headerLine 36 arg.length ++ u) =
      some ((headerLine 36 arg.length).length - 2) := by
    rw [strchr_headerLine (by decide) prefix_rfl, if_neg]
    rw [length_append]
    omega
  have hdollar : (pre ++ (headerLine 36 arg.length ++ u))[pre.length]? = some 36 := by
    simp [headerLine_eq]
  have hdigits : ((pre ++ (headerLine 36 arg.length ++ u)).drop (pre.length + 1)).take
      ((headerLine 36 arg.length).length - 2 - 1) = decimal arg.length := by
    rw [headerLine_eq]
    simp
  have hnumber : string2ll (decimal arg.length) = some (arg.length : ℤ) :=
    string2ll_decimal (by omega)
  have hpos : pre.length + ((headerLine 36 arg.length).length - 2) + 2 =
      pre.length + (headerLine 36 arg.length).length := by omega
  have hdrop : (pre ++ (headerLine 36 arg.length ++ u)).drop
      (pre.length + (headerLine 36 arg.length).length) = u := by
    rw [← append_assoc, ← length_append, drop_left]
  rw [readBulkLen]
  simp only [clientAt, drop_left, hnewline, hdollar, hdigits, hnumber, hpos, hdrop,
    Int.toNat_natCast]
  rw [if_neg (by simp only [length_append]; omega), if_neg (by omega)]
  simp only [Nat.cast_le, ge_iff_le]
  rfl

/-- The loop over the arguments does what the walk says. -/
theorem bulkLoop_spec :
    ∀ (args parsed : List Bytes) (known : Bool) (pre u : Bytes), (known = true → args ≠ []) →
      (∀ arg ∈ args, arg.length ≤ maxBulkLen) → u ++ fut = bulkRest known args ++ more →
      LoopResult executed (parsed ++ args) fut more
        (bulkLoop args.length (clientAt executed parsed args known (pre ++ u)) pre.length)
        (walkArgs parsed args known pre.length u.length)
  | [], parsed, known, pre, u, hknown, _, hu => by
      cases known with
      | true => exact absurd rfl (hknown rfl)
      | false => exact ⟨u, rfl, hu, by simp [bulkLoop, clientAt]⟩
  | arg :: args, parsed, known, pre, u, _, hargs, hu => by
      have ih : ∀ pre u : Bytes, u ++ fut = bulkRest false args ++ more →
          LoopResult executed (parsed ++ [arg] ++ args) fut more
            (bulkLoop args.length (clientAt executed (parsed ++ [arg]) args false (pre ++ u))
              pre.length)
            (walkArgs (parsed ++ [arg]) args false pre.length u.length) := fun pre u hu =>
        bulkLoop_spec args (parsed ++ [arg]) false pre u (fun h => by cases h)
          (fun a ha => hargs a (mem_cons_of_mem arg ha)) hu
      rw [length_cons, bulkLoop_succ]
      cases known with
      | true => exact finishRound_readBulk ih pre u hu
      | false =>
        have hround : bulkRound (clientAt executed parsed (arg :: args) false (pre ++ u)) pre.length =
            readBulkLen (clientAt executed parsed (arg :: args) false (pre ++ u)) pre.length := rfl
        rw [hround, walkArgs]
        have hrest : u ++ fut = headerLine 36 arg.length ++ (bulkRest true (arg :: args) ++ more) := by
          rw [hu, bulkRest_false, append_assoc]
        have hchr := strchr_headerLine (by decide) ⟨fut, hrest⟩
        have hwait : u.length < (headerLine 36 arg.length).length →
            LoopResult executed (parsed ++ arg :: args) fut more (finishRound args.length (.stop
                (clientAt executed parsed (arg :: args) false (pre ++ u)) pre.length))
              (.stuck parsed (arg :: args) false u.length) := by
          intro hlt
          refine ⟨u, rfl, hu, rfl, by simp, ?_, by simp [finishRound, clientAt]⟩
          rw [bulkRest_false, length_append]
          omega
        by_cases hcut : u.length + 2 ≤ (headerLine 36 arg.length).length
        · -- the `\r` of the line has not arrived
          rw [if_pos hcut] at hchr
          rw [readBulkLen, if_pos hcut]
          simp only [clientAt, drop_left, hchr, length_append]
          by_cases hbig : pre.length + u.length > inlineMaxSize
          · rw [if_pos hbig, if_pos hbig]
            exact ⟨rfl, rfl, by simp [finishRound, Client.protocolError]⟩
          · rw [if_neg hbig, if_neg hbig]
            exact hwait (by omega)
        rw [if_neg hcut] at hchr ⊢
        by_cases hlf : u.length < (headerLine 36 arg.length).length
        · -- the `\n` of the line has not arrived
          rw [readBulkLen, if_pos hlf]
          simp only [clientAt, drop_left, hchr, length_append]
          rw [if_pos (by omega)]
          exact hwait hlf
        · rw [if_neg hlf]
          obtain ⟨u', rfl, hu'⟩ := exists_of_append_eq hrest (by omega)
          rw [readBulkLen_line (hargs arg mem_cons_self), length_append, Nat.add_sub_cancel_left]
          split_ifs with hbig
          · exact finishRound_readBulk ih [] u' hu'
          · have hnext := finishRound_readBulk ih (pre ++ headerLine 36 arg.length) u' hu'
            rwa [length_append, append_assoc] at hnext

/-! ## Whole streams -/

/-- A place of the stream between two chunks: the commands executed, the arguments of the command
in progress, the commands to come, and the number of bytes left in the buffer. -/
structure Place where
  executed : List (List Bytes)
  parsed : List Bytes
  args : List Bytes
  known : Bool
  cmds : List (List Bytes)
  left : ℕ

def afterArgs (executed cmds : List (List Bytes)) (resume : ℕ → Option Place) : Walk → Option Place
  | .tooBig => none
  | .stuck parsed args known left => some ⟨executed, parsed, args, known, cmds, left⟩
  | .complete left => resume left

/-- Walk along the commands; `none` if a `$` line was cut with too many bytes in the buffer. -/
def walkCmds : List (List Bytes) → List (List Bytes) → ℕ → Option Place
  | executed, [], avail => some ⟨executed, [], [], false, [], avail⟩
  | executed, args :: cmds, avail =>
    let line := (headerLine 42 args.length).length
    if avail < line then some ⟨executed, [], [], false, args :: cmds, avail⟩
    else
      afterArgs executed cmds (walkCmds (executed ++ [args]) cmds)
        (walkArgs [] args false line (avail - line))

/-- The place after another chunk of the given length, if it is accepted. -/
def Place.advance (p : Place) (chunk : ℕ) : Option Place :=
  if p.left + chunk > clientMaxQuerybufLen then none
  else if p.args = [] then walkCmds p.executed p.cmds (p.left + chunk)
  else
    afterArgs p.executed p.cmds (walkCmds (p.executed ++ [p.parsed ++ p.args]) p.cmds)
      (walkArgs p.parsed p.args p.known 0 (p.left + chunk))

/-- No chunk ends inside the `$` line of an argument, before its `\r`, with more than
`REDIS_INLINE_MAX_SIZE` bytes in the buffer, and the buffer stays within its own limit. -/
def CutsAccepted (cmds : List (List Bytes)) (chunks : List ℕ) : Prop :=
  (chunks.foldlM Place.advance ⟨[], [], [], false, cmds, 0⟩).isSome

instance (cmds : List (List Bytes)) (chunks : List ℕ) : Decidable (CutsAccepted cmds chunks) :=
  inferInstanceAs (Decidable (_ = true))

structure ValidCommand (args : List Bytes) : Prop where
  ne_nil : args ≠ []
  length_le : args.length ≤ maxMultibulkLen
  bulk_le : ∀ arg ∈ args, arg.length ≤ maxBulkLen

def idleClient (executed : List (List Bytes)) (buf : Bytes) : Client :=
  { clientAt executed [] [] false buf with reqtype := .unknown }

/-- The client stands at a place of the stream; `fut` has not arrived yet. -/
structure At (all : List (List Bytes)) (fut : Bytes) (p : Place) (c : Client) : Prop where
  client : c = clientAt p.executed p.parsed p.args p.known c.querybuf ∨
    p.args = [] ∧ c = idleClient p.executed c.querybuf
  left_eq : c.querybuf.length = p.left
  rest_eq : c.querybuf ++ fut = bulkRest p.known p.args ++ p.cmds.flatMap encodeCommand
  idle : p.args = [] → p.parsed = [] ∧ p.known = false ∧ p.executed ++ p.cmds = all ∧
    ∀ args cmds, p.cmds = args :: cmds → p.left < (headerLine 42 args.length).length
  busy : p.args ≠ [] → p.executed ++ (p.parsed ++ p.args) :: p.cmds = all ∧
    p.left < (bulkRest p.known p.args).length

/-- The connection is going to be closed with an error. -/
def Failed (c : Client) : Prop := c.closeAfterReply = true ∧ c.errors = [.tooBigBulkCount]

def CallResult (all : List (List Bytes)) (fut : Bytes) (r : Except Abort Client) :
    Option Place → Prop
  | none => r = .error .clientFreed ∨ ∃ c, r = .ok c ∧ Failed c
  | some p => ∃ c, r = .ok c ∧ At all fut p c

theorem length_headerLine_le (type : UInt8) (h : n ≤ maxMultibulkLen) :
    (headerLine type n).length ≤ 10 := by
  have hmax : maxMultibulkLen = 1048576 := rfl
  have := length_decimal_le (show n < 10 ^ (6 + 1) by omega)
  rw [length_headerLine]
  omega

theorem readMultibulkLen_line (hpos : 0 < n) (hn : n < 2 ^ 63) (u : Bytes) :
    readMultibulkLen (clientAt executed [] [] false (headerLine 42 n ++ u)) =
      .ok (if n > maxMultibulkLen then
        .stop ((clientAt executed [] [] false (headerLine 42 n ++ u)).protocolError
          .invalidMultibulkLength 0)
      else .go { clientAt executed [] [] false (headerLine 42 n ++ u) with multibulklen := n }
        (headerLine 42 n).length) := by
  have hline := length_headerLine 42 n
  have hchr : strchr 13 (headerLine 42 n ++ u) = some ((headerLine 42 n).length - 2) := by
    rw [strchr_headerLine (by decide) prefix_rfl, if_neg]
    rw [length_append]
    omega
  have hdigits : ((headerLine 42 n ++ u).drop 1).take ((headerLine 42 n).length - 2 - 1) =
      decimal n := by
    rw [headerLine_eq]
    simp
  have hquery : (clientAt executed [] [] false (headerLine 42 n ++ u)).querybuf =
      headerLine 42 n ++ u := rfl
  rw [readMultibulkLen, if_neg (by simp [clientAt]), hquery, hchr]
  simp only
  rw [if_neg (by rw [length_append]; omega), if_neg (by simp [headerLine_eq]), hdigits,
    string2ll_decimal hn]
  simp only [Nat.cast_lt, gt_iff_lt]
  split_ifs with hmany hzero
  · rfl
  · omega
  · rw [show (headerLine 42 n).length - 2 + 2 = (headerLine 42 n).length by omega]
    rfl

theorem readMultibulkLen_spec (hvalid : ValidCommand args)
    (hbuf : buf ++ fut = headerLine 42 args.length ++ rest) :
    readMultibulkLen (clientAt executed [] [] false buf) =
      .ok (if buf.length < (headerLine 42 args.length).length then
        .stop (clientAt executed [] [] false buf)
      else .go (clientAt executed [] args false buf) (headerLine 42 args.length).length) := by
  have hmax : maxMultibulkLen = 1048576 := rfl
  have hlimit : inlineMaxSize = 65536 := rfl
  have hle := length_headerLine_le 42 hvalid.length_le
  have hlen := hvalid.length_le
  by_cases hlf : buf.length < (headerLine 42 args.length).length
  · have hchr := strchr_headerLine (by decide) ⟨fut, hbuf⟩
    have hquery : (clientAt executed [] [] false buf).querybuf = buf := rfl
    rw [if_pos hlf, readMultibulkLen, if_neg (by simp [clientAt]), hquery, hchr]
    by_cases hcut : buf.length + 2 ≤ (headerLine 42 args.length).length
    · -- the `\r` has not arrived
      rw [if_pos hcut]
      rw [if_neg (by omega)]
    · rw [if_neg hcut]
      simp only
      rw [if_pos (by omega)]
  · obtain ⟨u, rfl, -⟩ := exists_of_append_eq hbuf (by omega)
    rw [if_neg hlf, readMultibulkLen_line (length_pos_iff.2 hvalid.ne_nil) (by omega),
      if_neg (by omega)]
    rfl

theorem processMultibulkBuffer_first (hvalid : ValidCommand args)
    (hbuf : buf ++ fut = headerLine 42 args.length ++ rest) :
    processMultibulkBuffer (clientAt executed [] [] false buf) =
      .ok (if buf.length < (headerLine 42 args.length).length then
        (clientAt executed [] [] false buf, false)
      else bulkLoop args.length (clientAt executed [] args false buf)
        (headerLine 42 args.length).length) := by
  have hzero : (clientAt executed [] [] false buf).multibulklen = 0 := rfl
  rw [processMultibulkBuffer, readMultibulkLen_spec hvalid hbuf]
  split_ifs <;> rfl

theorem processMultibulkBuffer_again {parsed : List Bytes} (hargs : args ≠ []) (known : Bool)
    (buf : Bytes) :
    processMultibulkBuffer (clientAt executed parsed args known buf) =
      .ok (bulkLoop args.length (clientAt executed parsed args known buf) 0) := by
  exact if_neg (length_pos_iff.2 hargs).ne'

theorem walkArgs_complete :
    ∀ (args parsed : List Bytes) (known : Bool) (held rest : ℕ), (known = true → args ≠ []) →
      walkArgs parsed args known held ((bulkRest known args).length + rest) = .complete rest
  | [], _, _, _, _, _ => by simp [walkArgs, bulkRest]
  | arg :: args, parsed, known, held, rest, _ => by
      have ih : ∀ held, walkArgs (parsed ++ [arg]) args false held
          ((bulkRest false args).length + rest) = .complete rest := fun held =>
        walkArgs_complete args (parsed ++ [arg]) false held rest (fun h => by cases h)
      have hbody : ∀ held, walkBody (walkArgs (parsed ++ [arg]) args false) parsed arg args held
          ((bulkRest true (arg :: args)).length + rest) = .complete rest := by
        intro held
        have hlen : (bulkRest true (arg :: args)).length =
            arg.length + 2 + (bulkRest false args).length := by
          simp only [bulkRest_true, crlf, length_append, length_cons, length_nil]
        rw [hlen, walkBody, if_neg (by omega)]
        split_ifs with hzero
        · have hnone := ih 0
          rwa [show (bulkRest false args).length + rest = 0 by omega] at hnone
        · rw [Nat.add_assoc, Nat.add_sub_cancel_left]
          exact ih _
      cases known with
      | true => exact hbody held
      | false =>
        rw [walkArgs, bulkRest_false, length_append, if_neg (by omega), if_neg (by omega),
          Nat.add_assoc, Nat.add_sub_cancel_left]
        exact hbody _

theorem processMultibulkBuffer_whole {args : List Bytes} (hvalid : ValidCommand args)
    (rest : Bytes) :
    processMultibulkBuffer (clientAt executed [] [] false (encodeCommand args ++ rest)) =
      .ok (clientAt executed args [] false rest, true) := by
  have hbuf : encodeCommand args ++ rest ++ [] =
      headerLine 42 args.length ++ (bulkRest false args ++ rest) := by
    rw [encodeCommand, bulkRest_eq_flatMap]
    simp
  have hloop := @bulkLoop_spec executed [] rest args [] false (headerLine 42 args.length)
    (bulkRest false args ++ rest) (fun h => by cases h) hvalid.bulk_le (append_nil _)
  rw [length_append, walkArgs_complete args [] false _ _ (fun h => by cases h)] at hloop
  obtain ⟨w, -, hw, hr⟩ := hloop
  rw [append_nil] at hbuf hw
  rw [processMultibulkBuffer_first hvalid 
    (by rw [append_nil, hbuf]), hbuf, if_neg (by rw [length_append]; omega), hr, hw]
  rfl

theorem determineType_clientAt (parsed args : List Bytes) (known : Bool) (buf : Bytes) :
    determineType (clientAt executed parsed args known buf) =
      clientAt executed parsed args known buf := rfl

theorem determineType_idleClient (hbuf : buf.head? = some 42) :
    determineType (idleClient executed buf) = clientAt executed [] [] false buf := by
  simp [determineType, idleClient, clientAt, hbuf]

section

variable {processInlineBuffer : Client → Client × Bool} {all cmds : List (List Bytes)} {fuel : ℕ}

variable {c : Client} {buf : Bytes}

theorem processRequests_nil (hbuf : c.querybuf = []) :
    processRequests processInlineBuffer (fuel + 1) c = .ok c := by
  rw [processRequests, if_pos hbuf]

theorem processRequests_succ {parsed args : List Bytes} {known : Bool} (hbuf : c.querybuf ≠ [])
    (hopen : c.closeAfterReply = false)
    (htype : determineType c = clientAt executed parsed args known buf) :
    processRequests processInlineBuffer (fuel + 1) c =
      (processMultibulkBuffer (clientAt executed parsed args known buf)).bind fun r =>
        if r.2 then processRequests processInlineBuffer fuel (executeRequest r.1) else .ok r.1 := by
  rw [processRequests, if_neg hbuf, hopen, htype]
  rfl

theorem callResult_afterArgs {whole : List Bytes} {r : Client × Bool} {w : Walk}
    (hloop : LoopResult executed whole fut (cmds.flatMap encodeCommand) r w)
    (hwhole : whole ≠ []) (hall : executed ++ whole :: cmds = all)
    (ih : ∀ v : Bytes, v ++ fut = cmds.flatMap encodeCommand → CallResult all fut
        (processRequests processInlineBuffer fuel (idleClient (executed ++ [whole]) v))
        (walkCmds (executed ++ [whole]) cmds v.length)) :
    CallResult all fut
      (if r.2 then processRequests processInlineBuffer fuel (executeRequest r.1) else .ok r.1)
      (afterArgs executed cmds (walkCmds (executed ++ [whole]) cmds) w) := by
  cases w with
  | tooBig =>
    obtain ⟨hok, hclose, herr⟩ := hloop
    rw [hok]
    exact .inr ⟨r.1, rfl, hclose, herr⟩
  | stuck parsed args known left =>
    obtain ⟨v, rfl, hv, rfl, hne, hlt, rfl⟩ := hloop
    exact ⟨_, rfl, .inl rfl, rfl, hv, fun h => absurd h hne, fun _ => ⟨hall, hlt⟩⟩
  | complete left =>
    obtain ⟨v, rfl, hv, rfl⟩ := hloop
    have hexec : executeRequest (clientAt executed whole [] false v) =
        idleClient (executed ++ [whole]) v := by
      exact if_neg hwhole
    rw [hexec]
    exact ih v hv

theorem at_idle (hall : executed ++ cmds = all)
    (hc : c = clientAt executed [] [] false buf ∨ c = idleClient executed buf)
    (hbuf : buf ++ fut = cmds.flatMap encodeCommand)
    (hlt : ∀ args rest, cmds = args :: rest → buf.length < (headerLine 42 args.length).length) :
    At all fut ⟨executed, [], [], false, cmds, buf.length⟩ c := by
  have hquery : c.querybuf = buf := by rcases hc with rfl | rfl <;> rfl
  refine ⟨?_, by rw [hquery], by rw [hquery]; exact hbuf,
    fun _ => ⟨rfl, rfl, hall, hlt⟩, fun h => absurd rfl h⟩
  rw [hquery]
  exact hc.imp_right fun h => ⟨rfl, h⟩

theorem processRequests_spec (hvalid : ∀ args ∈ all, ValidCommand args)
    (hall : executed ++ cmds = all)
    (hc : c = clientAt executed [] [] false buf ∨ c = idleClient executed buf)
    (hfuel : buf.length < fuel) (hbuf : buf ++ fut = cmds.flatMap encodeCommand) :
    CallResult all fut (processRequests processInlineBuffer fuel c)
      (walkCmds executed cmds buf.length) := by
  induction cmds generalizing executed buf c fuel with
  | nil =>
    obtain ⟨fuel, rfl⟩ := Nat.exists_eq_succ_of_ne_zero (Nat.ne_zero_of_lt hfuel)
    have hnil : buf = [] := (append_eq_nil_iff.1 hbuf).1
    have hquery : c.querybuf = [] := by rcases hc with rfl | rfl <;> exact hnil
    rw [processRequests_nil hquery]
    exact ⟨c, rfl, at_idle hall hc hbuf (by simp)⟩
  | cons args cmds ih =>
    have hargs : ValidCommand args := hvalid args (by simp [← hall])
    have hrest : buf ++ fut = headerLine 42 args.length ++
        (bulkRest false args ++ cmds.flatMap encodeCommand) := by
      rw [hbuf, flatMap_cons, encodeCommand, bulkRest_eq_flatMap, append_assoc]
    obtain ⟨fuel, rfl⟩ := Nat.exists_eq_succ_of_ne_zero (Nat.ne_zero_of_lt hfuel)
    have hwait : buf.length < (headerLine 42 args.length).length →
        ∀ c, (c = clientAt executed [] [] false buf ∨ c = idleClient executed buf) →
          CallResult all fut (.ok c) (walkCmds executed (args :: cmds) buf.length) := by
      intro hlt c hc
      rw [walkCmds, if_pos hlt]
      refine ⟨c, rfl, at_idle hall hc hbuf ?_⟩
      rintro _ _ ⟨⟩
      exact hlt
    by_cases hnil : buf = []
    · have hquery : c.querybuf = [] := by rcases hc with rfl | rfl <;> exact hnil
      rw [processRequests_nil hquery]
      refine hwait ?_ c hc
      rw [hnil]
      exact Nat.succ_pos _
    have hquery : c.querybuf ≠ [] := by rcases hc with rfl | rfl <;> exact hnil
    have hopen : c.closeAfterReply = false := by rcases hc with rfl | rfl <;> rfl
    have htype : determineType c = clientAt executed [] [] false buf := by
      rcases hc with rfl | rfl
      · exact determineType_clientAt [] [] false buf
      · obtain ⟨b, buf, rfl⟩ := exists_cons_of_ne_nil hnil
        refine determineType_idleClient ?_
        exact congrArg some (List.cons.inj hrest).1
    rw [processRequests_succ hquery hopen htype, processMultibulkBuffer_first hargs hrest]
    by_cases hlt : buf.length < (headerLine 42 args.length).length
    · rw [if_pos hlt]
      exact hwait hlt _ (.inl rfl)
    · obtain ⟨u, rfl, hu⟩ := exists_of_append_eq hrest (by omega)
      have hloop := @bulkLoop_spec executed fut _ args [] false (headerLine 42 args.length) u
        (fun h => by cases h) hargs.bulk_le hu
      rw [if_neg hlt, walkCmds, if_neg hlt, length_append, Nat.add_sub_cancel_left]
      refine callResult_afterArgs hloop hargs.ne_nil hall fun v hv => ?_
      refine ih (by rw [← hall, append_assoc]; rfl) (.inr rfl) ?_ hv
      -- the line is gone from the buffer
      have hlen := congrArg List.length hu
      have hlen' := congrArg List.length hv
      have hline := length_headerLine 42 args.length
      simp only [length_append] at hlen hlen' hfuel
      omega

theorem walkArgs_zero {args : List Bytes} (hargs : args ≠ []) (parsed : List Bytes) (known : Bool) :
    walkArgs parsed args known 0 0 = .stuck parsed args known 0 := by
  obtain ⟨arg, args, rfl⟩ := exists_cons_of_ne_nil hargs
  cases known with
  | true => rw [walkArgs, walkBody, if_pos (by omega)]
  | false =>
    have hline := length_headerLine 36 arg.length
    rw [walkArgs, if_pos (by omega), if_neg (by decide)]

theorem receive_spec (hvalid : ∀ args ∈ all, ValidCommand args) {p : Place} {chunk : Bytes}
    (hat : At all (chunk ++ fut) p c) :
    CallResult all fut (receive processInlineBuffer c chunk) (p.advance chunk.length) := by
  have hlen : (c.querybuf ++ chunk).length = p.left + chunk.length := by
    rw [length_append, hat.left_eq]
  have hrest := hat.rest_eq
  rw [← append_assoc] at hrest
  rw [receive, Place.advance, ← hlen]
  by_cases hlimit : (c.querybuf ++ chunk).length > clientMaxQuerybufLen
  · rw [if_pos hlimit, if_pos hlimit]
    exact .inl rfl
  rw [if_neg hlimit, if_neg hlimit, processInputBuffer]
  by_cases hargs : p.args = []
  · obtain ⟨hparsed, hknown, hall, -⟩ := hat.idle hargs
    rw [if_pos hargs]
    refine processRequests_spec hvalid hall ?_ (Nat.lt_succ_self _)
      (by simpa [hargs, bulkRest] using hrest)
    rcases hat.client with hc | ⟨-, hc⟩
    · rw [hparsed, hargs, hknown] at hc
      exact .inl (congrArg (fun c' : Client => { c' with querybuf := c.querybuf ++ chunk }) hc)
    · exact .inr (congrArg (fun c' : Client => { c' with querybuf := c.querybuf ++ chunk }) hc)
  · obtain ⟨hall, hleft⟩ := hat.busy hargs
    have hwhole : ValidCommand (p.parsed ++ p.args) := hvalid _ (by simp [← hall])
    have hc : { c with querybuf := c.querybuf ++ chunk } =
        clientAt p.executed p.parsed p.args p.known (c.querybuf ++ chunk) := by
      rcases hat.client with hc | ⟨h, -⟩
      · exact congrArg (fun c' : Client => { c' with querybuf := c.querybuf ++ chunk }) hc
      · exact absurd h hargs
    rw [if_neg hargs, hc]
    by_cases hnil : c.querybuf ++ chunk = []
    · -- nothing to parse
      rw [hnil, length_nil, walkArgs_zero hargs]
      refine ⟨_, rfl, .inl rfl, rfl, ?_, fun h => absurd h hargs, fun _ => ⟨hall, ?_⟩⟩
      · rw [hnil] at hrest
        exact hrest
      · exact Nat.zero_lt_of_lt hleft
    · have hloop := @bulkLoop_spec p.executed fut _ p.args p.parsed p.known []
        (c.querybuf ++ chunk) (fun _ => hargs)
        (fun arg harg => hwhole.bulk_le arg (mem_append_right _ harg)) hrest
      rw [processRequests_succ hnil rfl (determineType_clientAt _ _ _ _),
        processMultibulkBuffer_again hargs]
      refine callResult_afterArgs hloop hwhole.ne_nil hall fun v hv => ?_
      refine processRequests_spec hvalid (by rw [← hall, append_assoc]; rfl) (.inr rfl) ?_ hv
      have hlenv := congrArg List.length hv
      have hlenr := congrArg List.length hrest
      rw [length_append] at hlenv
      rw [length_append, hlen, length_append] at hlenr
      have hbuf : v.length < (c.querybuf ++ chunk).length := by omega
      exact hbuf

theorem receive_failed (hfailed : Failed c) (chunk : Bytes) :
    CallResult all fut (receive processInlineBuffer c chunk) none := by
  rw [receive]
  split_ifs
  · exact .inl rfl
  · refine .inr ⟨{ c with querybuf := c.querybuf ++ chunk }, ?_, hfailed⟩
    rw [processInputBuffer, processRequests]
    split_ifs with hnil hclose
    · rfl
    · rfl
    · exact absurd hfailed.1 hclose

theorem receive_chunks (hvalid : ∀ args ∈ all, ValidCommand args) (chunks : List Bytes)
    {p : Option Place} {r : Except Abort Client} (hr : CallResult all (chunks.flatten ++ fut) r p) :
    CallResult all fut (r >>= chunks.foldlM (receive processInlineBuffer))
      (p >>= (chunks.map List.length).foldlM Place.advance) := by
  induction chunks generalizing p r with
  | nil => simpa using hr
  | cons chunk chunks ih =>
    have hstep : CallResult all (chunks.flatten ++ fut) (r >>= (receive processInlineBuffer · chunk))
        (p >>= (Place.advance · chunk.length)) := by
      rw [flatten_cons, append_assoc] at hr
      cases p with
      | none =>
        obtain rfl | ⟨c, rfl, hfailed⟩ := hr
        · exact .inl rfl
        · exact receive_failed hfailed chunk
      | some p =>
        obtain ⟨c, rfl, hat⟩ := hr
        exact receive_spec hvalid hat
    have hnext := ih hstep
    rw [bind_assoc, bind_assoc] at hnext
    exact hnext

theorem At.executed_eq {p : Place} (hat : At all [] p c) : c.executed = all ∧ c.errors = [] := by
  have hlen := congrArg List.length hat.rest_eq
  rw [append_nil, length_append, hat.left_eq] at hlen
  have hargs : p.args = [] := by
    by_contra hargs
    have := (hat.busy hargs).2
    omega
  obtain ⟨-, -, hall, hlt⟩ := hat.idle hargs
  have hcmds : p.cmds = [] := by
    cases hp : p.cmds with
    | nil => rfl
    | cons args cmds =>
      have := hlt args cmds hp
      rw [hp, flatMap_cons, encodeCommand] at hlen
      simp only [length_append] at hlen
      omega
  rw [hcmds, append_nil] at hall
  rw [← hall]
  rcases hat.client with hc | ⟨-, hc⟩ <;> exact hc ▸ ⟨rfl, rfl⟩

theorem at_createClient (cmds : List (List Bytes)) :
    At cmds (cmds.flatMap encodeCommand) ⟨[], [], [], false, cmds, 0⟩ createClient := by
  refine ⟨.inr ⟨rfl, rfl⟩, rfl, rfl, fun _ => ⟨rfl, rfl, rfl, ?_⟩, fun h => absurd rfl h⟩
  intro args _ _
  exact Nat.succ_pos _

theorem receive_stream (hvalid : ∀ args ∈ cmds, ValidCommand args) {chunks : List Bytes}
    (hstream : chunks.flatten = cmds.flatMap encodeCommand) :
    CallResult cmds [] (chunks.foldlM (receive processInlineBuffer) createClient)
      ((chunks.map List.length).foldlM Place.advance ⟨[], [], [], false, cmds, 0⟩) := by
  refine receive_chunks (r := .ok createClient) (p := some ⟨[], [], [], false, cmds, 0⟩) hvalid
    chunks ⟨createClient, rfl, ?_⟩
  rw [append_nil, hstream]
  exact at_createClient cmds

theorem CallResult.executed_iff {r : Except Abort Client} {p : Option Place}
    (h : CallResult cmds [] r p) :
    (∃ c, r = .ok c ∧ c.executed = cmds ∧ c.errors = []) ↔ p.isSome := by
  cases p with
  | none =>
    simp only [Option.isSome_none, Bool.false_eq_true, iff_false]
    rintro ⟨c, rfl, -, herr⟩
    obtain hfreed | ⟨c', hc', -, herr'⟩ := h
    · cases hfreed
    · cases hc'
      simp [herr] at herr'
  | some p =>
    obtain ⟨c, rfl, hat⟩ := h
    simp only [Option.isSome_some, iff_true]
    exact ⟨c, rfl, hat.executed_eq⟩

end

/-- However the stream of the commands is cut, the client executes exactly the commands and sends
no error, if and only if every cut is accepted. -/
theorem multibulk_chunking (processInlineBuffer : Client → Client × Bool)
    (cmds : List (List Bytes)) (hcmds : ∀ args ∈ cmds, ValidCommand args) (chunks : List Bytes)
    (hstream : chunks.flatten = cmds.flatMap encodeCommand) :
    (∃ c, chunks.foldlM (receive processInlineBuffer) createClient = .ok c ∧
      c.executed = cmds ∧ c.errors = []) ↔ CutsAccepted cmds (chunks.map List.length) :=
  (receive_stream hcmds hstream).executed_iff

/-- `PING` and `GET k`, cut inside lines and between `\r` and `\n`. -/
theorem multibulk_chunking_ping_get :
    ∃ c, [[42, 49, 13], [10, 36, 52, 13, 10, 80, 73], [78, 71, 13, 10, 42], [50, 13, 10, 36],
        [51, 13, 10, 71, 69, 84, 13, 10, 36, 49, 13, 10, 107, 13], [10]].foldlM
          (receive fun c => (c, false)) createClient = .ok c ∧
      c.executed = [[[80, 73, 78, 71]], [[71, 69, 84], [107]]] ∧ c.errors = [] := by
  refine (multibulk_chunking (fun c => (c, false)) [[[80, 73, 78, 71]], [[71, 69, 84], [107]]]
    ?_ _ (by decide +kernel)).2 (by decide +kernel)
  intro args hargs
  simp only [mem_cons, not_mem_nil, or_false] at hargs
  rcases hargs with rfl | rfl <;> exact ⟨by decide, by decide, by decide⟩

/-- An argument of 64 KB that arrives together with the first byte of the next `$` line: the 64 KB
count for the line. -/
theorem not_cutsAccepted_after_big {big : Bytes} (hbig : big.length = 65536) (rest : ℕ) :
    ¬ CutsAccepted [[big, [107]]] [65551, rest] := by
  have hstar : (headerLine 42 2).length = 4 := by decide +kernel
  have hdollar : (headerLine 36 65536).length = 8 := by decide +kernel
  have hdollar' : (headerLine 36 1).length = 4 := by decide +kernel
  have hargs : walkArgs [] [big, [107]] false 4 65547 = .tooBig := by
    simp [walkArgs, walkBody, hbig, hdollar, hdollar', mbulkBigArg, inlineMaxSize]
  have hadvance : Place.advance ⟨[], [], [], false, [[big, [107]]], 0⟩ 65551 = none := by
    simp [Place.advance, walkCmds, hstar, hargs, afterArgs, clientMaxQuerybufLen]
  simp [CutsAccepted, hadvance]

def cutAfterBig (big : Bytes) : List Bytes :=
  [headerLine 42 2 ++ headerLine 36 65536 ++ big ++ crlf ++ [36], [49] ++ crlf ++ [107] ++ crlf]

theorem not_executed_after_big {big : Bytes} (hbig : big.length = 65536) :
    ValidCommand [big, [107]] ∧ (cutAfterBig big).flatten = encodeCommand [big, [107]] ∧
      ∀ processInlineBuffer,
        ¬ ∃ c, (cutAfterBig big).foldlM (receive processInlineBuffer) createClient = .ok c ∧
          c.executed = [[big, [107]]] ∧ c.errors = [] := by
  have hline : headerLine 36 1 = [36, 49] ++ crlf := by decide +kernel
  have hvalid : ValidCommand [big, [107]] :=
    ⟨by simp, by simp [maxMultibulkLen], by simp [hbig, maxBulkLen]⟩
  have hstream : (cutAfterBig big).flatten = encodeCommand [big, [107]] := by
    simp [cutAfterBig, encodeCommand, encodeBulk, hline, hbig]
  refine ⟨hvalid, hstream, fun processInlineBuffer => ?_⟩
  have hlen : (headerLine 42 2 ++ headerLine 36 65536 ++ big ++ crlf ++ [36]).length = 65551 := by
    have hheaders : (headerLine 42 2 ++ headerLine 36 65536).length = 12 := by decide +kernel
    simp only [length_append, hbig] at hheaders ⊢
    rw [hheaders]
    rfl
  rw [(receive_stream (by simpa using hvalid) (by simpa using hstream)).executed_iff, cutAfterBig,
    map_cons, hlen]
  exact not_cutsAccepted_after_big hbig _

/-- `*2\r\n$65536\r\naa…a\r\n$` and then `1\r\nk\r\n`: the command is not executed. -/
theorem multibulk_cut_after_big_argument : ValidCommand [List.replicate 65536 97, [107]] ∧
      (cutAfterBig (List.replicate 65536 97)).flatten =
        encodeCommand [List.replicate 65536 97, [107]] ∧
      ∀ processInlineBuffer,
        ¬ ∃ c, (cutAfterBig (List.replicate 65536 97)).foldlM (receive processInlineBuffer)
            createClient = .ok c ∧
          c.executed = [[List.replicate 65536 97, [107]]] ∧ c.errors = [] :=
  not_executed_after_big length_replicate

end ServerStack.Redis.Networking
