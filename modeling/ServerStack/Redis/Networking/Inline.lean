import ServerStack.Redis.Networking.Query
import ServerStack.Redis.Sds

/-!
# Inline requests

`processInlineBuffer` of `networking.c`: a request is a line, which `sdssplitargs` splits into its
arguments.  Two bytes are skipped behind the line, whatever its end is; so the requests do not
depend on how the stream is cut, except that a chunk has to end with each bare `\n`, and that no
chunk may end late in a long line.
-/

namespace ServerStack.Redis.Networking

open Util Sds List

variable (c : Client)

/-- `processInlineBuffer`, for a client that is not a slave; `true` for `REDIS_OK`. -/
def processInlineBuffer : Client × Bool :=
  match strchr 10 c.querybuf with
  | none =>
    if c.querybuf.length > inlineMaxSize then (c.protocolError .tooBigInline 0, false)
    else (c, false)
  | some newline =>
    let querylen :=
      if newline ≠ 0 ∧ c.querybuf[newline - 1]? = some 13 then newline - 1 else newline
    match sdssplitargs (c.querybuf.take querylen) with
    | none => (c.protocolError .unbalancedQuotes 0, false)
    | some argv =>
      ({ c with
        querybuf := c.querybuf.drop (querylen + 2)
        argv := argv.filter (· ≠ []) }, true)

/-- A chunk is appended to the query buffer and processed. -/
def feed (chunk : Bytes) : Except Abort Client :=
  processInputBuffer processInlineBuffer { c with querybuf := c.querybuf ++ chunk }

/-! ## Streams of lines -/

structure Line where
  bytes : Bytes
  cr : Bool

def Line.text (l : Line) : Bytes := l.bytes ++ if l.cr then [13, 10] else [10]

/-- The line can be an inline request: it has neither a newline nor a NUL, is no multi bulk request,
and a carriage return in front of the newline belongs to the end. -/
structure Line.Inline (l : Line) : Prop where
  ne : ∀ b ∈ l.bytes, b ≠ 10 ∧ b ≠ 0
  head : l.bytes.head? ≠ some 42
  last : l.cr = false → l.bytes.getLast? ≠ some 13

def text (lines : List Line) : Bytes := lines.flatMap Line.text

/-- The argument vectors of the lines, up to the first one with unbalanced quotes, at which the
connection is closed. -/
def vectors : List Line → List (List Bytes)
  | [] => []
  | l :: lines =>
    match sdssplitargs l.bytes with
    | none => []
    | some argv => argv.filter (· ≠ []) :: vectors lines

def requests (lines : List Line) : List (List Bytes) := (vectors lines).filter (· ≠ [])

/-- A chunk ends with each line that ends in a bare `\n`. -/
def CutAtNewlines (lines : List Line) (chunks : List Bytes) : Prop :=
  ∀ before l after, lines = before ++ l :: after → l.cr = false →
    ∃ k, (chunks.take k).flatten = text (before ++ [l])

/-- Of the line in which the bytes `u` of the stream end, at most `REDIS_INLINE_MAX_SIZE` bytes are
there. -/
def ShortPart (lines : List Line) (u : Bytes) : Prop :=
  ∀ before l after part more, lines = before ++ l :: after → u = text before ++ part →
    l.text = part ++ more → more ≠ [] → part.length ≤ inlineMaxSize

section

variable {ch : UInt8} {w : Bytes}

theorem strchr_eq_none (h : ∀ b ∈ w, b ≠ ch) : strchr ch w = none := by
  induction w with
  | nil => rfl
  | cons b w ih =>
    obtain ⟨hb, hw⟩ := forall_mem_cons.1 h
    rw [strchr, if_neg hb, ih hw]
    split_ifs <;> rfl

theorem strchr_append_cons (h : ∀ b ∈ w, b ≠ ch ∧ b ≠ 0) (t : Bytes) :
    strchr ch (w ++ ch :: t) = some w.length := by
  induction w with
  | nil => exact if_pos rfl
  | cons b w ih =>
    obtain ⟨hb, hw⟩ := forall_mem_cons.1 h
    rw [cons_append, strchr, if_neg hb.1, if_neg hb.2, ih hw]
    rfl

end

/-! ## One line -/

section

variable {c : Client} {l : Line}

theorem Line.text_eq (l : Line) :
    ∃ w, l.text = w ++ [10] ∧ w = l.bytes ++ if l.cr then [13] else [] := by
  refine ⟨_, ?_, rfl⟩
  unfold Line.text
  cases l.cr <;> simp

theorem Line.length_text_pos (l : Line) : 0 < l.text.length := by
  obtain ⟨w, hw, -⟩ := l.text_eq
  rw [hw, length_append]
  exact Nat.succ_pos _

variable (hl : l.Inline)

include hl

theorem Line.Inline.ne_text {w : Bytes}
    (hw : w = l.bytes ++ if l.cr then [13] else []) : ∀ b ∈ w, b ≠ 10 ∧ b ≠ 0 := by
  subst hw
  intro b hb
  rcases mem_append.1 hb with hb | hb
  · exact hl.ne b hb
  · split_ifs at hb
    · rw [mem_singleton.1 hb]
      decide
    · exact absurd hb not_mem_nil

theorem Line.Inline.head_text (rest : Bytes) : (l.text ++ rest).head? ≠ some 42 := by
  unfold Line.text
  cases hb : l.bytes with
  | nil => cases l.cr <;> simp
  | cons b bytes => simpa [hb] using hl.head

theorem querylen_line (rest : Bytes) {w : Bytes} (hw : w = l.bytes ++ if l.cr then [13] else []) :
    (if w.length ≠ 0 ∧ (w ++ 10 :: rest)[w.length - 1]? = some 13 then w.length - 1
      else w.length) = l.bytes.length := by
  cases hcr : l.cr with
  | true =>
    rw [hcr] at hw
    subst hw
    simp
  | false =>
    rw [hcr, if_neg (by decide), append_nil] at hw
    subst hw
    rw [if_neg]
    rintro ⟨hne, hlast⟩
    apply hl.last hcr
    rwa [getElem?_append_left (by omega), ← getLast?_eq_getElem?] at hlast

theorem processInlineBuffer_line {rest : Bytes}
    (hbuf : c.querybuf = l.text ++ rest) : processInlineBuffer c =
      match sdssplitargs l.bytes with
      | none => (c.protocolError .unbalancedQuotes 0, false)
      | some argv =>
        ({ c with
          querybuf := if l.cr then rest else rest.drop 1
          argv := argv.filter (· ≠ []) }, true) := by
  obtain ⟨w, htext, hw⟩ := l.text_eq
  have hbuf' : c.querybuf = w ++ 10 :: rest := by
    rw [hbuf, htext, append_assoc, singleton_append]
  have hnewline : strchr 10 c.querybuf = some w.length := by
    rw [hbuf']
    exact strchr_append_cons (hl.ne_text hw) rest
  have htake : c.querybuf.take l.bytes.length = l.bytes := by
    rw [hbuf, Line.text, append_assoc, take_left]
  have hdrop : c.querybuf.drop (l.bytes.length + 2) = if l.cr then rest else rest.drop 1 := by
    rw [hbuf, Line.text]
    cases l.cr <;> simp
  unfold processInlineBuffer
  rw [hnewline]
  dsimp only
  rw [hbuf', querylen_line hl rest hw, ← hbuf', htake, hdrop]

theorem processInlineBuffer_waits (hlen : c.querybuf.length ≤ inlineMaxSize) {more : Bytes}
    (hmore : more ≠ []) (hbuf : l.text = c.querybuf ++ more) :
    processInlineBuffer c = (c, false) := by
  obtain ⟨w, htext, hw⟩ := l.text_eq
  obtain ⟨more, b, rfl⟩ := eq_nil_or_concat more |>.resolve_left hmore
  rw [hbuf, concat_eq_append, ← append_assoc] at htext
  have hbufw := (append_inj' htext rfl).1
  have hnewline : strchr 10 c.querybuf = none := by
    apply strchr_eq_none
    intro b hb
    apply (hl.ne_text hw b _).1
    rw [← hbufw]
    exact mem_append_left _ hb
  unfold processInlineBuffer
  rw [hnewline]
  exact if_neg (not_lt.2 hlen)

end

/-! ## The loop over the lines -/

/-- The client stands behind the lines `done`, with the bytes `u` that follow them in its buffer. -/
structure Standing (done : List Line) (u : Bytes) (c : Client) : Prop where
  querybuf : c.querybuf = u
  inline : c.reqtype ≠ .multibulk
  notClosed : c.closeAfterReply = false
  executed : c.executed = requests done
  split : ∀ l ∈ done, sdssplitargs l.bytes ≠ none

structure Closed (lines : List Line) (c : Client) : Prop where
  closed : c.closeAfterReply = true
  executed : c.executed = requests lines

/-- The bytes `seen` of the stream have been processed: what is left is the beginning of a line. -/
def Processed (lines : List Line) (seen : Bytes) (c : Client) : Prop :=
  Closed lines c ∨ ∃ done ls u, lines = done ++ ls ∧ seen = text done ++ u ∧
    (∀ l ∈ ls.head?, u.length < l.text.length) ∧ Standing done u c

/-- Nothing follows a bare `\n` in the buffer. -/
def NewlineLast (ls : List Line) (u : Bytes) : Prop :=
  ∀ before l after rest, ls = before ++ l :: after → l.cr = false →
    u = text (before ++ [l]) ++ rest → rest = []

theorem text_cons (l : Line) (ls : List Line) : text (l :: ls) = l.text ++ text ls := rfl

theorem text_append (done ls : List Line) : text (done ++ ls) = text done ++ text ls :=
  flatMap_append

theorem vectors_append {done : List Line} (hsplit : ∀ l ∈ done, sdssplitargs l.bytes ≠ none)
    (ls : List Line) : vectors (done ++ ls) = vectors done ++ vectors ls := by
  induction done with
  | nil => rfl
  | cons l done ih =>
    obtain ⟨hl, hdone⟩ := forall_mem_cons.1 hsplit
    obtain ⟨argv, hargv⟩ := Option.ne_none_iff_exists'.1 hl
    rw [cons_append, vectors, vectors, hargv]
    exact congrArg _ (ih hdone)

theorem requests_append {done : List Line} (hsplit : ∀ l ∈ done, sdssplitargs l.bytes ≠ none)
    (ls : List Line) : requests (done ++ ls) = requests done ++ requests ls := by
  unfold requests
  rw [vectors_append hsplit, filter_append]

variable {l : Line} {u : Bytes}

theorem requests_singleton {argv : List Bytes} (h : sdssplitargs l.bytes = some argv) :
    requests [l] = [argv.filter (· ≠ [])].filter (· ≠ []) := by
  unfold requests vectors
  rw [h]
  rfl

theorem requests_cons_of_none (h : sdssplitargs l.bytes = none) (ls : List Line) :
    requests (l :: ls) = [] := by
  unfold requests vectors
  rw [h]
  rfl

theorem executeRequest_executed :
    (executeRequest c).executed = c.executed ++ [c.argv].filter (· ≠ []) := by
  unfold executeRequest
  by_cases h : c.argv = []
  · rw [if_pos h, filter_cons_of_neg (by simpa using h), filter_nil, append_nil]
    rfl
  · rw [if_neg h, filter_cons_of_pos (by simpa using h)]
    rfl

theorem executeRequest_frame : (executeRequest c).querybuf = c.querybuf ∧
    (executeRequest c).closeAfterReply = c.closeAfterReply ∧
    (executeRequest c).reqtype = .unknown := by
  unfold executeRequest
  split_ifs <;> exact ⟨rfl, rfl, rfl⟩

theorem determineType_inline {c : Client} (hinline : c.reqtype ≠ .multibulk)
    (hhead : c.querybuf.head? ≠ some 42) : determineType c = { c with reqtype := .inline } := by
  unfold determineType
  split_ifs with h
  · rfl
  · cases c with
    | mk _ reqtype => cases reqtype <;> simp_all

theorem processRequests_inline {c : Client} (hne : c.querybuf ≠ [])
    (hopen : c.closeAfterReply = false) (hinline : c.reqtype ≠ .multibulk)
    (hhead : c.querybuf.head? ≠ some 42) (fuel : ℕ) :
    processRequests processInlineBuffer (fuel + 1) c =
      let r := processInlineBuffer { c with reqtype := .inline }
      if r.2 then processRequests processInlineBuffer fuel (executeRequest r.1) else .ok r.1 := by
  rw [processRequests, if_neg hne, if_neg (by rw [hopen]; decide),
    determineType_inline hinline hhead]
  rfl

theorem NewlineLast.tail {ls : List Line} (h : NewlineLast (l :: ls) (l.text ++ u)) :
    NewlineLast ls u := by
  intro before l' after rest hls hcr hu
  apply h (l :: before) l' after rest (by rw [hls, cons_append]) hcr
  rw [hu, cons_append, text_cons, append_assoc]

/-- Behind a bare `\n` there is no byte to lose. -/
theorem NewlineLast.drop_eq {ls : List Line} (h : NewlineLast (l :: ls) (l.text ++ u)) :
    (if l.cr then u else u.drop 1) = u := by
  split_ifs with hcr
  · rfl
  · have hu : u = [] := by
      apply h [] l ls u rfl (Bool.eq_false_of_not_eq_true hcr)
      exact congrArg (· ++ u) (append_nil _).symm
    rw [hu]
    rfl

theorem ShortPart.drop {done ls : List Line} (h : ShortPart (done ++ ls) (text done ++ u)) :
    ShortPart ls u := by
  intro before l after part more hls hu
  apply h (done ++ before) l after part more (by rw [hls, append_assoc])
  rw [hu, text_append, append_assoc]

/-- A line of at most `REDIS_INLINE_MAX_SIZE + 1` bytes may be cut anywhere. -/
theorem shortPart_of_length {lines : List Line}
    (h : ∀ l ∈ lines, l.text.length ≤ inlineMaxSize + 1) (u : Bytes) : ShortPart lines u := by
  rintro before l after part more rfl - htext hmore
  have hlen := h l (mem_append_right _ mem_cons_self)
  have hpos := length_pos_iff.2 hmore
  rw [htext, length_append] at hlen
  omega

theorem part_or_line {future t : Bytes} (h : u ++ future = l.text ++ t) :
    (∃ more, more ≠ [] ∧ l.text = u ++ more) ∨ ∃ rest, u = l.text ++ rest ∧ rest ++ future = t := by
  rcases append_eq_append_iff.1 h with ⟨more, htext, hfuture⟩ | ⟨rest, hu, ht⟩
  · by_cases hmore : more = []
    · subst hmore
      rw [append_nil] at htext
      exact .inr ⟨[], by rw [htext, append_nil], hfuture⟩
    · exact .inl ⟨more, hmore, htext⟩
  · exact .inr ⟨rest, hu, ht.symm⟩

section

variable {lines done ls : List Line} {c : Client}

theorem Standing.line {l : Line} {rest : Bytes} {argv : List Bytes}
    (h : Standing done (l.text ++ rest) c) (hargv : sdssplitargs l.bytes = some argv) :
    Standing (done ++ [l]) rest (executeRequest
      { c with reqtype := .inline, querybuf := rest, argv := argv.filter (· ≠ []) }) := by
  obtain ⟨hbuf, hopen, htype⟩ := executeRequest_frame
    { c with reqtype := .inline, querybuf := rest, argv := argv.filter (· ≠ []) }
  refine ⟨hbuf, by rw [htype]; decide, hopen.trans h.notClosed, ?_, ?_⟩
  · rw [executeRequest_executed, requests_append h.split, requests_singleton hargv, ← h.executed]
  · intro l' hl'
    rcases mem_append.1 hl' with hl' | hl'
    · exact h.split l' hl'
    · rw [mem_singleton.1 hl', hargv]
      exact Option.some_ne_none _

theorem processRequests_lines (hlines : ∀ l ∈ ls, l.Inline) {u future : Bytes}
    (hpart : ShortPart ls u) (hstream : u ++ future = text ls) (hlast : NewlineLast ls u) (hc : Standing done u c)
    {fuel : ℕ} (hfuel : u.length < fuel) : ∃ c',
      processRequests processInlineBuffer fuel c = .ok c' ∧
        Processed (done ++ ls) (text done ++ u) c' := by
  induction ls generalizing done u c fuel with
  | nil =>
    obtain ⟨rfl, -⟩ := append_eq_nil_iff.1 hstream
    obtain ⟨fuel, rfl⟩ := Nat.exists_eq_succ_of_ne_zero (by omega : fuel ≠ 0)
    refine ⟨c, if_pos hc.querybuf, .inr ⟨done, [], [], rfl, rfl, by simp, hc⟩⟩
  | cons l ls ih =>
    obtain ⟨hl, hls⟩ := forall_mem_cons.1 hlines
    obtain ⟨fuel, rfl⟩ := Nat.exists_eq_succ_of_ne_zero (by omega : fuel ≠ 0)
    rw [text_cons] at hstream
    by_cases hu : u = []
    · subst hu
      refine ⟨c, if_pos hc.querybuf, .inr ⟨done, l :: ls, [], rfl, rfl, ?_, hc⟩⟩
      simpa using l.length_text_pos
    have hne : c.querybuf ≠ [] := by rwa [hc.querybuf]
    have hhead : c.querybuf.head? ≠ some 42 := by
      have := hl.head_text (text ls)
      rwa [← hstream, head?_append_of_ne_nil _ hu, ← hc.querybuf] at this
    rw [processRequests_inline hne hc.notClosed hc.inline hhead]
    rcases part_or_line hstream with ⟨more, hmore, htext⟩ | ⟨rest, rfl, hfuture⟩
    · have hbuf : l.text = ({ c with reqtype := .inline } : Client).querybuf ++ more := by
        rw [hc.querybuf, htext]
      have hlen : ({ c with reqtype := .inline } : Client).querybuf.length ≤ inlineMaxSize :=
        hc.querybuf ▸ hpart [] l ls u more rfl rfl htext hmore
      rw [processInlineBuffer_waits hl hlen hmore hbuf]
      refine ⟨_, rfl, .inr ⟨done, l :: ls, u, rfl, rfl, ?_, ?_⟩⟩
      · have hpos := length_pos_iff.2 hmore
        simp only [head?_cons, Option.mem_some_iff, forall_eq', htext, length_append]
        omega
      · exact ⟨hc.querybuf, by simp, hc.notClosed, hc.executed, hc.split⟩
    · have hbuf : ({ c with reqtype := .inline } : Client).querybuf = l.text ++ rest := hc.querybuf
      rw [processInlineBuffer_line hl hbuf]
      cases hargv : sdssplitargs l.bytes with
      | none =>
        refine ⟨_, rfl, .inl ⟨rfl, ?_⟩⟩
        rw [requests_append hc.split, requests_cons_of_none hargv, append_nil]
        exact hc.executed
      | some argv =>
        have hfuel' : rest.length < fuel := by
          have := l.length_text_pos
          rw [length_append] at hfuel
          omega
        have hpart' : ShortPart ls rest := by
          apply @ShortPart.drop rest [l] ls
          rwa [text, flatMap_singleton]
        obtain ⟨c', hrun, hc'⟩ := ih hls hpart' hfuture hlast.tail (hc.line hargv) hfuel'
        refine ⟨c', ?_, ?_⟩
        · rw [← hrun]
          simp only [hlast.drop_eq, if_true]
        · simpa [text] using hc'

end

/-! ## The stream in chunks -/

section

variable {lines : List Line} {chunks : List Bytes} {c : Client}

theorem Closed.feed (hc : Closed lines c) (chunk : Bytes) : ∃ c',
    feed c chunk = .ok c' ∧ Closed lines c' := by
  refine ⟨{ c with querybuf := c.querybuf ++ chunk }, ?_, hc.closed, hc.executed⟩
  unfold Networking.feed processInputBuffer processRequests
  split_ifs with hnil hclosed
  · rfl
  · rfl
  · exact absurd hc.closed hclosed

/-- A bare `\n` that has not been processed yet ends the chunk it arrives in. -/
theorem CutAtNewlines.newlineLast (hcuts : CutAtNewlines lines chunks) {done ls : List Line}
    (hlines : lines = done ++ ls) {u chunk : Bytes} {before after : List Bytes}
    (hchunks : chunks = before ++ chunk :: after) (hbefore : before.flatten = text done ++ u)
    (hu : ∀ l ∈ ls.head?, u.length < l.text.length) : NewlineLast ls (u ++ chunk) := by
  intro pre l post rest hls hcr hrest
  obtain ⟨k, hk⟩ := hcuts (done ++ pre) l post (by rw [hlines, hls, append_assoc]) hcr
  rw [append_assoc, text_append] at hk
  have hpart : u.length < (text (pre ++ [l])).length := by
    cases pre with
    | nil =>
      have := hu l (by rw [hls]; rfl)
      simpa [text] using this
    | cons l' pre =>
      have := hu l' (by rw [hls]; rfl)
      rw [cons_append, text_cons, length_append]
      omega
  -- the chunk is among the first `k`, for the end of the line was not there before it
  have hlt : before.length < k := by
    by_contra hge
    have hle : (chunks.take k).flatten.length ≤ before.flatten.length := by
      rw [hchunks, take_append_of_le_length (by omega)]
      exact ((take_sublist k before).flatten).length_le
    rw [hk, hbefore, length_append, length_append] at hle
    omega
  have hle : (text done ++ (u ++ chunk)).length ≤ (chunks.take k).flatten.length := by
    obtain ⟨n, rfl⟩ := Nat.exists_eq_add_of_lt hlt
    rw [hchunks, show before.length + n + 1 = before.length + (n + 1) by omega,
      take_length_add_append, take_succ_cons, flatten_append, flatten_cons,
      hbefore]
    simp only [length_append]
    omega
  rw [hk, hrest] at hle
  simp only [length_append] at hle
  exact length_eq_zero_iff.1 (by omega)

/-- Each chunk is processed as far as the lines in it are complete. -/
theorem foldlM_feed (hlines : ∀ l ∈ lines, l.Inline)
    (hparts : ∀ k, ShortPart lines (chunks.take k).flatten) (hstream : chunks.flatten = text lines)
    (hcuts : CutAtNewlines lines chunks) {before after : List Bytes}
    (hchunks : chunks = before ++ after) (hc : Processed lines before.flatten c) : ∃ c',
      after.foldlM feed c = .ok c' ∧ Processed lines chunks.flatten c' := by
  induction after generalizing before c with
  | nil =>
    rw [append_nil] at hchunks
    exact ⟨c, rfl, hchunks ▸ hc⟩
  | cons chunk after ih =>
    have hstep : ∃ c', feed c chunk = .ok c' ∧ Processed lines (before ++ [chunk]).flatten c' := by
      rcases hc with hc | ⟨done, ls, u, hls, hbefore, hu, hc⟩
      · obtain ⟨c', hfeed, hc'⟩ := hc.feed chunk
        exact ⟨c', hfeed, .inl hc'⟩
      · have hfuture : (u ++ chunk) ++ after.flatten = text ls := by
          rw [hchunks, hls, text_append, flatten_append, hbefore, append_assoc] at hstream
          rw [append_assoc]
          exact append_cancel_left hstream
        have hstanding : Standing done (u ++ chunk) { c with querybuf := c.querybuf ++ chunk } :=
          ⟨by rw [hc.querybuf], hc.inline, hc.notClosed, hc.executed, hc.split⟩
        rw [flatten_append, hbefore, hls]
        have hpart : ShortPart ls (u ++ chunk) := by
          have hpart := hparts (before.length + 1)
          rw [hchunks, take_length_add_append, take_succ_cons, take_zero, flatten_append, hbefore,
            flatten_singleton, append_assoc, hls] at hpart
          exact hpart.drop
        rw [hls] at hlines
        obtain ⟨c', hrun, hc'⟩ := processRequests_lines
          (fun l hl => hlines l (mem_append_right _ hl)) hpart hfuture
          (hcuts.newlineLast hls hchunks hbefore hu) hstanding (Nat.lt_succ_self _)
        refine ⟨c', ?_, by simpa using hc'⟩
        rw [← hrun, ← hc.querybuf]
        rfl
    obtain ⟨c', hfeed, hc'⟩ := hstep
    rw [foldlM_cons, hfeed]
    exact ih (by rw [hchunks, append_assoc, singleton_append]) hc'

theorem processed_createClient (lines : List Line) : Processed lines [] createClient := by
  refine .inr ⟨[], lines, [], rfl, rfl, ?_, rfl, by decide, rfl, rfl, by simp⟩
  intro l _
  exact l.length_text_pos

theorem Processed.executed (h : Processed lines (text lines) c) : c.executed = requests lines := by
  rcases h with hc | ⟨done, ls, u, rfl, hseen, hu, hc⟩
  · exact hc.executed
  · cases ls with
    | nil => rw [hc.executed, append_nil]
    | cons l ls =>
      have hlt := hu l rfl
      rw [text_append, text_cons] at hseen
      have := congrArg List.length (append_cancel_left hseen)
      rw [length_append] at this
      omega

end

/-- `PING`, with a bare `\n`. -/
def pingLine : Line := ⟨[80, 73, 78, 71], false⟩

/-- `GET k`, with `\r\n`. -/
def getLine : Line := ⟨[71, 69, 84, 32, 107], true⟩

theorem pingLine_inline : pingLine.Inline :=
  ⟨by simp [pingLine], by decide, by decide⟩

theorem getLine_inline : getLine.Inline :=
  ⟨by simp [getLine], by decide, by decide⟩

end ServerStack.Redis.Networking
