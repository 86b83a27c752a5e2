import ServerStack.Nginx.ChunkedScan

/-!
# Chunked bodies are decoded exactly

The grammar of a chunked body is stated over byte strings, with the sizes as exact numbers.  The
scanner accepts the bodies of the grammar; on a regular stream, the filters do what the scanner
does.
-/

namespace ServerStack.Nginx.Chunked

open Scan

open List

/-! ## The grammar -/

def hexValue (digits : Bytes) : ℕ :=
  digits.foldl (fun n ch => n * 16 + (hexDigit ch).getD 0) 0

def IsHex (digits : Bytes) : Prop := ∀ ch ∈ digits, (hexDigit ch).isSome

/-- `CRLF` or `LF`. -/
def IsEol (eol : Bytes) : Prop := eol = [13, 10] ∨ eol = [10]

def NoEol (text : Bytes) : Prop := 13 ∉ text ∧ 10 ∉ text

def Extension : Bytes → Prop
  | [] => True
  | ch :: text => (ch = 59 ∨ ch = 32 ∨ ch = 9) ∧ NoEol text

def SizeHead (head : Bytes) (size : ℕ) : Prop :=
  ∃ digits extension, head = digits ++ extension ∧ digits ≠ [] ∧ IsHex digits ∧
    hexValue digits = size ∧ Extension extension

def SizeLine (line : Bytes) (size : ℕ) : Prop :=
  ∃ head eol, line = head ++ eol ∧ SizeHead head size ∧ IsEol eol

inductive Chunks : Bytes → Bytes → Prop where
  | nil : Chunks [] []
  | snoc {text data line d eol : Bytes} : Chunks text data → SizeLine line d.length →
      0 < d.length → d.length < 2 ^ 63 → IsEol eol →
        Chunks (text ++ (line ++ (d ++ eol))) (data ++ d)

inductive TrailerLines : Bytes → Prop where
  | nil : TrailerLines []
  | snoc {lines text eol : Bytes} : TrailerLines lines → text ≠ [] → NoEol text → IsEol eol →
      TrailerLines (lines ++ (text ++ eol))

def ChunkedBody (body data : Bytes) : Prop :=
  ∃ chunks line lines eol, body = chunks ++ (line ++ (lines ++ eol)) ∧ Chunks chunks data ∧
    SizeLine line 0 ∧ TrailerLines lines ∧ IsEol eol

/-- Behind whole chunks come no digits for a size that five more do not fit in an `off_t` with, and
behind the data of a chunk comes a line end. -/
structure Regular (stream : Bytes) : Prop where
  size : ∀ chunks data digits rest, stream = chunks ++ (digits ++ rest) → Chunks chunks data →
    IsHex digits → hexValue digits + 5 < 2 ^ 63
  eol : ∀ chunks data line d ch rest, stream = chunks ++ (line ++ (d ++ ch :: rest)) →
    Chunks chunks data → SizeLine line d.length → 0 < d.length → d.length < 2 ^ 63 →
      ch = 13 ∨ ch = 10

/-! ## Bodies of the grammar are accepted -/

section

variable {limit : ℕ} {data : Bytes} {size : ℤ}

theorem hexValue_snoc (digits : Bytes) (ch : UInt8) :
    hexValue (digits ++ [ch]) = hexValue digits * 16 + (hexDigit ch).getD 0 := by
  unfold hexValue
  rw [foldl_append]
  rfl

theorem hexDigit_none {ch : UInt8} (h : ch = 13 ∨ ch = 10 ∨ ch = 59 ∨ ch = 32 ∨ ch = 9) :
    hexDigit ch = none := by
  rcases h with rfl | rfl | rfl | rfl | rfl <;> rfl

theorem scan_digits {digits : Bytes} (hne : digits ≠ []) (hhex : IsHex digits) :
    scan limit ⟨.chunkStart, size, data⟩ digits =
      .inside ⟨.chunkSize, hexValue digits, data⟩ := by
  induction digits using List.reverseRecOn with
  | nil => exact absurd rfl hne
  | append_singleton digits ch ih =>
    have hch : (hexDigit ch).isSome := hhex ch (by simp)
    obtain ⟨digit, hdigit⟩ := Option.isSome_iff_exists.1 hch
    rw [hexValue_snoc, hdigit]
    by_cases hempty : digits = []
    · subst hempty
      rw [nil_append, scan_next (t := ⟨.chunkSize, digit, data⟩)]
      · simp [scan, hexValue]
      · simp [feed, Scan.Junk, step, hdigit]
    · rw [scan_append_inside (ih hempty fun c hc => hhex c (by simp [hc])), scan_next
        (t := ⟨.chunkSize, hexValue digits * 16 + digit, data⟩)]
      · simp [scan]
      · simp [feed, Scan.Junk, step, hdigit]

theorem scan_text {state : ChunkedState} {text : Bytes}
    (hstate : state = .chunkExtension ∨ state = .lastChunkExtension ∨ state = .trailerHeader)
    (h : NoEol text) : scan limit ⟨state, size, data⟩ text = .inside ⟨state, size, data⟩ := by
  induction text with
  | nil => rfl
  | cons ch text ih =>
    have hcr : ch ≠ 13 := fun heq => h.1 (by simp [heq])
    have hlf : ch ≠ 10 := fun heq => h.2 (by simp [heq])
    rw [scan_next (t := ⟨state, size, data⟩)]
    · exact ih ⟨fun hmem => h.1 (mem_cons_of_mem _ hmem), fun hmem => h.2 (mem_cons_of_mem _ hmem)⟩
    · rcases hstate with rfl | rfl | rfl <;> simp [feed, Scan.Junk, step, lineEnd, hcr, hlf]

theorem scan_eol {eol : Bytes} (h : IsEol eol) {state cr lf : ChunkedState}
    (hend : ∀ ch, ch = 13 ∨ ch = 10 → ∃ other, step state size ch = lineEnd size ch cr lf other)
    (hcr : ∀ ch, step cr size ch = almostDone size ch lf) :
    scan limit ⟨state, size, data⟩ eol = .inside ⟨lf, size, data⟩ := by
  rcases h with rfl | rfl
  · obtain ⟨other, hother⟩ := hend 13 (.inl rfl)
    rw [scan_next (t := ⟨cr, size, data⟩), scan_next (t := ⟨lf, size, data⟩)]
    · rfl
    · simp [feed, Scan.Junk, hcr, almostDone]
    · simp [feed, Scan.Junk, hother, lineEnd]
  · obtain ⟨other, hother⟩ := hend 10 (.inr rfl)
    rw [scan_next (t := ⟨lf, size, data⟩)]
    · rfl
    · simp [feed, Scan.Junk, hother, lineEnd]

theorem scan_sizeLine {line : Bytes} {n : ℕ} (h : SizeLine line n) :
    scan limit ⟨.chunkStart, size, data⟩ line =
      .inside ⟨if n = 0 then .trailer else .chunkData, n, data⟩ := by
  obtain ⟨head, eol, rfl, ⟨digits, extension, rfl, hne, hhex, rfl, hext⟩, heol⟩ := h
  rw [append_assoc, scan_append_inside (scan_digits hne hhex)]
  cases extension with
  | nil =>
    by_cases hzero : hexValue digits = 0
    · rw [hzero]
      exact scan_eol heol (fun ch hch => ⟨_, by
        rw [step, hexDigit_none (by tauto)]
        exact if_pos rfl⟩) (fun ch => rfl)
    · rw [if_neg hzero]
      exact scan_eol heol (fun ch hch => ⟨_, by
        rw [step, hexDigit_none (by tauto)]
        exact if_neg (by exact_mod_cast hzero)⟩) (fun ch => rfl)
  | cons ch text =>
    obtain ⟨hch, htext⟩ := hext
    have hcr : ch ≠ 13 := by rcases hch with rfl | rfl | rfl <;> decide
    have hlf : ch ≠ 10 := by rcases hch with rfl | rfl | rfl <;> decide
    have hdigit : hexDigit ch = none := hexDigit_none (by tauto)
    by_cases hzero : hexValue digits = 0
    · rw [hzero, cons_append, scan_next (t := ⟨.lastChunkExtension, (0 : ℕ), data⟩)]
      · rw [scan_append_inside (scan_text (.inr (.inl rfl)) htext)]
        exact scan_eol heol (fun ch hch => ⟨_, rfl⟩) (fun ch => rfl)
      · simp [feed, Scan.Junk, step, hdigit, sizeEnd, lineEnd, hcr, hlf, hch]
    · rw [if_neg hzero, cons_append, scan_next (t := ⟨.chunkExtension, hexValue digits, data⟩)]
      · rw [scan_append_inside (scan_text (.inl rfl) htext)]
        exact scan_eol heol (fun ch hch => ⟨_, rfl⟩) (fun ch => rfl)
      · simp [feed, Scan.Junk, step, hdigit, sizeEnd, lineEnd, hcr, hlf, hch, hzero]

theorem scan_chunkData {line d : Bytes} (hline : SizeLine line d.length) (hd : 0 < d.length)
    (hlimit : limit = 0 ∨ (data ++ d).length ≤ limit) :
    scan limit ⟨.chunkStart, size, data⟩ (line ++ d) = .inside ⟨.afterData, 0, data ++ d⟩ := by
  have hfree : ¬ Scan.TooLarge limit ⟨.chunkData, d.length, data⟩ := by
    rintro ⟨hlimit', hlarge⟩
    rw [length_append] at hlimit
    dsimp only at hlarge
    omega
  have htake := @scan_takeAll limit ⟨.chunkData, d.length, data⟩ d rfl
    (length_pos_iff.1 hd) le_rfl []
  rw [if_neg hfree, append_nil] at htake
  rw [scan_append_inside (scan_sizeLine hline), if_neg hd.ne', htake]
  simp [scan, takeAll]

theorem scan_chunks {chunks : Bytes} (h : Chunks chunks data)
    (hlimit : limit = 0 ∨ data.length ≤ limit) :
    init.scan limit chunks = .inside ⟨.chunkStart, 0, data⟩ := by
  induction h with
  | nil => rfl
  | @snoc text data line d eol _ hline hd _ heol ih =>
    have hlimit' : limit = 0 ∨ data.length ≤ limit := by
      rw [length_append] at hlimit
      omega
    rw [scan_append_inside (ih hlimit'), ← append_assoc,
      scan_append_inside (scan_chunkData hline hd hlimit)]
    exact scan_eol heol (fun ch hch => ⟨_, rfl⟩) (fun ch => rfl)

theorem scan_trailerLines {lines : Bytes} (h : TrailerLines lines) :
    scan limit ⟨.trailer, size, data⟩ lines = .inside ⟨.trailer, size, data⟩ := by
  induction h with
  | nil => rfl
  | @snoc lines text eol _ hne htext heol ih =>
    rw [scan_append_inside ih]
    cases text with
    | nil => exact absurd rfl hne
    | cons ch text =>
      have hcr : ch ≠ 13 := fun heq => htext.1 (by simp [heq])
      have hlf : ch ≠ 10 := fun heq => htext.2 (by simp [heq])
      rw [cons_append, scan_next (t := ⟨.trailerHeader, size, data⟩)]
      · have htext' : NoEol text := ⟨fun hmem => htext.1 (mem_cons_of_mem _ hmem),
          fun hmem => htext.2 (mem_cons_of_mem _ hmem)⟩
        rw [scan_append_inside (scan_text (.inr (.inr rfl)) htext')]
        exact scan_eol heol (fun ch hch => ⟨_, rfl⟩) (fun ch => rfl)
      · simp [feed, Scan.Junk, step, hcr, hlf]

/-- Every body of the grammar is accepted. -/
theorem scan_chunkedBody {body : Bytes} (h : ChunkedBody body data)
    (hlimit : limit = 0 ∨ data.length ≤ limit) (left : Bytes) :
    init.scan limit (body ++ left) = .accepted data left := by
  obtain ⟨chunks, line, lines, eol, rfl, hchunks, hline, hlines, heol⟩ := h
  rw [append_assoc, scan_append_inside (scan_chunks hchunks hlimit), append_assoc,
    scan_append_inside (scan_sizeLine hline), append_assoc, if_pos rfl,
    scan_append_inside (scan_trailerLines hlines)]
  rcases heol with rfl | rfl <;> rfl

end

/-! ## What is accepted is in the grammar -/

section

variable {limit : ℕ} {p : Bytes} {s s' : Scan} {ch : UInt8}

section

variable (p : Bytes)

variable (s : Scan)

def InHead (rest : Bytes) : Prop :=
  ∃ chunks head n, p = chunks ++ (head ++ rest) ∧ Chunks chunks s.data ∧ SizeHead head n ∧ s.size = n

def InChunk (rest : Bytes) : Prop :=
  ∃ chunks data line d, p = chunks ++ (line ++ (d ++ rest)) ∧ Chunks chunks data ∧
    s.data = data ++ d ∧ SizeLine line d.length ∧ 0 < d.length ∧ d.length < 2 ^ 63 ∧ s.size = 0

def InTrailer (rest : Bytes) : Prop :=
  ∃ chunks line lines, p = chunks ++ (line ++ (lines ++ rest)) ∧ Chunks chunks s.data ∧
    SizeLine line 0 ∧ TrailerLines lines ∧ s.size = 0

def InExtension : Prop :=
  ∃ chunks digits e text, p = chunks ++ (digits ++ e :: text) ∧ Chunks chunks s.data ∧
    digits ≠ [] ∧ IsHex digits ∧ s.size = hexValue digits ∧ (e = 59 ∨ e = 32 ∨ e = 9) ∧ NoEol text

def At : Prop :=
  match s.state with
  | .chunkStart => Chunks p s.data ∧ s.size = 0
  | .chunkSize => ∃ chunks digits, p = chunks ++ digits ∧ Chunks chunks s.data ∧ digits ≠ [] ∧
      IsHex digits ∧ s.size = hexValue digits
  | .chunkExtension => InExtension p s ∧ s.size ≠ 0
  | .chunkExtensionAlmostDone => InHead p s [13] ∧ s.size ≠ 0
  | .chunkData => ∃ chunks data line d n, p = chunks ++ (line ++ d) ∧ Chunks chunks data ∧
      s.data = data ++ d ∧ SizeLine line (d.length + n) ∧ d.length + n < 2 ^ 63 ∧ s.size = n ∧
      n ≠ 0
  | .afterData => InChunk p s []
  | .afterDataAlmostDone => InChunk p s [13]
  | .lastChunkExtension => InExtension p s ∧ s.size = 0
  | .lastChunkExtensionAlmostDone => InHead p s [13] ∧ s.size = 0
  | .trailer => InTrailer p s []
  | .trailerAlmostDone => InTrailer p s [13]
  | .trailerHeader => ∃ text, text ≠ [] ∧ NoEol text ∧ InTrailer p s text
  | .trailerHeaderAlmostDone => ∃ text, text ≠ [] ∧ NoEol text ∧ InTrailer p s (text ++ [13])

end

theorem NoEol.snoc {text : Bytes} (h : NoEol text) (hcr : ch ≠ 13) (hlf : ch ≠ 10) :
    NoEol (text ++ [ch]) := by
  constructor
  · rw [mem_append, mem_singleton]
    exact fun hmem => hmem.elim h.1 fun heq => hcr heq.symm
  · rw [mem_append, mem_singleton]
    exact fun hmem => hmem.elim h.2 fun heq => hlf heq.symm

theorem IsHex.snoc {digits : Bytes} (h : IsHex digits) {digit : ℕ} (hch : hexDigit ch = some digit) :
    IsHex (digits ++ [ch]) := by
  intro c hc
  rcases mem_append.1 hc with hc | hc
  · exact h c hc
  · rw [mem_singleton.1 hc, hch]
    rfl

theorem InExtension.inHead (h : InExtension p s) : InHead p s [] := by
  obtain ⟨chunks, digits, e, text, rfl, hchunks, hne, hhex, hsize, he, htext⟩ := h
  exact ⟨chunks, digits ++ e :: text, _, by rw [append_nil], hchunks,
    ⟨digits, e :: text, rfl, hne, hhex, rfl, he, htext⟩, hsize⟩

theorem InExtension.snoc (h : InExtension p s) (hcr : ch ≠ 13) (hlf : ch ≠ 10) :
    InExtension (p ++ [ch]) s := by
  obtain ⟨chunks, digits, e, text, rfl, hchunks, hne, hhex, hsize, he, htext⟩ := h
  exact ⟨chunks, digits, e, text ++ [ch], by simp, hchunks, hne, hhex, hsize, he, htext.snoc hcr hlf⟩

variable {rest : Bytes}

theorem InHead.snoc (h : InHead p s rest) (ch : UInt8) : InHead (p ++ [ch]) s (rest ++ [ch]) := by
  obtain ⟨chunks, head, n, rfl, hchunks⟩ := h
  exact ⟨chunks, head, n, by simp, hchunks⟩

theorem InHead.eol {eol : Bytes} (h : InHead p s eol) (heol : IsEol eol) (hbound : s.size + 5 < 2 ^ 63)
    {state : ChunkedState} (hstate : state = if s.size = 0 then .trailer else .chunkData) :
    At p ⟨state, s.size, s.data⟩ := by
  obtain ⟨chunks, head, n, rfl, hchunks, hhead, hsize⟩ := h
  have hline : SizeLine (head ++ eol) n := ⟨head, eol, rfl, hhead, heol⟩
  by_cases hzero : s.size = 0
  · rw [if_pos hzero] at hstate
    subst hstate
    obtain rfl : n = 0 := by omega
    exact ⟨chunks, head ++ eol, [], by simp, hchunks, hline, .nil, hzero⟩
  · rw [if_neg hzero] at hstate
    subst hstate
    refine ⟨chunks, s.data, head ++ eol, [], n, by simp, hchunks, (append_nil _).symm, ?_, ?_,
      hsize, by omega⟩
    · rw [length_nil, Nat.zero_add]
      exact hline
    · rw [length_nil]
      omega

theorem InChunk.eol {eol : Bytes} (h : InChunk p s eol) (heol : IsEol eol) :
    At p ⟨.chunkStart, s.size, s.data⟩ := by
  obtain ⟨chunks, data, line, d, rfl, hchunks, hdata, hline, hd, hlt, hsize⟩ := h
  refine ⟨?_, hsize⟩
  rw [hdata]
  exact .snoc hchunks hline hd hlt heol

theorem InTrailer.eol {text eol : Bytes} (h : InTrailer p s (text ++ eol)) (hne : text ≠ [])
    (htext : NoEol text) (heol : IsEol eol) : At p ⟨.trailer, s.size, s.data⟩ := by
  obtain ⟨chunks, line, lines, rfl, hchunks, hline, hlines, hsize⟩ := h
  exact ⟨chunks, line, lines ++ (text ++ eol), by simp, hchunks, hline, .snoc hlines hne htext heol,
    hsize⟩

theorem InTrailer.snoc (h : InTrailer p s rest) (ch : UInt8) :
    InTrailer (p ++ [ch]) s (rest ++ [ch]) := by
  obtain ⟨chunks, line, lines, rfl, hchunks⟩ := h
  exact ⟨chunks, line, lines, by simp, hchunks⟩

theorem InChunk.snoc (h : InChunk p s rest) (ch : UInt8) :
    InChunk (p ++ [ch]) s (rest ++ [ch]) := by
  obtain ⟨chunks, data, line, d, rfl, hchunks⟩ := h
  exact ⟨chunks, data, line, d, by simp, hchunks⟩

theorem InTrailer.body {eol : Bytes} (h : InTrailer p s eol) (heol : IsEol eol) :
    ChunkedBody p s.data := by
  obtain ⟨chunks, line, lines, rfl, hchunks, hline, hlines, -⟩ := h
  exact ⟨chunks, line, lines, eol, rfl, hchunks, hline, hlines, heol⟩

theorem At.take (h : At p s) (hstate : s.state = .chunkData) (ch : UInt8) :
    At (p ++ [ch]) (s.take ch) := by
  unfold At at h
  rw [hstate] at h
  obtain ⟨chunks, data, line, d, n, rfl, hchunks, hdata, hline, hlt, hsize, hn⟩ := h
  have hlength : (d ++ [ch]).length = d.length + 1 := by simp
  unfold Scan.take
  by_cases hone : s.size = 1
  · rw [if_pos hone]
    obtain rfl : n = 1 := by omega
    refine ⟨chunks, data, line, d ++ [ch], by simp, hchunks, ?_, ?_, ?_, ?_, ?_⟩
    · rw [hdata, append_assoc]
    · rw [hlength]
      exact hline
    · omega
    · omega
    · dsimp only
      omega
  · rw [if_neg hone]
    refine ⟨chunks, data, line, d ++ [ch], n - 1, by simp, hchunks, ?_, ?_, ?_, ?_, ?_⟩
    · rw [hdata, append_assoc]
    · rw [hlength, show d.length + 1 + (n - 1) = d.length + n by omega]
      exact hline
    · omega
    · dsimp only
      omega
    · omega

theorem InHead.lineEnd (h : InHead p s []) (hbound : s.size + 5 < 2 ^ 63) (hch : ch = 13 ∨ ch = 10) :
    At (p ++ [ch]) ⟨if ch = 13 then
      if s.size = 0 then .lastChunkExtensionAlmostDone else .chunkExtensionAlmostDone
      else if s.size = 0 then .trailer else .chunkData, s.size, s.data⟩ := by
  rcases hch with rfl | rfl
  · by_cases hzero : s.size = 0
    · rw [if_pos hzero]
      exact ⟨h.snoc 13, hzero⟩
    · rw [if_neg hzero]
      exact ⟨h.snoc 13, hzero⟩
  · exact (h.snoc 10).eol (.inr rfl) hbound rfl

theorem At.step {state : ChunkedState} {size : ℤ} (h : At p s) (hbound : s.size + 5 < 2 ^ 63)
    (hjunk : ¬ s.Junk ch) (hstep : step s.state s.size ch = .next state size) :
    At (p ++ [ch]) ⟨state, size, s.data⟩ := by
  obtain ⟨st, n, data⟩ := s
  cases st <;> dsimp only [At] at h hbound hstep ⊢
  case chunkStart =>
    simp only [Chunked.step] at hstep
    split at hstep
    · rename_i digit hdigit
      injection hstep with hstate hsize
      subst hstate hsize
      have hhex : IsHex ([] ++ [ch]) := IsHex.snoc (fun c hc => absurd hc not_mem_nil) hdigit
      refine ⟨p, [ch], rfl, h.1, cons_ne_nil _ _, hhex, ?_⟩
      simp [hexValue, hdigit]
    · cases hstep
  case chunkSize =>
    obtain ⟨chunks, digits, rfl, hchunks, hne, hhex, hn⟩ := h
    simp only [Chunked.step] at hstep
    split at hstep
    · rename_i digit hdigit
      injection hstep with hstate hsize
      subst hstate hsize
      refine ⟨chunks, digits ++ [ch], by simp, hchunks, by simp, hhex.snoc hdigit, ?_⟩
      rw [hexValue_snoc, hdigit]
      simp [hn]
    · have hhead : InHead (chunks ++ digits) ⟨.chunkSize, n, data⟩ [] :=
        ⟨chunks, digits, _, by rw [append_nil], hchunks,
          ⟨digits, [], (append_nil _).symm, hne, hhex, rfl, trivial⟩, hn⟩
      have hext : ch = 59 ∨ ch = 32 ∨ ch = 9 → ∀ state,
          InExtension (chunks ++ digits ++ [ch]) ⟨state, n, data⟩ := fun hch _ =>
        ⟨chunks, digits, ch, [], by simp, hchunks, hne, hhex, hn, hch, by simp [NoEol]⟩
      split_ifs at hstep with hzero
      · obtain ⟨rfl, ⟨rfl, rfl⟩ | ⟨rfl, rfl⟩ | ⟨hch, rfl⟩⟩ := sizeEnd_next hstep
        · have := hhead.lineEnd hbound (.inl rfl)
          rwa [if_pos hzero] at this
        · have := hhead.lineEnd hbound (.inr rfl)
          rwa [if_neg (by decide), if_pos hzero] at this
        · exact ⟨hext hch _, hzero⟩
      · obtain ⟨rfl, ⟨rfl, rfl⟩ | ⟨rfl, rfl⟩ | ⟨hch, rfl⟩⟩ := sizeEnd_next hstep
        · have := hhead.lineEnd hbound (.inl rfl)
          rwa [if_neg hzero] at this
        · have := hhead.lineEnd hbound (.inr rfl)
          rwa [if_neg (by decide), if_neg hzero] at this
        · exact ⟨hext hch _, hzero⟩
  case chunkExtension | lastChunkExtension =>
    rcases lineEnd_next hstep with ⟨rfl, rfl, rfl⟩ | ⟨rfl, rfl, rfl⟩ | ⟨hcr, hlf, he⟩
    · exact ⟨h.1.inHead.snoc 13, h.2⟩
    · first
        | exact (h.1.inHead.snoc 10).eol (.inr rfl) hbound (if_neg h.2).symm
        | exact (h.1.inHead.snoc 10).eol (.inr rfl) hbound (if_pos h.2).symm
    · injection he with hstate hsize
      subst hstate hsize
      exact ⟨h.1.snoc hcr hlf, h.2⟩
  case chunkExtensionAlmostDone | lastChunkExtensionAlmostDone =>
    obtain ⟨rfl, rfl, rfl⟩ := almostDone_next hstep
    first
      | exact (h.1.snoc 10).eol (.inl rfl) hbound (if_neg h.2).symm
      | exact (h.1.snoc 10).eol (.inl rfl) hbound (if_pos h.2).symm
  case chunkData => cases hstep
  case afterData =>
    rcases lineEnd_next hstep with ⟨rfl, rfl, rfl⟩ | ⟨rfl, rfl, rfl⟩ | ⟨hcr, hlf, -⟩
    · exact h.snoc 13
    · exact (h.snoc 10).eol (.inr rfl)
    · exact absurd ⟨rfl, hcr, hlf⟩ hjunk
  case afterDataAlmostDone =>
    obtain ⟨rfl, rfl, rfl⟩ := almostDone_next hstep
    exact (h.snoc 10).eol (.inl rfl)
  case trailer =>
    simp only [Chunked.step] at hstep
    split_ifs at hstep with hcr hlf
    · injection hstep with hstate hsize
      subst hstate hsize hcr
      exact h.snoc 13
    · injection hstep with hstate hsize
      subst hstate hsize
      exact ⟨[ch], cons_ne_nil _ _, NoEol.snoc ⟨not_mem_nil, not_mem_nil⟩ hcr hlf, h.snoc ch⟩
  case trailerAlmostDone =>
    simp only [Chunked.step] at hstep
    split_ifs at hstep
  case trailerHeader =>
    obtain ⟨text, hne, htext, h⟩ := h
    rcases lineEnd_next hstep with ⟨rfl, rfl, rfl⟩ | ⟨rfl, rfl, rfl⟩ | ⟨hcr, hlf, he⟩
    · exact ⟨text, hne, htext, h.snoc 13⟩
    · exact (h.snoc 10).eol hne htext (.inr rfl)
    · injection he with hstate hsize
      subst hstate hsize
      exact ⟨text ++ [ch], by simp, htext.snoc hcr hlf, h.snoc ch⟩
  case trailerHeaderAlmostDone =>
    obtain ⟨text, hne, htext, h⟩ := h
    obtain ⟨rfl, rfl, rfl⟩ := almostDone_next hstep
    have hsnoc := h.snoc 10
    rw [append_assoc] at hsnoc
    exact hsnoc.eol hne htext (.inl rfl)

theorem At.feed (h : At p s) (hbound : s.size + 5 < 2 ^ 63) (hfeed : s.feed limit ch = .next s') :
    At (p ++ [ch]) s' := by
  rcases feed_next hfeed with ⟨hjunk, state, size, hstep, rfl⟩ | ⟨hstate, -, rfl⟩
  · exact h.step hbound hjunk hstep
  · exact h.take hstate ch

theorem At.body (h : At p s) (hfeed : s.feed limit ch = .done) : ChunkedBody (p ++ [ch]) s.data := by
  obtain ⟨-, hdone⟩ := feed_done hfeed
  unfold At at h
  rcases step_done hdone with hstate | hstate <;> rw [hstate] at h hdone <;>
    simp only [Chunked.step] at hdone
  · split_ifs at hdone with _ hlf
    subst hlf
    exact (h.snoc 10).body (.inr rfl)
  · split_ifs at hdone with hlf
    subst hlf
    exact (h.snoc 10).body (.inl rfl)

theorem Regular.sizeHead {stream chunks data head rest : Bytes} {n : ℕ} (h : Regular stream)
    (hstream : stream = chunks ++ (head ++ rest)) (hchunks : Chunks chunks data)
    (hhead : SizeHead head n) : n + 5 < 2 ^ 63 := by
  obtain ⟨digits, extension, rfl, -, hhex, rfl, -⟩ := hhead
  rw [append_assoc] at hstream
  exact h.size chunks data digits _ hstream hchunks hhex

variable {stream : Bytes}

theorem Regular.bound (h : Regular stream) (hstream : stream = p ++ rest)
    (hat : At p s) : s.size + 5 < 2 ^ 63 := by
  have hzero : s.size = 0 → s.size + 5 < 2 ^ 63 := by omega
  have hhead : ∀ r, InHead p s r → s.size + 5 < 2 ^ 63 := by
    rintro r ⟨chunks, head, n, rfl, hchunks, hn, hsize⟩
    have := @Regular.sizeHead stream chunks s.data head (r ++ rest) n h (by rw [hstream]; simp)
      hchunks hn
    omega
  have htrailer : ∀ r, InTrailer p s r → s.size + 5 < 2 ^ 63 := fun r ht => by
    obtain ⟨chunks, line, lines, -, -, -, -, hsize⟩ := ht
    exact hzero hsize
  have hchunk : ∀ r, InChunk p s r → s.size + 5 < 2 ^ 63 := fun r hc => by
    obtain ⟨chunks, data, line, d, -, -, -, -, -, -, hsize⟩ := hc
    exact hzero hsize
  unfold At at hat
  cases hstate : s.state <;> rw [hstate] at hat
  case chunkStart => exact hzero hat.2
  case chunkSize =>
    obtain ⟨chunks, digits, rfl, hchunks, -, hhex, hsize⟩ := hat
    have := h.size chunks _ digits rest (by rw [hstream, append_assoc]) hchunks hhex
    omega
  case chunkExtension => exact hhead _ hat.1.inHead
  case chunkExtensionAlmostDone => exact hhead _ hat.1
  case chunkData =>
    obtain ⟨chunks, data, line, d, n, rfl, hchunks, -, ⟨head, eol, rfl, hhead', -⟩, -, hsize, -⟩ :=
      hat
    have := @Regular.sizeHead stream chunks data head (eol ++ (d ++ rest)) _ h
      (by rw [hstream]; simp) hchunks hhead'
    omega
  case afterData | afterDataAlmostDone => exact hchunk _ hat
  case lastChunkExtension => exact hzero hat.2
  case lastChunkExtensionAlmostDone => exact hzero hat.2
  case trailer | trailerAlmostDone => exact htrailer _ hat
  case trailerHeader | trailerHeaderAlmostDone =>
    obtain ⟨text, -, -, hat⟩ := hat
    exact htrailer _ hat

theorem Regular.scan {q rest : Bytes} (h : Regular stream) (hat : At p s)
    (hstream : stream = p ++ (q ++ rest)) (hscan : s.scan limit q = .inside s') :
    At (p ++ q) s' := by
  induction q generalizing p s with
  | nil =>
    injection hscan with hs
    rw [append_nil, ← hs]
    exact hat
  | cons ch q ih =>
    rw [scan] at hscan
    cases hfeed : s.feed limit ch with
    | next s₁ =>
      rw [hfeed] at hscan
      have := ih (hat.feed (h.bound hstream hat) hfeed) (by rw [hstream]; simp) hscan
      rwa [append_assoc] at this
    | done | rejected rc =>
      rw [hfeed] at hscan
      cases hscan

theorem at_init : At [] init := ⟨.nil, rfl⟩

theorem Regular.fits (h : Regular stream) : Fits limit init stream := by
  rintro q rest s' rfl hscan
  have hat : At q s' := h.scan at_init rfl hscan
  refine ⟨h.bound rfl hat, fun hstate ch hch => ?_⟩
  unfold At at hat
  rw [hstate] at hat
  obtain ⟨chunks, data, line, d, rfl, hchunks, -, hline, hd, hlt, -⟩ := hat
  cases rest with
  | nil => exact absurd hch (by simp)
  | cons c rest =>
    obtain rfl : c = ch := by simpa using hch
    exact h.eol chunks data line d c rest (by simp) hchunks hline hd hlt

theorem Fits.regular (h : Fits 0 init stream) : Regular stream where
  size chunks data digits rest hstream hchunks hhex := by
    by_cases hempty : digits = []
    · subst hempty
      norm_num [hexValue]
    · have hscan := scan_append_inside (@scan_chunks 0 data chunks hchunks (.inl rfl)) digits
      rw [scan_digits hempty hhex] at hscan
      have := (h (chunks ++ digits) rest _ (by rw [hstream, append_assoc]) hscan).1
      dsimp only at this
      omega
  eol chunks data line d ch rest hstream hchunks hline hd _ := by
    have hscan := scan_append_inside (@scan_chunks 0 data chunks hchunks (.inl rfl)) (line ++ d)
    rw [scan_chunkData hline hd (.inl rfl)] at hscan
    exact (h (chunks ++ (line ++ d)) (ch :: rest) _ (by rw [hstream]; simp) hscan).2 rfl ch rfl

end

/-! ## Exactness -/

variable {limit : ℕ} {s s' : Scan} {ch : UInt8}

def Within (limit : ℕ) (s : Scan) : Prop := limit = 0 ∨ s.data.length ≤ limit

theorem Within.feed (h : Within limit s) (hok : SizeOk s.state s.size)
    (hfeed : s.feed limit ch = .next s') : Within limit s' := by
  rcases feed_next hfeed with ⟨-, state, size, hstep, rfl⟩ | ⟨hstate, hlarge, rfl⟩
  · exact h
  · have hpos := hok.2 (.inr (.inr hstate))
    unfold Within Scan.TooLarge Scan.take at *
    simp only [length_append, length_singleton]
    omega

variable {stream : Bytes}

theorem Within.scan (h : Within limit s) (hok : SizeOk s.state s.size)
    (hscan : s.scan limit stream = .inside s') : Within limit s' := by
  induction stream generalizing s with
  | nil =>
    injection hscan with hs
    exact hs ▸ h
  | cons ch stream ih =>
    rw [scan] at hscan
    cases hfeed : s.feed limit ch with
    | next s₁ =>
      rw [hfeed] at hscan
      exact ih (h.feed hok hfeed) (hok.feed hfeed) hscan
    | done =>
      rw [hfeed] at hscan
      cases hscan
    | rejected rc =>
      rw [hfeed] at hscan
      cases hscan

/-- The scanner accepts the bodies of the grammar. -/
theorem scan_accepted_iff {data left : Bytes} (h : Regular stream) :
    init.scan limit stream = .accepted data left ↔
      ∃ body, stream = body ++ left ∧ ChunkedBody body data ∧ (limit = 0 ∨ data.length ≤ limit) := by
  constructor
  · intro hscan
    obtain ⟨p, s, ch, rfl, hp, hfeed, rfl⟩ := scan_accepted hscan
    have hat : At p s := h.scan at_init rfl hp
    refine ⟨p ++ [ch], by simp, hat.body hfeed, ?_⟩
    exact Within.scan (.inr (Nat.zero_le _)) ⟨le_rfl, by simp [Sized, init]⟩ hp
  · rintro ⟨body, rfl, hbody, hlimit⟩
    exact scan_chunkedBody hbody hlimit left

theorem reads_init : Reads RequestBody.init.start [] init :=
  ⟨rfl, rfl, rfl, rfl, le_rfl, by simp [Sized, init]⟩

theorem readChunkedBody_eq {bufs : List Bytes} (h : Regular bufs.flatten) :
    readChunkedBody limit bufs = some (init.scan limit bufs.flatten).bodyEnd :=
  read_eq_scan reads_init h.fits

theorem discardChunkedBody_eq {bufs : List Bytes} (h : Regular bufs.flatten) :
    discardChunkedBody bufs = some (withoutData (init.scan 0 bufs.flatten).bodyEnd) := by
  have hread : discardChunkedBody bufs = (readChunkedBody 0 bufs).map withoutData :=
    discard_read_eq rfl
  rw [hread, readChunkedBody_eq h]
  rfl

theorem bodyEnd_eq_accepted {e : ScanEnd} {data left : Bytes} :
    e.bodyEnd = .accepted data left ↔ e = .accepted data left := by
  cases e <;> simp [ScanEnd.bodyEnd]

def FitsAt (stream : Bytes) (i : ℕ) : ScanEnd → Prop
  | .inside s => s.size + 5 < 2 ^ 63 ∧
      (s.state = .afterData → ∀ ch ∈ (stream.drop i).head?, ch = 13 ∨ ch = 10)
  | _ => True

instance (stream : Bytes) (i : ℕ) : ∀ e, Decidable (FitsAt stream i e)
  | .inside _ => inferInstanceAs (Decidable (_ ∧ _))
  | .accepted _ _ | .rejected _ => .isTrue trivial

theorem regular_iff : Regular stream ↔
    ∀ i < stream.length + 1, FitsAt stream i (init.scan 0 (stream.take i)) := by
  constructor
  · intro h i _
    cases hscan : init.scan 0 (stream.take i) with
    | inside s => exact h.fits _ _ s (take_append_drop i stream).symm hscan
    | accepted data left => trivial
    | rejected rc => trivial
  · refine fun h => Fits.regular ?_
    rintro p rest s rfl hscan
    have := h p.length (by simp)
    rw [take_left, hscan] at this
    simpa [FitsAt] using this

instance (stream : Bytes) : Decidable (Regular stream) := decidable_of_iff _ regular_iff.symm

/-- On a regular stream a body is accepted by the filters exactly if the stream begins with a chunked
body; what is delivered are its data, what is consumed is that body, and the cut into buffers does not
matter. -/
theorem chunkedBody_exact (clientMaxBodySize : ℕ) (bufs : List Bytes) (h : Regular bufs.flatten) :
    (∀ data left, readChunkedBody clientMaxBodySize bufs = some (.accepted data left) ↔
      ∃ body, bufs.flatten = body ++ left ∧ ChunkedBody body data ∧
        (clientMaxBodySize = 0 ∨ data.length ≤ clientMaxBodySize)) ∧
    (∀ left, discardChunkedBody bufs = some (.accepted [] left) ↔
      ∃ body data, bufs.flatten = body ++ left ∧ ChunkedBody body data) ∧
    ∀ bufs' : List Bytes, bufs'.flatten = bufs.flatten →
      readChunkedBody clientMaxBodySize bufs' = readChunkedBody clientMaxBodySize bufs ∧
        discardChunkedBody bufs' = discardChunkedBody bufs := by
  refine ⟨fun data left => ?_, fun left => ?_, fun bufs' hcut => ⟨?_, ?_⟩⟩
  · rw [readChunkedBody_eq h, Option.some_inj, bodyEnd_eq_accepted]
    exact scan_accepted_iff h
  · rw [discardChunkedBody_eq h, Option.some_inj]
    constructor
    · intro hend
      cases hscan : init.scan 0 bufs.flatten with
      | accepted data left' =>
        rw [hscan] at hend
        injection hend with _ hleft
        subst hleft
        obtain ⟨body, hstream, hbody, -⟩ := (scan_accepted_iff h).1 hscan
        exact ⟨body, data, hstream, hbody⟩
      | inside s | rejected rc =>
        rw [hscan] at hend
        cases hend
    · rintro ⟨body, data, hstream, hbody⟩
      rw [(scan_accepted_iff h).2 ⟨body, hstream, hbody, .inl rfl⟩]
      rfl
  · rw [readChunkedBody_eq h, readChunkedBody_eq (hcut ▸ h), hcut]
  · rw [discardChunkedBody_eq h, discardChunkedBody_eq (hcut ▸ h), hcut]

/-- `5 CRLF hello CRLF 0 CRLF CRLF`, cut within the data, and a byte of the next request. -/
theorem chunkedBody_exact_hello :
    Regular [[53, 13, 10, 104, 101], [108, 108, 111, 13, 10, 48, 13], [10, 13, 10, 71]].flatten ∧
      readChunkedBody 5 [[53, 13, 10, 104, 101, 108, 108, 111, 13, 10, 48, 13, 10, 13, 10, 71]] =
        readChunkedBody 5
          [[53, 13, 10, 104, 101], [108, 108, 111, 13, 10, 48, 13], [10, 13, 10, 71]] := by
  have hregular : Regular
      [[53, 13, 10, 104, 101], [108, 108, 111, 13, 10, 48, 13], [10, 13, 10, 71]].flatten := by
    decide +kernel
  exact ⟨hregular, ((chunkedBody_exact 5 _ hregular).2.2 _ (by decide)).1⟩

/-- The line `80000000000000001` is taken for a size of 1, but not if a buffer ends before its last
digit; and `1 CRLF aX CRLF 0 CRLF CRLF` is accepted. -/
theorem chunkedBody_irregular :
    (readChunkedBody 0 [[56, 48, 48, 48, 48, 48, 48, 48, 48, 48, 48, 48, 48, 48, 48, 48, 49, 10, 97,
        10, 48, 10, 10]] = some (.accepted [97] []) ∧
      readChunkedBody 0 [[56, 48, 48, 48, 48, 48, 48, 48, 48, 48, 48, 48, 48, 48, 48, 48],
        [49, 10, 97, 10, 48, 10, 10]] = some (.rejected .badRequest)) ∧
    readChunkedBody 0 [[49, 13, 10, 97, 88, 13, 10, 48, 13, 10, 13, 10]] =
        some (.accepted [97] []) ∧
      ∀ data, ¬ ChunkedBody [49, 13, 10, 97, 88, 13, 10, 48, 13, 10, 13, 10] data := by
  refine ⟨by decide +kernel, by decide +kernel, fun data hbody => ?_⟩
  have hscan := @scan_chunkedBody 0 data _ hbody (.inl rfl) []
  have hrejected : init.scan 0 [49, 13, 10, 97, 88, 13, 10, 48, 13, 10, 13, 10] =
      .rejected .badRequest := by decide +kernel
  cases hscan

end ServerStack.Nginx.Chunked
