import ServerStack.Nginx.Chunked

/-!
# Chunked bodies byte by byte

A scanner takes one byte of a body at a time, data or not, and keeps exact sizes; a cut into buffers is
no part of it.  Where the sizes fit in an `off_t`, both filters do what the scanner does.
-/

namespace ServerStack.Nginx.Chunked

open List

/-! ## The scanner -/

structure Scan where
  state : ChunkedState
  size : ℤ
  data : Bytes
  deriving DecidableEq, Repr

inductive Feed where
  | next (s : Scan)
  | done
  | rejected (rc : FilterRc)
  deriving DecidableEq, Repr

inductive ScanEnd where
  | inside (s : Scan)
  | accepted (data left : Bytes)
  | rejected (rc : FilterRc)
  deriving DecidableEq, Repr

namespace Scan

def take (s : Scan) (ch : UInt8) : Scan :=
  ⟨if s.size = 1 then .afterData else .chunkData, s.size - 1, s.data ++ [ch]⟩

def TooLarge (limit : ℕ) (s : Scan) : Prop := limit ≠ 0 ∧ limit - (s.data.length : ℤ) < s.size

instance (limit : ℕ) (s : Scan) : Decidable (TooLarge limit s) :=
  inferInstanceAs (Decidable (_ ∧ _))

def Junk (s : Scan) (ch : UInt8) : Prop := s.state = .afterData ∧ ch ≠ 13 ∧ ch ≠ 10

instance (s : Scan) (ch : UInt8) : Decidable (Junk s ch) := inferInstanceAs (Decidable (_ ∧ _))

/-- One byte; sizes do not wrap, and a line end must follow the data of a chunk. -/
def feed (limit : ℕ) (s : Scan) (ch : UInt8) : Feed :=
  if Junk s ch then .rejected .badRequest
  else
    match step s.state s.size ch with
    | .next state size => .next ⟨state, size, s.data⟩
    | .data => if TooLarge limit s then .rejected .requestEntityTooLarge else .next (s.take ch)
    | .done => .done
    | .invalid => .rejected .badRequest

def scan (limit : ℕ) : Scan → Bytes → ScanEnd
  | s, [] => .inside s
  | s, ch :: stream =>
    match s.feed limit ch with
    | .next s => scan limit s stream
    | .done => .accepted s.data stream
    | .rejected rc => .rejected rc

def init : Scan := ⟨.chunkStart, 0, []⟩

end Scan

def ScanEnd.andThen (limit : ℕ) (e : ScanEnd) (more : Bytes) : ScanEnd :=
  match e with
  | .inside s => s.scan limit more
  | .accepted data left => .accepted data (left ++ more)
  | .rejected rc => .rejected rc

section

variable {limit : ℕ} {s s' : Scan} {ch : UInt8} {stream : Bytes}

theorem scan_next {t : Scan} (h : s.feed limit ch = .next t) (stream : Bytes) :
    s.scan limit (ch :: stream) = t.scan limit stream := by
  rw [Scan.scan, h]

theorem scan_append (s : Scan) (p q : Bytes) :
    s.scan limit (p ++ q) = (s.scan limit p).andThen limit q := by
  induction p generalizing s with
  | nil => rfl
  | cons ch p ih =>
    rw [cons_append, Scan.scan, Scan.scan]
    cases s.feed limit ch with
    | next s => exact ih s
    | done => rfl
    | rejected rc => rfl

theorem scan_append_inside {p : Bytes} (h : s.scan limit p = .inside s') (q : Bytes) :
    s.scan limit (p ++ q) = s'.scan limit q := by
  rw [scan_append, h]
  rfl

theorem scan_accepted {data left : Bytes} (h : s.scan limit stream = .accepted data left) :
    ∃ p s' ch, stream = p ++ ch :: left ∧ s.scan limit p = .inside s' ∧
      s'.feed limit ch = .done ∧ s'.data = data := by
  induction stream generalizing s with
  | nil => exact absurd h (by simp [Scan.scan])
  | cons ch stream ih =>
    rw [Scan.scan] at h
    cases hfeed : s.feed limit ch with
    | next s₁ =>
      rw [hfeed] at h
      obtain ⟨p, s', c, rfl, hp, hc⟩ := ih h
      exact ⟨ch :: p, s', c, rfl, by rw [scan_next hfeed, hp], hc⟩
    | done =>
      rw [hfeed] at h
      injection h with hdata hleft
      subst hdata hleft
      exact ⟨[], s, ch, rfl, rfl, hfeed, rfl⟩
    | rejected rc =>
      rw [hfeed] at h
      exact absurd h (by simp)

end

/-! ## Sizes that fit -/

def Sized (state : ChunkedState) : Prop :=
  state = .chunkExtension ∨ state = .chunkExtensionAlmostDone ∨ state = .chunkData

def SizeOk (state : ChunkedState) (size : ℤ) : Prop := 0 ≤ size ∧ (Sized state → 0 < size)

/-- Every position that the scanner reaches has a size that five more fit in an `off_t` with, and the
byte behind the data of a chunk ends a line. -/
def Fits (limit : ℕ) (s : Scan) (stream : Bytes) : Prop :=
  ∀ p rest s', stream = p ++ rest → s.scan limit p = .inside s' →
    s'.size + 5 < 2 ^ 63 ∧ (s'.state = .afterData → ∀ ch ∈ rest.head?, ch = 13 ∨ ch = 10)

section

variable {limit : ℕ} {s s' : Scan} {state state' : ChunkedState} {size size' : ℤ} {ch : UInt8}
  {stream : Bytes}

variable {lf : ChunkedState}

theorem lineEnd_next {cr : ChunkedState} {other : Step}
    (h : lineEnd size ch cr lf other = .next state' size') :
    (ch = 13 ∧ state' = cr ∧ size' = size) ∨ (ch = 10 ∧ state' = lf ∧ size' = size) ∨
      ch ≠ 13 ∧ ch ≠ 10 ∧ other = .next state' size' := by
  unfold lineEnd at h
  split_ifs at h with hcr hlf
  · injection h with hstate hsize
    exact .inl ⟨hcr, hstate.symm, hsize.symm⟩
  · injection h with hstate hsize
    exact .inr (.inl ⟨hlf, hstate.symm, hsize.symm⟩)
  · exact .inr (.inr ⟨hcr, hlf, h⟩)

theorem sizeEnd_next {extension cr : ChunkedState}
    (h : sizeEnd size ch extension cr lf = .next state' size') :
    size' = size ∧ ((ch = 13 ∧ state' = cr) ∨ (ch = 10 ∧ state' = lf) ∨
      (ch = 59 ∨ ch = 32 ∨ ch = 9) ∧ state' = extension) := by
  rcases lineEnd_next h with ⟨hch, hstate, hsize⟩ | ⟨hch, hstate, hsize⟩ | ⟨-, -, h⟩
  · exact ⟨hsize, .inl ⟨hch, hstate⟩⟩
  · exact ⟨hsize, .inr (.inl ⟨hch, hstate⟩)⟩
  · split_ifs at h with hch
    injection h with hstate hsize
    exact ⟨hsize.symm, .inr (.inr ⟨hch, hstate.symm⟩)⟩

theorem almostDone_next (h : almostDone size ch lf = .next state' size') :
    ch = 10 ∧ state' = lf ∧ size' = size := by
  unfold almostDone at h
  split_ifs at h with hch
  injection h with hstate hsize
  exact ⟨hch, hstate.symm, hsize.symm⟩

theorem SizeOk.step (h : SizeOk state size) (hstep : step state size ch = .next state' size') :
    SizeOk state' size' := by
  have hsame : (Sized state' → Sized state) → size' = size → SizeOk state' size' := fun hs he =>
    ⟨he ▸ h.1, fun hs' => he ▸ h.2 (hs hs')⟩
  have hzero : ¬ Sized state' → size' = size → SizeOk state' size' := fun hs he =>
    hsame (fun hs' => absurd hs' hs) he
  cases state with
  | chunkStart =>
    simp only [Chunked.step] at hstep
    split at hstep
    · injection hstep with hstate hsize
      subst hstate hsize
      exact ⟨Int.natCast_nonneg _, by simp [Sized]⟩
    · cases hstep
  | chunkSize =>
    simp only [Chunked.step] at hstep
    split at hstep
    · injection hstep with hstate hsize
      subst hstate hsize
      have := h.1
      exact ⟨by positivity, by simp [Sized]⟩
    · split_ifs at hstep with hsize
      · obtain ⟨he, hstate⟩ := sizeEnd_next hstep
        exact hzero (by rcases hstate with ⟨-, rfl⟩ | ⟨-, rfl⟩ | ⟨-, rfl⟩ <;> simp [Sized]) he
      · obtain ⟨he, -⟩ := sizeEnd_next hstep
        have := h.1
        exact ⟨by omega, fun _ => by omega⟩
  | chunkExtension =>
    rcases lineEnd_next hstep with ⟨-, -, he⟩ | ⟨-, -, he⟩ | ⟨-, -, he⟩
    · exact hsame (fun _ => .inl rfl) he
    · exact hsame (fun _ => .inl rfl) he
    · injection he with hstate hsize
      exact hsame (fun _ => .inl rfl) hsize.symm
  | chunkExtensionAlmostDone => exact hsame (fun _ => .inr (.inl rfl)) (almostDone_next hstep).2.2
  | chunkData => cases hstep
  | afterData | lastChunkExtension | trailerHeader =>
    rcases lineEnd_next hstep with ⟨-, rfl, he⟩ | ⟨-, rfl, he⟩ | ⟨-, -, he⟩
    · exact hzero (by simp [Sized]) he
    · exact hzero (by simp [Sized]) he
    · injection he with hstate hsize
      subst hstate
      exact hzero (by simp [Sized]) hsize.symm
  | afterDataAlmostDone | lastChunkExtensionAlmostDone | trailerHeaderAlmostDone =>
    obtain ⟨-, rfl, he⟩ := almostDone_next hstep
    exact hzero (by simp [Sized]) he
  | trailer =>
    simp only [Chunked.step] at hstep
    split_ifs at hstep
    all_goals
      injection hstep with hstate hsize
      subst hstate
      exact hzero (by simp [Sized]) hsize.symm
  | trailerAlmostDone =>
    simp only [Chunked.step] at hstep
    split_ifs at hstep

theorem step_data (h : step state size ch = .data) : state = .chunkData := by
  by_contra hne
  revert h
  cases state <;> simp only [step, lineEnd, sizeEnd, almostDone]
  case chunkData => exact absurd rfl hne
  all_goals
    repeat' split
    all_goals simp

theorem step_done (h : step state size ch = .done) :
    state = .trailer ∨ state = .trailerAlmostDone := by
  by_contra hne
  revert h
  cases state <;> simp only [step, lineEnd, sizeEnd, almostDone]
  case trailer => exact absurd (.inl rfl) hne
  case trailerAlmostDone => exact absurd (.inr rfl) hne
  all_goals
    repeat' split
    all_goals simp

theorem feed_next (h : s.feed limit ch = .next s') :
    (¬ s.Junk ch ∧ ∃ state size, step s.state s.size ch = .next state size ∧
      s' = ⟨state, size, s.data⟩) ∨
      s.state = .chunkData ∧ ¬ s.TooLarge limit ∧ s' = s.take ch := by
  unfold Scan.feed at h
  by_cases hjunk : s.Junk ch
  · rw [if_pos hjunk] at h
    cases h
  rw [if_neg hjunk] at h
  cases hstep : step s.state s.size ch with
  | next state size =>
    rw [hstep] at h
    injection h with h
    exact .inl ⟨hjunk, state, size, rfl, h.symm⟩
  | data =>
    rw [hstep] at h
    split_ifs at h with hlarge
    injection h with h
    exact .inr ⟨step_data hstep, hlarge, h.symm⟩
  | done | invalid =>
    rw [hstep] at h
    cases h

theorem feed_done (h : s.feed limit ch = .done) : ¬ s.Junk ch ∧ step s.state s.size ch = .done := by
  unfold Scan.feed at h
  by_cases hjunk : s.Junk ch
  · rw [if_pos hjunk] at h
    cases h
  rw [if_neg hjunk] at h
  refine ⟨hjunk, ?_⟩
  revert h
  cases step s.state s.size ch with
  | data =>
    split_ifs <;> simp
  | _ => simp

theorem SizeOk.feed (h : SizeOk s.state s.size) (hfeed : s.feed limit ch = .next s') :
    SizeOk s'.state s'.size := by
  rcases feed_next hfeed with ⟨-, state, size, hstep, rfl⟩ | ⟨hstate, -, rfl⟩
  · exact h.step hstep
  · have hpos := h.2 (.inr (.inr hstate))
    unfold Scan.take
    dsimp only
    split_ifs
    · exact ⟨by omega, by simp [Sized]⟩
    · exact ⟨by omega, fun _ => by omega⟩

theorem offT_of_lt (h : 0 ≤ size) (hsize : size < 2 ^ 63) : offT size = size :=
  Int.bmod_eq_of_le (by norm_num; omega) (by norm_num; omega)

def need (state : ChunkedState) (size : ℤ) : ℤ :=
  match state with
  | .chunkStart => 3
  | .chunkSize => if size ≠ 0 then size + 5 else 2
  | .chunkExtension | .chunkExtensionAlmostDone => size + 5
  | .chunkData => size + 4
  | .afterData | .afterDataAlmostDone => 4
  | .lastChunkExtension | .lastChunkExtensionAlmostDone => 2
  | .trailer | .trailerAlmostDone => 1
  | .trailerHeader | .trailerHeaderAlmostDone => 2

theorem lengthOf_eq_need (h : 0 ≤ size) (hsize : size + 5 < 2 ^ 63) :
    lengthOf state size = need state size := by
  cases state <;> dsimp only [lengthOf, need]
  case chunkSize =>
    rw [offT_of_lt] <;> split_ifs <;> omega
  case chunkExtension | chunkExtensionAlmostDone | chunkData =>
    rw [offT_of_lt] <;> omega

theorem lengthOf_pos (h : 0 ≤ size) (hsize : size + 5 < 2 ^ 63) : 0 < lengthOf state size := by
  rw [lengthOf_eq_need h hsize]
  cases state <;> dsimp only [need]
  case chunkSize => split_ifs <;> omega
  all_goals omega

theorem Fits.not_junk (h : Fits limit s (ch :: stream)) : ¬ s.Junk ch := by
  rintro ⟨hstate, hcr, hlf⟩
  rcases (h [] (ch :: stream) s rfl rfl).2 hstate ch rfl with heq | heq
  · exact hcr heq
  · exact hlf heq

theorem Fits.here (h : Fits limit s stream) : s.size + 5 < 2 ^ 63 := (h [] stream s rfl rfl).1

theorem Fits.append {p q : Bytes} (h : Fits limit s (p ++ q)) (hp : s.scan limit p = .inside s') :
    Fits limit s' q := by
  rintro r rest s₁ rfl hr
  exact h (p ++ r) rest s₁ (append_assoc _ _ _).symm ((scan_append_inside hp r).trans hr)

theorem Fits.next (h : Fits limit s (ch :: stream)) (hfeed : s.feed limit ch = .next s') :
    Fits limit s' stream := by
  have hp : s.scan limit [ch] = .inside s' := scan_next hfeed []
  exact Fits.append (p := [ch]) h hp

end

/-! ## The filters and the scanner -/

variable {limit : ℕ} {s s' : Scan} {buf : Bytes}

def Scan.takeAll (s : Scan) (d : Bytes) : Scan :=
  ⟨if s.size = d.length then .afterData else .chunkData, s.size - d.length, s.data ++ d⟩

theorem scan_takeAll {d : Bytes} (hstate : s.state = .chunkData) (hd : d ≠ [])
    (hsize : d.length ≤ s.size) (rest : Bytes) :
    s.scan limit (d ++ rest) = if s.TooLarge limit then .rejected .requestEntityTooLarge
      else (s.takeAll d).scan limit rest := by
  induction d generalizing s with
  | nil => exact absurd rfl hd
  | cons ch d ih =>
    have hfeed : s.feed limit ch = if s.TooLarge limit then .rejected .requestEntityTooLarge
        else .next (s.take ch) := by
      unfold Scan.feed
      rw [if_neg fun hjunk => absurd (hstate.symm.trans hjunk.1) (by decide), hstate]
      rfl
    rw [cons_append, Scan.scan, hfeed]
    by_cases hlarge : s.TooLarge limit
    · rw [if_pos hlarge, if_pos hlarge]
    · rw [if_neg hlarge, if_neg hlarge]
      dsimp only
      cases d with
      | nil =>
        unfold Scan.take Scan.takeAll
        simp
      | cons b d =>
        simp only [length_cons, Nat.cast_add, Nat.cast_one] at hsize
        have hmore : ¬ s.size = 1 := by omega
        have hsame : (s.take ch).TooLarge limit ↔ s.TooLarge limit := by
          unfold Scan.TooLarge Scan.take
          simp only [length_append, length_singleton, Nat.cast_add, Nat.cast_one]
          omega
        rw [ih (if_neg hmore) (by simp) (by
          dsimp only [Scan.take]
          simp only [length_cons, Nat.cast_add, Nat.cast_one]
          omega), if_neg (hsame.not.2 hlarge)]
        unfold Scan.take Scan.takeAll
        congr 1
        simp only [length_cons, Nat.cast_add, Nat.cast_one, append_assoc, cons_append, nil_append]
        congr 1
        · split_ifs <;> first | rfl | omega
        · omega

theorem takeAll_sizeOk {d : Bytes} (hsize : d.length ≤ s.size) :
    SizeOk (s.takeAll d).state (s.takeAll d).size := by
  unfold Scan.takeAll
  dsimp only
  split_ifs with h
  · exact ⟨by omega, by simp [Sized]⟩
  · exact ⟨by omega, fun _ => by omega⟩

/-- What the loop over a buffer says about the scanner. -/
def LoopReads (limit : ℕ) (s : Scan) (buf : Bytes) : LoopEnd → Prop
  | .data rc state size rest =>
    (∃ p, buf = p ++ rest ∧ s.scan limit p = .inside ⟨state, size, s.data⟩) ∧
      SizeOk state size ∧ (if rc then state = .chunkData ∧ rest ≠ [] else rest = [])
  | .done _ rest => s.scan limit buf = .accepted s.data rest
  | .invalid _ => s.scan limit buf = .rejected .badRequest

theorem loop_reads (h : SizeOk s.state s.size) (hfits : Fits limit s buf) :
    LoopReads limit s buf (loop s.state s.size buf) := by
  induction buf generalizing s with
  | nil => exact ⟨⟨[], rfl, rfl⟩, h, rfl⟩
  | cons ch buf ih =>
    rw [loop]
    cases hstep : step s.state s.size ch with
    | next state size =>
      have hfeed : s.feed limit ch = .next ⟨state, size, s.data⟩ := by
        unfold Scan.feed
        rw [if_neg hfits.not_junk, hstep]
      have hok := h.step hstep
      have hfits' := hfits.next hfeed
      have hlt : size < 2 ^ 63 := by
        have := hfits'.here
        dsimp only at this
        omega
      dsimp only
      rw [offT_of_lt hok.1 hlt]
      have hih := @ih ⟨state, size, s.data⟩ hok hfits'
      revert hih
      cases loop state size buf with
      | data rc state' size' rest =>
        rintro ⟨⟨p, rfl, hp⟩, hend⟩
        exact ⟨⟨ch :: p, rfl, (scan_next hfeed p).trans hp⟩, hend⟩
      | done size' rest | invalid size' => exact fun hih => (scan_next hfeed buf).trans hih
    | data =>
      exact ⟨⟨[], rfl, rfl⟩, h, step_data hstep, by simp⟩
    | done =>
      have hfeed : s.feed limit ch = .done := by
        unfold Scan.feed
        rw [if_neg hfits.not_junk, hstep]
      show s.scan limit (ch :: buf) = _
      rw [Scan.scan, hfeed]
    | invalid =>
      have hfeed : s.feed limit ch = .rejected .badRequest := by
        unfold Scan.feed
        rw [if_neg hfits.not_junk, hstep]
      show s.scan limit (ch :: buf) = _
      rw [Scan.scan, hfeed]

variable {ctx : Chunked} {out : Bytes} {rb : RequestBody}

theorem parseChunked_reads (hstate : ctx.resume = s.state) (hsize : ctx.size = s.size)
    (h : SizeOk s.state s.size) (hfits : Fits limit s buf) :
    (∃ ctx' p rest, ctx.parseChunked buf = (.ok, ctx', rest) ∧ buf = p ++ rest ∧ rest ≠ [] ∧
      s.scan limit p = .inside ⟨.chunkData, ctx'.size, s.data⟩ ∧ ctx'.state = .chunkData ∧
      0 < ctx'.size) ∨
    (∃ ctx', ctx.parseChunked buf = (.again, ctx', []) ∧ 0 < ctx'.length ∧
      s.scan limit buf = .inside ⟨ctx'.state, ctx'.size, s.data⟩ ∧ SizeOk ctx'.state ctx'.size) ∨
    (∃ ctx' rest, ctx.parseChunked buf = (.done, ctx', rest) ∧
      s.scan limit buf = .accepted s.data rest) ∨
    ∃ ctx' rest, ctx.parseChunked buf = (.error, ctx', rest) ∧
      s.scan limit buf = .rejected .badRequest := by
  have hloop := loop_reads h hfits
  unfold parseChunked
  rw [hstate, hsize]
  revert hloop
  cases loop s.state s.size buf with
  | data rc state size rest =>
    rintro ⟨⟨p, rfl, hp⟩, hok, hend⟩
    have hfit := (hfits.append hp).here
    dsimp only at hfit ⊢
    have hlength : 0 < lengthOf state size := lengthOf_pos hok.1 hfit
    have hvalid : ¬ (size < 0 ∨ lengthOf state size < 0) := by
      have := hok.1
      omega
    rw [if_neg hvalid]
    cases rc with
    | true =>
      obtain ⟨rfl, hrest⟩ := hend
      exact .inl ⟨_, p, rest, rfl, rfl, hrest, hp, rfl, hok.2 (.inr (.inr rfl))⟩
    | false =>
      obtain rfl : rest = [] := hend
      refine .inr (.inl ⟨_, rfl, hlength, ?_, hok⟩)
      rw [append_nil]
      exact hp
  | done size rest => exact fun hloop => .inr (.inr (.inl ⟨_, rest, rfl, hloop⟩))
  | invalid size => exact fun hloop => .inr (.inr (.inr ⟨_, buf, rfl, hloop⟩))

/-- A body that was read to a position; part of its data may not be kept yet. -/
structure Reads (rb : RequestBody) (out : Bytes) (s : Scan) : Prop where
  state : rb.chunked.resume = s.state
  size : rb.chunked.size = s.size
  data : rb.bufs ++ out = s.data
  length : rb.contentLengthN = s.data.length
  sizeOk : SizeOk s.state s.size

def FilterReads (result : Option (FilterRc × RequestBody × Bytes)) : ScanEnd → Prop
  | .inside s => ∃ rb, result = some (.ok, rb, []) ∧ Reads rb [] s ∧ 0 < rb.rest
  | .accepted data left => ∃ rb, result = some (.ok, rb, left) ∧ rb.rest = 0 ∧ rb.bufs = data
  | .rejected rc => rc ≠ .ok ∧ ∃ rb left, result = some (rc, rb, left)

theorem resume_of_sizeOk (h : SizeOk ctx.state ctx.size) : ctx.resume = ctx.state :=
  if_neg fun hdata => by
    have := h.2 (.inr (.inr hdata.1))
    omega

theorem Reads.takeAll {d : Bytes} (h : Reads rb out s) (hstate : ctx.state = .chunkData)
    (hd : d.length ≤ ctx.size) :
    Reads { rb with
      chunked := { ctx with size := ctx.size - d.length }
      contentLengthN := rb.contentLengthN + d.length } (out ++ d)
      (Scan.takeAll ⟨.chunkData, ctx.size, s.data⟩ d) where
  state := by
    unfold resume Scan.takeAll
    dsimp only
    by_cases hall : ctx.size = d.length
    · rw [if_pos hall, if_pos ⟨hstate, by omega⟩]
    · rw [if_neg hall, if_neg (fun h => hall (by omega)), hstate]
  size := rfl
  data := by
    dsimp only [Scan.takeAll]
    rw [← append_assoc, h.data]
  length := by
    dsimp only [Scan.takeAll]
    rw [h.length, length_append, Nat.cast_add]
  sizeOk := takeAll_sizeOk hd

theorem filterLoop_reads {fuel : ℕ} (h : Reads rb out s) (hfits : Fits limit s buf)
    (hfuel : buf.length < fuel) :
    FilterReads (RequestBody.filterLoop limit fuel rb out buf) (s.scan limit buf) := by
  induction fuel generalizing rb out buf s with
  | zero => omega
  | succ fuel ih =>
    rw [RequestBody.filterLoop]
    rcases parseChunked_reads h.state h.size h.sizeOk hfits with
      ⟨ctx, p, rest, hparse, rfl, hrest, hp, hstate, hsize⟩ | ⟨ctx, hparse, hlength, hscan, hok⟩ |
      ⟨ctx, rest, hparse, hscan⟩ | ⟨ctx, rest, hparse, hscan⟩
    · -- a part of a chunk's data: what the buffer has of them, or all of them
      rw [hparse]
      dsimp only
      have hlarge : (limit ≠ 0 ∧ limit - rb.contentLengthN < ctx.size) ↔
          Scan.TooLarge limit ⟨.chunkData, ctx.size, s.data⟩ := by
        rw [h.length]
        rfl
      rw [scan_append_inside hp]
      have hpart : ∀ d rest', rest = d ++ rest' → d ≠ [] → (d.length : ℤ) ≤ ctx.size →
          ¬ Scan.TooLarge limit ⟨.chunkData, ctx.size, s.data⟩ →
          FilterReads (RequestBody.filterLoop limit fuel { rb with
            chunked := { ctx with size := ctx.size - d.length }
            contentLengthN := rb.contentLengthN + d.length } (out ++ d) rest')
            (Scan.scan limit ⟨.chunkData, ctx.size, s.data⟩ rest) := by
        rintro d rest' rfl hd hle hfree
        have hscan := fun more =>
          @scan_takeAll limit ⟨.chunkData, ctx.size, s.data⟩ d rfl hd hle more
        rw [hscan, if_neg hfree]
        have hto := hscan []
        rw [if_neg hfree, append_nil] at hto
        refine ih (h.takeAll hstate hle) ((hfits.append hp).append hto) ?_
        have := length_pos_iff.2 hd
        simp only [length_append] at hfuel
        omega
      by_cases htoo : limit ≠ 0 ∧ limit - rb.contentLengthN < ctx.size
      · rw [if_pos htoo]
        have hscan := @scan_takeAll limit ⟨.chunkData, ctx.size, s.data⟩ (rest.take 1) rfl
          (by simpa using hrest) (by
            have : (rest.take 1).length ≤ 1 := by simp
            dsimp only
            omega) (rest.drop 1)
        rw [take_append_drop, if_pos (hlarge.1 htoo)] at hscan
        rw [hscan]
        exact ⟨by decide, _, _, rfl⟩
      · split_ifs with hmore
        · have hlen : ((rest.take ctx.size.toNat).length : ℤ) = ctx.size := by
            rw [length_take]
            omega
          have := hpart (rest.take ctx.size.toNat) (rest.drop ctx.size.toNat)
            (take_append_drop _ _).symm (by
              intro hnil
              rw [hnil] at hlen
              simp only [length_nil, Nat.cast_zero] at hlen
              omega) hlen.le (hlarge.not.1 htoo)
          rwa [hlen, sub_self] at this
        · exact hpart rest [] (append_nil _).symm hrest (by omega) (hlarge.not.1 htoo)
    · rw [hparse, hscan]
      exact ⟨_, rfl, ⟨resume_of_sizeOk hok, rfl, by rw [append_nil]; exact h.data, h.length,
        hok⟩, hlength⟩
    · rw [hparse, hscan]
      exact ⟨_, rfl, rfl, h.data⟩
    · rw [hparse, hscan]
      exact ⟨by decide, _, _, rfl⟩

def ScanEnd.bodyEnd : ScanEnd → BodyEnd
  | .inside s => .waiting s.data
  | .accepted data left => .accepted data left
  | .rejected rc => .rejected rc

theorem start_bufs (rb : RequestBody) : rb.start.bufs = rb.bufs := by
  unfold RequestBody.start
  split_ifs <;> rfl

theorem start_of_pos (h : 0 ≤ rb.rest) : rb.start = rb := if_neg (by omega)

/-- The cut into buffers does not matter. -/
theorem read_eq_scan {bufs : List Bytes} (h : Reads rb.start [] s)
    (hfits : Fits limit s bufs.flatten) :
    rb.read limit bufs = some (s.scan limit bufs.flatten).bodyEnd := by
  induction bufs generalizing rb s with
  | nil =>
    have hdata := h.data
    rw [append_nil, start_bufs] at hdata
    exact congrArg (some ∘ BodyEnd.waiting) hdata
  | cons buf bufs ih =>
    rw [flatten_cons] at hfits ⊢
    have hbuf : Fits limit s buf := by
      rintro p rest s' rfl hp
      obtain ⟨hsize, heol⟩ := hfits p (rest ++ bufs.flatten) s' (append_assoc _ _ _) hp
      refine ⟨hsize, fun hstate ch hch => heol hstate ch ?_⟩
      rw [head?_append, Option.mem_def.1 hch]
      rfl
    have hfilter : FilterReads (rb.chunkedFilter limit buf) (s.scan limit buf) :=
      filterLoop_reads h hbuf (by omega)
    rw [RequestBody.read, scan_append]
    revert hfilter
    cases hscan : s.scan limit buf with
    | inside s' =>
      rintro ⟨rb', heq, hreads, hrest⟩
      rw [heq]
      dsimp only
      rw [if_neg hrest.ne']
      apply ih
      · rw [start_of_pos hrest.le]
        exact hreads
      · exact hfits.append hscan
    | accepted data left =>
      rintro ⟨rb', heq, hrest, hdata⟩
      rw [heq]
      dsimp only
      rw [if_pos hrest, hdata]
      rfl
    | rejected rc =>
      rintro ⟨hrc, rb', left, heq⟩
      rw [heq]
      cases rc with
      | ok => exact absurd rfl hrc
      | badRequest => rfl
      | requestEntityTooLarge => rfl

/-! ### The discarding filter -/

def withoutData : BodyEnd → BodyEnd
  | .accepted _ left => .accepted [] left
  | .waiting _ => .waiting []
  | .rejected rc => .rejected rc

def SameEnd : Option (FilterRc × RequestBody × Bytes) → Option (FilterRc × DiscardedBody × Bytes) →
    Prop
  | some (rc, rb, left), some (rc', r, left') => rc = rc' ∧ left = left' ∧
      r.chunked = rb.chunked ∧ (rc = .ok → r.contentLengthN = rb.rest ∧ 0 ≤ rb.rest)
  | none, none => True
  | _, _ => False

theorem parseChunked_length {ctx' : Chunked} {rest : Bytes}
    (h : ctx.parseChunked buf = (.again, ctx', rest)) : 0 ≤ ctx'.length := by
  unfold parseChunked at h
  revert h
  cases loop ctx.resume ctx.size buf with
  | data rc state size rest' =>
    dsimp only
    intro h
    by_cases hneg : size < 0 ∨ lengthOf state size < 0
    · rw [if_pos hneg] at h
      cases congrArg Prod.fst h
    · have hctx := congrArg (fun r => r.2.1.length) h
      dsimp only at hctx
      omega
  | done size rest' | invalid size => exact fun h => by cases congrArg Prod.fst h

theorem filterLoop_sameEnd {fuel : ℕ} {r : DiscardedBody} (h : r.chunked = rb.chunked) :
    SameEnd (RequestBody.filterLoop 0 fuel rb out buf) (DiscardedBody.filterLoop fuel r buf) := by
  induction fuel generalizing rb r out buf with
  | zero => trivial
  | succ fuel ih =>
    rw [RequestBody.filterLoop, DiscardedBody.filterLoop, h]
    rcases hparse : rb.chunked.parseChunked buf with ⟨rc, ctx, rest⟩
    cases rc with
    | ok =>
      dsimp only
      rw [if_neg (fun hlarge => hlarge.1 rfl)]
      split_ifs <;> exact ih rfl
    | again => exact ⟨rfl, rfl, rfl, fun _ => ⟨rfl, parseChunked_length hparse⟩⟩
    | done => exact ⟨rfl, rfl, rfl, fun _ => ⟨rfl, le_rfl⟩⟩
    | error => exact ⟨rfl, rfl, rfl, fun hok => by cases hok⟩

theorem discard_read_eq {bufs : List Bytes} {r : DiscardedBody} (h : r.chunked = rb.start.chunked) :
    r.read bufs = (rb.read 0 bufs).map withoutData := by
  induction bufs generalizing rb r with
  | nil => rfl
  | cons buf bufs ih =>
    have hsame : SameEnd (rb.chunkedFilter 0 buf) (r.filter buf) := filterLoop_sameEnd h
    rw [DiscardedBody.read, RequestBody.read]
    revert hsame
    rcases rb.chunkedFilter 0 buf with _ | ⟨rc, rb', left⟩ <;>
      rcases r.filter buf with _ | ⟨rc', r', left'⟩
    · exact fun _ => rfl
    · exact False.elim
    · exact False.elim
    · rintro ⟨rfl, rfl, hchunked, hok⟩
      cases rc with
      | ok =>
        obtain ⟨hrest, hpos⟩ := hok rfl
        dsimp only
        rw [hrest]
        split_ifs
        · rfl
        · exact ih (by rw [start_of_pos hpos]; exact hchunked)
      | badRequest => rfl
      | requestEntityTooLarge => rfl

end ServerStack.Nginx.Chunked
