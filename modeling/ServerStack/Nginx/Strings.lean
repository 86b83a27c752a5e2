import Mathlib

/-!
# Numbers and escapes of `ngx_string.c`

The parsers of numbers keep the value in 64 bits and look at its sign once, at the end.  The escapes
of a URI are chosen by a table with one bit for each character.
-/

namespace ServerStack.Nginx

open List

abbrev Bytes := List UInt8

/-! ## Numbers -/

def decimalDigit (ch : UInt8) : Option ℕ :=
  if 48 ≤ ch ∧ ch ≤ 57 then some (ch.toNat - 48) else none

def hexDigit (ch : UInt8) : Option ℕ :=
  if 48 ≤ ch ∧ ch ≤ 57 then some (ch.toNat - 48)
  else if 97 ≤ ch ||| 0x20 ∧ ch ||| 0x20 ≤ 102 then some ((ch ||| 0x20).toNat - 97 + 10)
  else none

section

variable (digit : UInt8 → Option ℕ) (base : ℕ)

/-- The loop of the parsers; `NGX_ERROR` is -1. -/
def parseLoop : ℤ → Bytes → ℤ
  | value, [] => if value < 0 then -1 else value
  | value, ch :: line =>
    match digit ch with
    | none => -1
    | some d => parseLoop ((value * base + d).bmod (2 ^ 64)) line

def parseNumber (line : Bytes) : ℤ := if line = [] then -1 else parseLoop digit base 0 line

/-- The number that digits denote behind a number already read. -/
def denoted (n : ℕ) (line : Bytes) : Option ℕ :=
  line.foldlM (fun n ch => (digit ch).map (n * base + ·)) n

def numeral (line : Bytes) : Option ℕ := if line = [] then none else denoted digit base 0 line

def exactNumber (line : Bytes) : ℤ :=
  match numeral digit base line with
  | some n => if n < 2 ^ 63 then n else -1
  | none => -1

end

def ngxAtoi (line : Bytes) : ℤ := parseNumber decimalDigit 10 line

def ngxAtosz (line : Bytes) : ℤ := parseNumber decimalDigit 10 line

def ngxAtoof (line : Bytes) : ℤ := parseNumber decimalDigit 10 line

def ngxAtotm (line : Bytes) : ℤ := parseNumber decimalDigit 10 line

def ngxHextoi (line : Bytes) : ℤ := parseNumber hexDigit 16 line

variable {digit : UInt8 → Option ℕ} {base : ℕ}

theorem parseLoop_eq (line : Bytes) (n : ℕ) :
    parseLoop digit base ((n : ℤ).bmod (2 ^ 64)) line =
      (denoted digit base n line).elim (-1) fun v : ℕ =>
        parseLoop digit base ((v : ℤ).bmod (2 ^ 64)) [] := by
  induction line generalizing n with
  | nil => rw [denoted, foldlM_nil, Option.pure_def, Option.elim_some]
  | cons ch line ih =>
    rw [parseLoop, denoted, foldlM_cons]
    cases hdigit : digit ch with
    | none => rfl
    | some d =>
      have hwrap : ((n : ℤ).bmod (2 ^ 64) * base + d).bmod (2 ^ 64) =
          ((n * base + d : ℕ) : ℤ).bmod (2 ^ 64) := by
        push_cast
        rw [← Int.bmod_add_bmod, Int.bmod_mul_bmod, Int.bmod_add_bmod]
      rw [Option.map_some, Option.bind_eq_bind, Option.bind_some, ← denoted, ← ih]
      simp only [hwrap]

/-- A value that wraps around is refused if and only if it ends up negative. -/
theorem parseNumber_eq_iff {line : Bytes} :
    parseNumber digit base line = exactNumber digit base line ↔
      ∀ n ∈ numeral digit base line, n < 2 ^ 64 ∨ 2 ^ 63 ≤ n % 2 ^ 64 := by
  unfold parseNumber exactNumber numeral
  split_ifs with hline
  · simp
  · rw [← Int.zero_bmod, ← Nat.cast_zero, parseLoop_eq]
    cases hn : denoted digit base 0 line with
    | none => simp
    | some n =>
      rw [Option.elim_some, parseLoop, Int.bmod_def]
      simp only [Option.mem_def, Option.some.injEq, forall_eq']
      split_ifs <;> omega

theorem ngxAtoi_eq (line : Bytes) :
    ((ngxAtoi line = exactNumber decimalDigit 10 line ∧
      ngxAtosz line = exactNumber decimalDigit 10 line ∧
      ngxAtoof line = exactNumber decimalDigit 10 line ∧
      ngxAtotm line = exactNumber decimalDigit 10 line) ↔
        ∀ n ∈ numeral decimalDigit 10 line, n < 2 ^ 64 ∨ 2 ^ 63 ≤ n % 2 ^ 64) ∧
    (ngxHextoi line = exactNumber hexDigit 16 line ↔
      ∀ n ∈ numeral hexDigit 16 line, n < 2 ^ 64 ∨ 2 ^ 63 ≤ n % 2 ^ 64) := by
  refine ⟨?_, parseNumber_eq_iff⟩
  rw [← parseNumber_eq_iff]
  exact ⟨fun h => h.1, fun h => ⟨h, h, h, h⟩⟩

/-- The numeral of 2 ^ 64 is read as 0. -/
theorem ngxAtoi_wraps : ∃ line, ngxAtoi line = 0 ∧ exactNumber decimalDigit 10 line = -1 :=
  ⟨[49, 56, 52, 52, 54, 55, 52, 52, 48, 55, 51, 55, 48, 57, 53, 53, 49, 54, 49, 54], by
    decide +kernel⟩

theorem ngxAtoi_eq_twelve :
    ngxAtoi [49, 50] = exactNumber decimalDigit 10 [49, 50] ∧
      ngxHextoi [49, 50] = exactNumber hexDigit 16 [49, 50] :=
  ⟨((ngxAtoi_eq _).1.2 (by decide)).1, (ngxAtoi_eq _).2.2 (by decide)⟩

/-! ## Escapes -/

inductive EscapeType where
  | uri
  | args
  | uriComponent
  | html
  | refresh
  | memcached
  | mailAuth
  deriving DecidableEq

/-- `map[type]`; the words for the characters from 0x80 on are all ones but for `memcached`. -/
def escapeMap : EscapeType → List ℕ
  | .uri => 0xffffffff :: 0x80000029 :: 0 :: 0x80000000 :: replicate 4 0xffffffff
  | .args => 0xffffffff :: 0x88000869 :: 0 :: 0x80000000 :: replicate 4 0xffffffff
  | .uriComponent =>
    0xffffffff :: 0xfc009fff :: 0x78000001 :: 0xb8000001 :: replicate 4 0xffffffff
  | .html => 0xffffffff :: 0x000000ad :: 0 :: 0x80000000 :: replicate 4 0xffffffff
  | .refresh => 0xffffffff :: 0x00000085 :: 0 :: 0x80000000 :: replicate 4 0xffffffff
  | .memcached | .mailAuth => 0xffffffff :: 0x00000021 :: replicate 6 0

section

variable (type : EscapeType)

/-- `escape[*src >> 5] & (1 << (*src & 0x1f))`. -/
def isEscaped (ch : UInt8) : Bool :=
  ((escapeMap type).getD (ch.toNat / 32) 0).testBit (ch.toNat % 32)

/-- `hex`, and a digit of it. -/
def hexOf (n : ℕ) : UInt8 :=
  [48, 49, 50, 51, 52, 53, 54, 55, 56, 57, 97, 98, 99, 100, 101, 102].getD n 0

/-- `ngx_escape_uri` with a `NULL` destination. -/
def escapeUriCount (src : Bytes) : ℕ := src.countP (isEscaped type)

def escapeUri (src : Bytes) : Bytes :=
  src.flatMap fun ch =>
    if isEscaped type ch then [37, hexOf (ch.toNat / 16), hexOf (ch.toNat % 16)] else [ch]

end

/-- The states of `ngx_unescape_uri`; the second digit needs the first one and its value. -/
inductive UnescapeState where
  | usual
  | quoted
  | quotedSecond (first : UInt8) (decoded : ℕ)

def emit (out : Bytes) (r : Bytes × Bytes) : Bytes × Bytes := (out ++ r.1, r.2)

/-- `ngx_unescape_uri` by the bits `NGX_UNESCAPE_URI` and `NGX_UNESCAPE_REDIRECT` of its type: the
bytes written and the source that is left. -/
def unescapeUri (uri redirect : Bool) : UnescapeState → Bytes → Bytes × Bytes
  | _, [] => ([], [])
  | .usual, ch :: s =>
    if ch = 63 ∧ (uri ∨ redirect) then ([ch], s)
    else if ch = 37 then unescapeUri uri redirect .quoted s
    else emit [ch] (unescapeUri uri redirect .usual s)
  | .quoted, ch :: s =>
    match hexDigit ch with
    | some digit => unescapeUri uri redirect (.quotedSecond ch digit) s
    | none => emit [ch] (unescapeUri uri redirect .usual s)
  | .quotedSecond first decoded, ch :: s =>
    match hexDigit ch with
    | some digit =>
      let c := UInt8.ofNat (decoded * 16 + digit)
      -- only a letter ends the path here, and hides the bit for redirects behind the other one
      if 57 < ch ∧ c = 63 ∧ (uri ∨ redirect) then ([c], s)
      else if redirect ∧ (ch ≤ 57 ∨ ¬ uri) ∧ ¬ (37 < c ∧ c < 0x7f) then
        emit [37, first, ch] (unescapeUri uri redirect .usual s)
      else emit [c] (unescapeUri uri redirect .usual s)
    | none => unescapeUri uri redirect .usual s

variable {type : EscapeType} {ch : UInt8}

theorem isEscaped_of_lt (h : isEscaped type ch = false) : 0x21 ≤ ch := by
  revert ch
  cases type <;> decide +kernel

theorem ne_percent (h : isEscaped type ch = false) (htype : type ≠ .refresh) : ch ≠ 37 := by
  rintro rfl
  revert h htype
  cases type <;> decide

theorem hexDigit_hexOf {n : ℕ} (h : n < 16) : hexDigit (hexOf n) = some n := by
  revert n
  decide +kernel

theorem unescapeUri_escaped (ch : UInt8) (s : Bytes) :
    unescapeUri false false .usual (37 :: hexOf (ch.toNat / 16) :: hexOf (ch.toNat % 16) :: s) =
      emit [ch] (unescapeUri false false .usual s) := by
  have hch := ch.toNat_lt
  have hvalue : ch.toNat / 16 * 16 + ch.toNat % 16 = ch.toNat := Nat.div_add_mod' _ _
  simp [unescapeUri, hexDigit_hexOf (show ch.toNat / 16 < 16 by omega),
    hexDigit_hexOf (show ch.toNat % 16 < 16 by omega), hvalue]

theorem unescapeUri_escapeUri {src : Bytes} (h : type = .refresh → 37 ∉ src) :
    unescapeUri false false .usual (escapeUri type src) = (src, []) := by
  induction src with
  | nil => rfl
  | cons ch src ih =>
    have hrest := ih fun htype hmem => h htype (mem_cons_of_mem _ hmem)
    rw [escapeUri, flatMap_cons, ← escapeUri]
    split_ifs with hch
    · rw [cons_append, cons_append, singleton_append, unescapeUri_escaped, hrest]
      rfl
    · have hne : ch ≠ 37 := by
        by_cases htype : type = .refresh
        · rintro rfl
          exact h htype mem_cons_self
        · exact ne_percent (Bool.not_eq_true _ ▸ hch) htype
      simp [unescapeUri, hne, hrest, emit]

/-- A string that is escaped for `Refresh` and unescaped again. -/
def refreshed (src : Bytes) : Bytes := (unescapeUri false false .usual (escapeUri .refresh src)).1

variable {src : Bytes}

theorem refreshed_cons (hch : ch ≠ 37) : refreshed (ch :: src) = ch :: refreshed src := by
  rw [refreshed, escapeUri, flatMap_cons, ← escapeUri]
  split_ifs with hescaped
  · rw [cons_append, cons_append, singleton_append, unescapeUri_escaped]
    rfl
  · simp [unescapeUri, hch, emit, refreshed]

/-- What a percent sign takes with it: the output is shorter, or it is a percent sign with the two
digits of an escape, which are never escaped themselves. -/
theorem refreshed_percent (src : Bytes) : ∃ used rest out, 37 :: src = used ++ rest ∧
    refreshed (37 :: src) = out ++ refreshed rest ∧ (out.length < used.length ∨
      ∃ c a b, used = [37, c] ∧ out = [37, a, b] ∧ c ≠ a ∧ c ≠ b) := by
  have hhex : ∀ n < 16, hexOf n ≠ 37 ∧ isEscaped .refresh (hexOf n) = false := by decide +kernel
  have hpercent : hexDigit 37 = none := by decide
  rw [refreshed, escapeUri, flatMap_cons, if_neg (by decide), ← escapeUri]
  cases src with
  | nil => exact ⟨[37], [], [], rfl, rfl, .inl (by decide)⟩
  | cons c src =>
    have hc := c.toNat_lt
    obtain ⟨ha, ha'⟩ := hhex (c.toNat / 16) (by omega)
    obtain ⟨hb, hb'⟩ := hhex (c.toNat % 16) (by omega)
    rw [escapeUri, flatMap_cons, ← escapeUri]
    split_ifs with hescaped
    · refine ⟨[37, c], src, [37, hexOf (c.toNat / 16), hexOf (c.toNat % 16)], rfl, ?_,
        .inr ⟨c, _, _, rfl, rfl, ?_, ?_⟩⟩
      · simp [unescapeUri, hpercent, ha, hb, emit, refreshed]
      · exact fun heq => by rw [← heq, hescaped] at ha'; cases ha'
      · exact fun heq => by rw [← heq, hescaped] at hb'; cases hb'
    · cases hdigit : hexDigit c with
      | none =>
        exact ⟨[37, c], src, [c], rfl, by simp [unescapeUri, hdigit, emit, refreshed],
          .inl (by simp)⟩
      | some d =>
        cases src with
        | nil =>
          exact ⟨[37, c], [], [], rfl, by simp [unescapeUri, hdigit, escapeUri, refreshed],
            .inl (by simp)⟩
        | cons e src =>
          have he := e.toNat_lt
          have ha := (hhex (e.toNat / 16) (by omega)).1
          have hb := (hhex (e.toNat % 16) (by omega)).1
          rw [escapeUri, flatMap_cons, ← escapeUri]
          split_ifs with hescaped'
          · exact ⟨[37, c, e], src, [hexOf (e.toNat / 16), hexOf (e.toNat % 16)], rfl,
              by simp [unescapeUri, hdigit, hpercent, ha, hb, emit, refreshed], .inl (by simp)⟩
          · cases hdigit' : hexDigit e with
            | none =>
              exact ⟨[37, c, e], src, [], rfl,
                by simp [unescapeUri, hdigit, hdigit', refreshed], .inl (by simp)⟩
            | some d' =>
              exact ⟨[37, c, e], src, [UInt8.ofNat (d * 16 + d')], rfl,
                by simp [unescapeUri, hdigit, hdigit', emit, refreshed], .inl (by simp)⟩

/-- If less is put out than was used up, the rest has to make up for it. -/
theorem exists_ahead {used rest out : Bytes} (hlen : out.length < used.length)
    (h : used ++ rest <+: out ++ refreshed rest) : ∃ w ≠ [], w ++ rest <+: refreshed rest := by
  obtain ⟨t, ht⟩ := h
  have hdrop := congrArg (drop out.length) ht
  rw [drop_left, append_assoc, drop_append_of_le_length hlen.le] at hdrop
  refine ⟨used.drop out.length, ?_, t, by rw [append_assoc, hdrop]⟩
  rw [← length_pos_iff, length_drop]
  omega

/-- The output never runs ahead of the string. -/
theorem not_ahead {w : Bytes} (hw : w ≠ []) : ¬ w ++ src <+: refreshed src := by
  induction hn : src.length using Nat.strong_induction_on generalizing src w with
  | _ n ih =>
    intro h
    obtain ⟨x, w, rfl⟩ := exists_cons_of_ne_nil hw
    cases src with
    | nil => cases prefix_nil.1 h
    | cons ch src =>
      by_cases hch : ch = 37
      · subst hch
        obtain ⟨used, rest, out, hsrc, hout, hshort⟩ := refreshed_percent src
        have hlt : rest.length < n := by
          rw [← hn, hsrc, length_append]
          rcases hshort with hshort | ⟨c, a, b, rfl, -⟩
          · omega
          · exact Nat.lt_add_of_pos_left (Nat.succ_pos 1)
        rw [hout, hsrc, ← append_assoc] at h
        rcases hshort with hshort | ⟨c, a, b, rfl, rfl, ha, hb⟩
        · obtain ⟨v, hv, hprefix⟩ := exists_ahead (by rw [length_append]; omega) h
          exact ih _ hlt hv rfl hprefix
        · cases w with
          | nil =>
            simp at h
            exact hb h.2.2.1
          | cons y w =>
            obtain ⟨v, hv, hprefix⟩ := exists_ahead (by simp) h
            exact ih _ hlt hv rfl hprefix
      · rw [refreshed_cons hch, cons_append, cons_prefix_cons] at h
        rw [← hn, length_cons] at ih
        exact ih _ (Nat.lt_succ_self _) (append_ne_nil_of_right_ne_nil w (cons_ne_nil ch [])) rfl
          (by simpa using h.2)

theorem percent_notMem (h : refreshed src = src) : 37 ∉ src := by
  induction src with
  | nil => exact not_mem_nil
  | cons ch src ih =>
    by_cases hch : ch = 37
    · subst hch
      obtain ⟨used, rest, out, hsrc, hout, hshort⟩ := refreshed_percent src
      rw [hout, hsrc] at h
      rcases hshort with hshort | ⟨c, a, b, rfl, rfl, ha, -⟩
      · obtain ⟨w, hw, hprefix⟩ := exists_ahead hshort ⟨[], by rw [h, append_nil]⟩
        exact absurd hprefix (not_ahead hw)
      · exact absurd (cons.inj (cons.inj h).2).1.symm ha
    · rw [refreshed_cons hch] at h
      exact not_mem_cons_of_ne_of_not_mem (Ne.symm hch) (ih (cons.inj h).2)

theorem escapeUri_invertible (type : EscapeType) (src : Bytes) :
    (unescapeUri false false .usual (escapeUri type src) = (src, []) ↔
      (type = .refresh → 37 ∉ src)) ∧
    (escapeUri type src).length = src.length + 2 * escapeUriCount type src ∧
    ∀ ch ∈ escapeUri type src, 0x21 ≤ ch := by
  refine ⟨⟨fun h htype => ?_, unescapeUri_escapeUri⟩, ?_, ?_⟩
  · subst htype
    exact percent_notMem (congrArg Prod.fst h)
  · unfold escapeUri escapeUriCount
    induction src with
    | nil => rfl
    | cons ch src ih =>
      rw [flatMap_cons, length_append, ih, countP_cons, length_cons]
      split_ifs <;> simp <;> omega
  · intro ch hch
    obtain ⟨b, -, hb⟩ := mem_flatMap.1 hch
    have hhex : ∀ n < 16, 0x21 ≤ hexOf n := by decide
    have := b.toNat_lt
    split_ifs at hb with hescaped
    · simp only [mem_cons, not_mem_nil, or_false] at hb
      rcases hb with rfl | rfl | rfl
      · decide
      · exact hhex _ (by omega)
      · exact hhex _ (by omega)
    · rw [mem_singleton.1 hb]
      exact isEscaped_of_lt (Bool.not_eq_true _ ▸ hescaped)

/-- The table for `Refresh` leaves the percent sign alone. -/
theorem unescapeUri_escapeUri_refresh :
    unescapeUri false false .usual (escapeUri .refresh [37, 52, 49]) = ([65], []) := by
  decide +kernel

theorem escapeUri_invertible_space :
    unescapeUri false false .usual (escapeUri .uri [32, 37]) = ([32, 37], []) :=
  (escapeUri_invertible .uri [32, 37]).1.2 nofun

end ServerStack.Nginx
