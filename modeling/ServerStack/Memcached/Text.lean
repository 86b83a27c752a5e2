import ServerStack.Lib.Decimal

/-!
# Command lines and numbers

The tokenizer of command lines, `tokenize_command`, and the number parsers of `util.c`.
-/

namespace ServerStack.Memcached

open Decimal List

abbrev Bytes := List UInt8

def ascii (s : String) : Bytes := s.toList.map fun c => UInt8.ofNat c.toNat

def crlf : Bytes := [13, 10]

def cString (s : Bytes) : Bytes := s.takeWhile (· ≠ 0)

/-! ## Tokens -/

/-- The token array: the tokens, and the value of the terminal token, which is null when the whole
string was scanned. -/
structure Tokens where
  values : List Bytes
  rest : Option Bytes
  deriving DecidableEq

/-- What `tokenize_command` returns: the terminal token is counted. -/
def Tokens.ntokens (t : Tokens) : ℕ := t.values.length + 1

/-- The loop of `tokenize_command`; `token` is what stands between `s` and `e`. -/
def tokenizeLoop (maxTokens : ℕ) : Bytes → Bytes → List Bytes → Tokens
  | [], token, tokens => ⟨if token = [] then tokens else tokens ++ [token], none⟩
  | b :: command, token, tokens =>
    if b = 32 then
      if token = [] then tokenizeLoop maxTokens command [] tokens
      else if (tokens ++ [token]).length = maxTokens - 1 then
        ⟨tokens ++ [token], if command = [] then none else some command⟩
      else tokenizeLoop maxTokens command [] (tokens ++ [token])
    else tokenizeLoop maxTokens command (token ++ [b]) tokens

def maxTokens : ℕ := 8

def tokenizeCommand (command : Bytes) : Tokens := tokenizeLoop maxTokens command [] []

/-- The words of a line; `token` is the beginning of the first one. -/
def wordsFrom : Bytes → Bytes → List Bytes
  | [], token => if token = [] then [] else [token]
  | b :: line, token =>
    if b = 32 then if token = [] then wordsFrom line [] else token :: wordsFrom line []
    else wordsFrom line (token ++ [b])

def words (line : Bytes) : List Bytes := wordsFrom line []

theorem tokenizeLoop_spec (max : ℕ) (command token : Bytes) (tokens : List Bytes)
    (h : tokens.length < max - 1) :
    let r := tokenizeLoop max command token tokens
    tokens ++ wordsFrom command token = r.values ++ r.rest.elim [] words ∧
      r.values.length ≤ max - 1 ∧ (r.rest ≠ none → r.values.length = max - 1) := by
  induction command generalizing token tokens with
  | nil =>
    unfold tokenizeLoop wordsFrom
    split_ifs with htoken
    · simp [h.le]
    · simp only [Option.elim_none, append_nil, length_append, length_singleton,
        ne_eq, not_true_eq_false, false_implies, and_true, true_and]
      omega
  | cons b command ih =>
    unfold tokenizeLoop wordsFrom
    split_ifs with hspace htoken hfull hend
    · exact ih [] tokens h
    · subst hend
      simp [wordsFrom, hfull]
    · exact ⟨by simp [words], hfull.le, fun _ => hfull⟩
    · have hlt : (tokens ++ [token]).length < max - 1 := by
        rw [length_append, length_singleton] at hfull ⊢
        omega
      have := ih [] (tokens ++ [token]) hlt
      rwa [append_assoc] at this
    · exact ih (token ++ [b]) tokens h

theorem words_eq_tokenizeCommand (command : Bytes) : words command =
      (tokenizeCommand command).values ++ (tokenizeCommand command).rest.elim [] words :=
  (tokenizeLoop_spec maxTokens command [] [] (by decide)).1

theorem length_tokenizeCommand_of_rest {command : Bytes}
    (h : (tokenizeCommand command).rest ≠ none) : (tokenizeCommand command).values.length = 7 :=
  (tokenizeLoop_spec maxTokens command [] [] (by decide)).2.2 h

theorem head?_tokenizeCommand (command : Bytes) :
    (tokenizeCommand command).values.head? = (words command).head? := by
  rw [words_eq_tokenizeCommand]
  cases hvalues : (tokenizeCommand command).values with
  | cons => rfl
  | nil =>
    cases hrest : (tokenizeCommand command).rest with
    | none => rfl
    | some rest =>
      have := length_tokenizeCommand_of_rest (by rw [hrest]; simp)
      rw [hvalues] at this
      cases this

theorem tokenizeCommand_of_words {command : Bytes} (h : (words command).length ≤ 7) :
    (tokenizeCommand command).values = words command := by
  have hwords := words_eq_tokenizeCommand command
  cases hrest : (tokenizeCommand command).rest with
  | none => rw [hwords, hrest, Option.elim_none, append_nil]
  | some rest =>
    have hlength := @length_tokenizeCommand_of_rest command (by rw [hrest]; simp)
    rw [hrest, Option.elim_some] at hwords
    rw [hwords, length_append] at h
    rw [hwords, length_eq_zero_iff.1 (show (words rest).length = 0 by omega), append_nil]

/-! ## Lines built from words -/

def IsWord (w : Bytes) : Prop := w ≠ [] ∧ 32 ∉ w

def line (ws : List Bytes) : Bytes := [32].intercalate ws

theorem line_cons_cons (w w' : Bytes) (ws : List Bytes) :
    line (w :: w' :: ws) = w ++ 32 :: line (w' :: ws) := by
  simp [line, List.intercalate]

theorem wordsFrom_append {w : Bytes} (h : 32 ∉ w) (rest token : Bytes) :
    wordsFrom (w ++ rest) token = wordsFrom rest (token ++ w) := by
  induction w generalizing token with
  | nil => rw [nil_append, append_nil]
  | cons b w ih =>
    rw [mem_cons, not_or] at h
    rw [cons_append, wordsFrom, if_neg (Ne.symm h.1), ih h.2, append_assoc, singleton_append]

theorem words_line {ws : List Bytes} (h : ∀ w ∈ ws, IsWord w) : words (line ws) = ws := by
  induction ws with
  | nil => rfl
  | cons w ws ih =>
    obtain ⟨hne, hspace⟩ := h w mem_cons_self
    cases ws with
    | nil =>
      have : line [w] = w ++ [] := by simp [line, List.intercalate]
      rw [words, this, wordsFrom_append hspace, nil_append, wordsFrom, if_neg hne]
    | cons w' ws =>
      rw [words, line_cons_cons, wordsFrom_append hspace, nil_append, wordsFrom, if_neg hne]
      exact congrArg _ (ih fun w'' hw'' => h w'' (mem_cons_of_mem _ hw''))

/-! ## Numbers -/

variable (str : Bytes)

def isSpace (b : UInt8) : Bool := b = 32 || (9 ≤ b && b ≤ 13)

def takeSign : Bytes → Bool × Bytes
  | [] => (false, [])
  | b :: s => if b = 45 then (true, s) else if b = 43 then (false, s) else (false, b :: s)

/-- What `strtol` and its relatives read: a sign, the value of the digits, and where they stop.
There is nothing to read without a digit. -/
def scanNumber : Option (Bool × ℕ × Bytes) :=
  let (negative, s) := takeSign (str.dropWhile isSpace)
  let digits := s.takeWhile fun b => decide (IsDigit b)
  if digits = [] then none
  else some (negative, value 0 digits, s.dropWhile fun b => decide (IsDigit b))

/-- The check that the parsers make on `endptr`. -/
def endOk : Bytes → Bool
  | [] => true
  | b :: _ => isSpace b

/-- `safe_strtol`: the `long` is stored in 32 bits. -/
def safeStrtol : Option ℤ :=
  match scanNumber str with
  | none => none
  | some (negative, n, rest) =>
    let l : ℤ := if negative then -n else n
    if l < -2 ^ 63 ∨ 2 ^ 63 ≤ l then none
    else if endOk rest then some (l.bmod (2 ^ 32)) else none

/-- `strtoul`: a negative number wraps around. -/
def strtoul (negative : Bool) (n : ℕ) : ℕ := if negative then (2 ^ 64 - n) % 2 ^ 64 else n

def safeStrtoull : Option ℕ :=
  match scanNumber str with
  | none => none
  | some (negative, n, rest) =>
    let ull := strtoul negative n
    if 2 ^ 64 ≤ n then none
    else if endOk rest then if 2 ^ 63 ≤ ull ∧ 45 ∈ str then none else some ull
    else none

/-- `safe_strtoul`: the `unsigned long` is stored in 32 bits. -/
def safeStrtoul : Option ℕ := (safeStrtoull str).map (· % 2 ^ 32)

theorem isSpace_of_isDigit {b : UInt8} (h : IsDigit b) : isSpace b = false := by
  obtain ⟨hlo, hhi⟩ := h
  unfold isSpace
  simp only [Bool.or_eq_false_iff, decide_eq_false_iff_not, Bool.and_eq_false_iff]
  refine ⟨fun heq => ?_, .inr fun hle => ?_⟩
  · subst heq
    exact absurd hlo (by decide)
  · have : b.toNat ≤ 13 := hle
    omega

variable {digits : Bytes}

variable (hne : digits ≠ []) (h : ∀ b ∈ digits, IsDigit b)

include hne h

theorem scanNumber_digits : scanNumber digits = some (false, value 0 digits, []) := by
  cases digits with
  | nil => exact absurd rfl hne
  | cons b rest =>
    have hb := h b mem_cons_self
    have htake : (b :: rest).takeWhile (fun b => decide (IsDigit b)) = b :: rest :=
      takeWhile_eq_self_iff.2 fun x hx => by simpa using h x hx
    have hdrop : (b :: rest).dropWhile (fun b => decide (IsDigit b)) = [] :=
      dropWhile_eq_nil_iff.2 fun x hx => by simpa using h x hx
    have hspace : (b :: rest).dropWhile isSpace = b :: rest := by
      rw [dropWhile_cons_of_neg (by simp [isSpace_of_isDigit hb])]
    have hsign : takeSign (b :: rest) = (false, b :: rest) := by
      have hminus : b ≠ 45 := fun heq => absurd (heq ▸ hb) (by decide)
      have hplus : b ≠ 43 := fun heq => absurd (heq ▸ hb) (by decide)
      rw [takeSign, if_neg hminus, if_neg hplus]
    unfold scanNumber
    simp only [hspace, hsign, htake, hdrop, hne, if_false]

theorem scanNumber_minus : scanNumber (45 :: digits) = some (true, value 0 digits, []) := by
  have htake : digits.takeWhile (fun b => decide (IsDigit b)) = digits :=
    takeWhile_eq_self_iff.2 fun x hx => by simpa using h x hx
  have hdrop : digits.dropWhile (fun b => decide (IsDigit b)) = [] :=
    dropWhile_eq_nil_iff.2 fun x hx => by simpa using h x hx
  unfold scanNumber
  rw [dropWhile_cons_of_neg (by decide)]
  simp only [takeSign, if_true, htake, hdrop, hne, if_false]

theorem safeStrtoull_digits
    (hlt : value 0 digits < 2 ^ 64) : safeStrtoull digits = some (value 0 digits) := by
  unfold safeStrtoull
  have hminus : 45 ∉ digits := fun hmem => absurd (h 45 hmem) (by decide)
  simp only [scanNumber_digits hne h, strtoul, endOk, if_neg hlt.not_ge, hminus, and_false,
    Bool.false_eq_true, if_false, if_true]

theorem safeStrtol_digits (hlt : value 0 digits < 2 ^ 63) :
    safeStrtol digits = some ((value 0 digits : ℤ).bmod (2 ^ 32)) := by
  unfold safeStrtol
  simp only [scanNumber_digits hne h, endOk, Bool.false_eq_true, if_false, if_true]
  rw [if_neg (by omega)]

theorem safeStrtol_minus (hlt : value 0 digits < 2 ^ 63) :
    safeStrtol (45 :: digits) = some ((-(value 0 digits : ℤ)).bmod (2 ^ 32)) := by
  unfold safeStrtol
  simp only [scanNumber_minus hne h, endOk, if_true]
  rw [if_neg (by omega)]

end ServerStack.Memcached
