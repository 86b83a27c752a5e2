import ServerStack.Redis.Util

/-!
# Splitting a line into arguments

`sdssplitargs` of `sds.c`, and `fgets` and `atoi` of the C library, on the bytes of a string.  A
line of plain words that are separated by single blanks splits into these words, and a line of
quotations of `sdscatrepr` into the strings that were quoted.
-/

namespace ServerStack.Redis.Sds

open Util Decimal List Option

def ascii (s : String) : Bytes := s.toList.map fun c => UInt8.ofNat c.toNat

/-! ## `sdssplitargs` -/

/-- `inq` and `insq`. -/
inductive Quote where
  | none
  | double
  | single
  deriving DecidableEq, Repr

def isHexDigit (b : UInt8) : Bool := (48 ≤ b && b ≤ 57) || (97 ≤ b && b ≤ 102) || (65 ≤ b && b ≤ 70)

def hexDigitToInt (b : UInt8) : UInt8 :=
  if 48 ≤ b ∧ b ≤ 57 then b - 48 else if 97 ≤ b ∧ b ≤ 102 then b - 87
  else if 65 ≤ b ∧ b ≤ 70 then b - 55 else 0

/-- What a letter after a backslash stands for. -/
def unescape (b : UInt8) : UInt8 :=
  if b = 110 then 10 else if b = 114 then 13 else if b = 116 then 9 else if b = 98 then 8
  else if b = 97 then 7 else b

def isDelimiter (b : UInt8) : Bool := b = 32 || b = 10 || b = 13 || b = 9

/-- `while(!done)`: the token and what follows it, or `none` on unbalanced quotes. -/
def readToken : Quote → Bytes → Bytes → Option (Bytes × Bytes)
  | .none, current, [] => some (current, [])
  | .none, current, c :: p =>
    if isDelimiter c then some (current, p)
    else if c = 34 then readToken .double current p
    else if c = 39 then readToken .single current p
    else readToken .none (current ++ [c]) p
  | .double, _, [] => none
  | .double, current, 92 :: 120 :: a :: b :: p =>
    if isHexDigit a && isHexDigit b then
      readToken .double (current ++ [hexDigitToInt a * 16 + hexDigitToInt b]) p
    else readToken .double (current ++ [120]) (a :: b :: p)
  | .double, current, 92 :: c :: p => readToken .double (current ++ [unescape c]) p
  | .double, current, 34 :: p => if p.head?.all isSpace then some (current, p) else none
  | .double, current, c :: p => readToken .double (current ++ [c]) p
  | .single, _, [] => none
  | .single, current, 92 :: 39 :: p => readToken .single (current ++ [39]) p
  | .single, current, 39 :: p => if p.head?.all isSpace then some (current, p) else none
  | .single, current, c :: p => readToken .single (current ++ [c]) p

/-- `while(1)`; each round takes at least one byte. -/
def splitLoop : ℕ → Bytes → Option (List Bytes)
  | 0, _ => some []
  | fuel + 1, p =>
    match p.dropWhile isSpace with
    | [] => some []
    | p => do
      let (token, p) ← readToken .none [] p
      let vector ← splitLoop fuel p
      return token :: vector

/-- `sdssplitargs`, on a string that ends before its first NUL. -/
def sdssplitargs (line : Bytes) : Option (List Bytes) :=
  let s := line.takeWhile (· ≠ 0)
  splitLoop (s.length + 1) s

def Plain (b : UInt8) : Prop := 32 < b ∧ b < 127 ∧ b ≠ 34 ∧ b ≠ 39

instance : DecidablePred Plain := fun _ => inferInstanceAs (Decidable (_ ∧ _))

variable {b : UInt8} {token : Bytes}

theorem Plain.cases (h : Plain b) :
    isSpace b = false ∧ isDelimiter b = false ∧ b ≠ 34 ∧ b ≠ 39 ∧ b ≠ 0 ∧ b ≠ 10 := by
  revert b
  decide +kernel

theorem readToken_plain (h : ∀ b ∈ token, Plain b) (current : Bytes) {c : UInt8}
    (hc : isDelimiter c = true) (rest : Bytes) :
    readToken .none current (token ++ c :: rest) = some (current ++ token, rest) := by
  induction token generalizing current with
  | nil => rw [nil_append, readToken, if_pos hc, append_nil]
  | cons b token ih =>
    obtain ⟨hb, htoken⟩ := forall_mem_cons.1 h
    obtain ⟨-, hdelim, hdouble, hsingle, -⟩ := hb.cases
    rw [cons_append, readToken, if_neg (by rw [hdelim]; decide), if_neg hdouble,
      if_neg hsingle, ih htoken, append_assoc, singleton_append]

theorem dropWhile_isSpace_plain (hne : token ≠ []) (h : ∀ b ∈ token, Plain b) (rest : Bytes) :
    (token ++ rest).dropWhile isSpace = token ++ rest := by
  cases token with
  | nil => exact absurd rfl hne
  | cons b token =>
    have hb := (h b mem_cons_self).cases.1
    rw [cons_append, dropWhile_cons_of_neg (by rw [hb]; decide)]

theorem splitLoop_plain {tokens : List Bytes} {fuel : ℕ} (hfuel : tokens.length ≤ fuel)
    (h : ∀ t ∈ token :: tokens, t ≠ [] ∧ ∀ b ∈ t, Plain b) :
    splitLoop (fuel + 1) (token ++ (tokens.flatMap (32 :: ·) ++ [10])) = some (token :: tokens) := by
  induction tokens generalizing token fuel with
  | nil =>
    obtain ⟨hne, hplain⟩ := h token mem_cons_self
    obtain ⟨b, t, rfl⟩ := exists_cons_of_ne_nil hne
    have hrest : splitLoop fuel [] = some [] := by cases fuel <;> rfl
    rw [flatMap_nil, nil_append, splitLoop, dropWhile_isSpace_plain hne hplain, cons_append]
    simp only
    rw [← cons_append, readToken_plain hplain [] rfl []]
    simp only [bind_eq_bind, bind_some, hrest, nil_append]
    rfl
  | cons next tokens ih =>
    obtain ⟨⟨hne, hplain⟩, htokens⟩ := forall_mem_cons.1 h
    obtain ⟨b, t, rfl⟩ := exists_cons_of_ne_nil hne
    obtain ⟨fuel, rfl⟩ : ∃ k, fuel = k + 1 := ⟨fuel - 1, by rw [length_cons] at hfuel; omega⟩
    have hsplit : (next :: tokens).flatMap (32 :: ·) ++ [10] =
        32 :: (next ++ (tokens.flatMap (32 :: ·) ++ [10])) := by
      rw [flatMap_cons, append_assoc, cons_append]
    have hrest := @ih next fuel (by rw [length_cons] at hfuel; omega) htokens
    rw [hsplit, splitLoop, dropWhile_isSpace_plain hne hplain, cons_append]
    simp only
    rw [← cons_append, readToken_plain hplain [] rfl]
    simp only [bind_eq_bind, bind_some, nil_append, hrest]
    rfl

def wordsLine (word : Bytes) (words : List Bytes) : Bytes :=
  word ++ (words.flatMap (32 :: ·) ++ [10])

theorem mem_wordsLine {word : Bytes} {words : List Bytes}
    (h : ∀ t ∈ word :: words, t ≠ [] ∧ ∀ b ∈ t, Plain b) (hb : b ∈ word ++ words.flatMap
    (32 :: ·)) :
    b ≠ 0 ∧ b ≠ 10 := by
  rcases mem_append.1 hb with hb | hb
  · obtain ⟨-, -, -, -, hzero, hnewline⟩ := ((h word mem_cons_self).2 b hb).cases
    exact ⟨hzero, hnewline⟩
  · obtain ⟨t, ht, hbt⟩ := mem_flatMap.1 hb
    rcases mem_cons.1 hbt with rfl | hbt
    · exact ⟨by decide, by decide⟩
    · obtain ⟨-, -, -, -, hzero, hnewline⟩ := ((h t (mem_cons_of_mem _ ht)).2 b hbt).cases
      exact ⟨hzero, hnewline⟩

theorem length_le_length_flatMap (words : List Bytes) :
    words.length ≤ (words.flatMap (32 :: ·)).length := by
  induction words with
  | nil => rfl
  | cons word words ih =>
    rw [flatMap_cons, length_append, length_cons, length_cons]
    omega

theorem sdssplitargs_wordsLine {word : Bytes} {words : List Bytes}
    (h : ∀ t ∈ word :: words, t ≠ [] ∧ ∀ b ∈ t, Plain b) :
    sdssplitargs (wordsLine word words) = some (word :: words) := by
  have hnul : (wordsLine word words).takeWhile (· ≠ 0) = wordsLine word words := by
    rw [takeWhile_eq_self_iff]
    intro b hb
    rw [wordsLine, ← append_assoc, mem_append] at hb
    rcases hb with hb | hb
    · exact decide_eq_true (mem_wordsLine h hb).1
    · rw [mem_singleton.1 hb]
      decide
  have hlength := length_le_length_flatMap words
  rw [sdssplitargs, hnul]
  refine splitLoop_plain ?_ h
  rw [wordsLine, length_append, length_append]
  omega

/-! ## `sdscatrepr` -/

/-- `isprint` in the C locale. -/
def isPrint (b : UInt8) : Bool := 32 ≤ b && b ≤ 126

/-- A digit of `%02x`. -/
def hexChar (d : UInt8) : UInt8 := if d < 10 then 48 + d else 87 + d

/-- `switch(*p)`: the quotation of one byte. -/
def reprByte (b : UInt8) : Bytes :=
  if b = 92 ∨ b = 34 then [92, b]
  else if b = 10 then [92, 110]
  else if b = 13 then [92, 114]
  else if b = 9 then [92, 116]
  else if b = 7 then [92, 97]
  else if b = 8 then [92, 98]
  else if isPrint b then [b]
  else [92, 120, hexChar (b / 16), hexChar (b % 16)]

/-- `sdscatlen`, and `sdscatprintf` for one byte.  The length is an `int`: it is negative from
`2 ^ 31` bytes on, and then the write is in front of the buffer. -/
def sdscatlen (s t : Bytes) : Option Bytes := if s.length < 2 ^ 31 then some (s ++ t) else none

/-- One append for each byte, between those of the quotes. -/
def sdscatrepr (s p : Bytes) : Option Bytes :=
  ([34] :: (p.map reprByte ++ [[34]])).foldlM sdscatlen s

def quoted (p : Bytes) : Bytes := 34 :: (p.flatMap reprByte ++ [34])

theorem foldlM_sdscatlen (ts : List Bytes) (s : Bytes) :
    ts.foldlM sdscatlen s = some (s ++ ts.flatten) ∨
      ts.foldlM sdscatlen s = none ∧ 2 ^ 31 ≤ (s ++ ts.flatten).length := by
  induction ts generalizing s with
  | nil => exact .inl (by rw [flatten_nil, append_nil]; rfl)
  | cons t ts ih =>
    rw [foldlM_cons, sdscatlen]
    split_ifs with h
    · rw [flatten_cons, ← append_assoc]
      exact ih (s ++ t)
    · apply Or.inr
      rw [length_append]
      exact ⟨rfl, by omega⟩

theorem sdscatrepr_eq {s p : Bytes} (h : (s ++ quoted p).length < 2 ^ 31) :
    sdscatrepr s p = some (s ++ quoted p) := by
  have hquoted : ([34] :: (p.map reprByte ++ [[34]])).flatten = quoted p := by
    simp [quoted, flatMap_def]
  rcases foldlM_sdscatlen ([34] :: (p.map reprByte ++ [[34]])) s with heq | ⟨-, hle⟩
  · rw [sdscatrepr, heq, hquoted]
  · rw [hquoted] at hle
    omega

theorem hexChar_cases (b : UInt8) :
    isHexDigit (hexChar (b / 16)) = true ∧ isHexDigit (hexChar (b % 16)) = true ∧
      hexDigitToInt (hexChar (b / 16)) * 16 + hexDigitToInt (hexChar (b % 16)) = b := by
  revert b
  decide +kernel

theorem ne_zero_of_mem_reprByte {c : UInt8} (hc : c ∈ reprByte b) : c ≠ 0 := by
  have hall : ∀ b, (reprByte b).all (· ≠ 0) = true := by decide +kernel
  exact of_decide_eq_true (all_eq_true.1 (hall b) c hc)

theorem readToken_reprByte (b : UInt8) (current rest : Bytes) :
    readToken .double current (reprByte b ++ rest) = readToken .double (current ++ [b]) rest := by
  rw [reprByte]
  split_ifs with hquoted hn hr ht ha hb hprint
  · rcases hquoted with rfl | rfl <;> simp [readToken, unescape]
  · simp [readToken, unescape, hn]
  · simp [readToken, unescape, hr]
  · simp [readToken, unescape, ht]
  · simp [readToken, unescape, ha]
  · simp [readToken, unescape, hb]
  · obtain ⟨hbackslash, hquote⟩ := not_or.1 hquoted
    rw [singleton_append, readToken] <;> simp [hbackslash, hquote]
  · obtain ⟨hhigh, hlow, hvalue⟩ := hexChar_cases b
    simp [readToken, hhigh, hlow, hvalue]

variable {rest : Bytes}

theorem readToken_quoted (p : Bytes) (hrest : rest.head?.all isSpace = true) :
    readToken .none [] (quoted p ++ rest) = some (p, rest) := by
  have hloop : ∀ (p current : Bytes),
      readToken .double current (p.flatMap reprByte ++ 34 :: rest) = some (current ++ p, rest) := by
    intro p
    induction p with
    | nil => simp [readToken, hrest]
    | cons b p ih => simp [flatMap_cons, readToken_reprByte, ih]
  have hopen : quoted p ++ rest = 34 :: (p.flatMap reprByte ++ 34 :: rest) := by
    simp [quoted]
  rw [hopen, readToken, if_neg (by decide), if_pos rfl, hloop, nil_append]

def quotedLine (ps : List Bytes) : Bytes := intercalate [32] (ps.map quoted)

/-- The quotations in one string, with a blank between them. -/
def reprLine : List Bytes → Option Bytes
  | [] => some []
  | p :: ps => do ps.foldlM (fun s q => do sdscatrepr (← sdscatlen s [32]) q) (← sdscatrepr [] p)

theorem splitLoop_blank (fuel : ℕ) (p : Bytes) :
    splitLoop (fuel + 1) (32 :: p) = splitLoop (fuel + 1) p := by
  rw [splitLoop, splitLoop, dropWhile_cons_of_pos rfl]

theorem splitLoop_quoted (fuel : ℕ) (p : Bytes) (hrest : rest.head?.all isSpace = true) :
    splitLoop (fuel + 1) (quoted p ++ rest) = (splitLoop fuel rest).map (p :: ·) := by
  have htoken := readToken_quoted p hrest
  rw [splitLoop]
  simp only [quoted, cons_append, append_assoc] at htoken ⊢
  rw [dropWhile_cons_of_neg (by decide)]
  simp only [htoken, bind_eq_bind, bind_some]
  cases splitLoop fuel rest <;> rfl

theorem intercalate_blank (w : Bytes) (ws : List Bytes) :
    intercalate [32] (w :: ws) = w ++ ws.flatMap (32 :: ·) := by
  induction ws generalizing w with
  | nil => simp
  | cons v ws ih => simp [intercalate_cons_cons, ih]

theorem head_flatMap_blank (ws : List Bytes) : (ws.flatMap (32 :: ·)).head?.all isSpace = true := by
  cases ws <;> rfl

theorem splitLoop_quotations {ps : List Bytes} {fuel : ℕ} (hfuel : ps.length ≤ fuel) :
    splitLoop fuel ((ps.map quoted).flatMap (32 :: ·)) = some ps := by
  induction ps generalizing fuel with
  | nil => cases fuel <;> rfl
  | cons p ps ih =>
    obtain ⟨fuel, rfl⟩ := Nat.exists_eq_add_of_le' (show 1 ≤ fuel by simp at hfuel; omega)
    rw [map_cons, flatMap_cons, cons_append, splitLoop_blank,
      splitLoop_quoted _ _ (head_flatMap_blank _), ih (by simpa using hfuel), map_some]

theorem ne_zero_of_mem_quoted {p : Bytes} (hb : b ∈ quoted p) : b ≠ 0 := by
  rw [quoted, mem_cons, mem_append, mem_flatMap, mem_singleton] at hb
  rcases hb with rfl | ⟨c, -, hc⟩ | rfl
  · decide
  · exact ne_zero_of_mem_reprByte hc
  · decide

theorem ne_zero_of_mem_quotedLine {ps : List Bytes} (hb : b ∈ quotedLine ps) : b ≠ 0 := by
  cases ps with
  | nil => cases hb
  | cons p ps =>
    rw [quotedLine, map_cons, intercalate_blank, mem_append, mem_flatMap] at hb
    rcases hb with hb | ⟨w, hw, hb⟩
    · exact ne_zero_of_mem_quoted hb
    · obtain ⟨q, -, rfl⟩ := mem_map.1 hw
      rcases mem_cons.1 hb with rfl | hb
      · decide
      · exact ne_zero_of_mem_quoted hb

theorem sdssplitargs_quotedLine (ps : List Bytes) : sdssplitargs (quotedLine ps) = some ps := by
  have hnul : (quotedLine ps).takeWhile (· ≠ 0) = quotedLine ps :=
    takeWhile_eq_self_iff.2 fun b hb => decide_eq_true (ne_zero_of_mem_quotedLine hb)
  rw [sdssplitargs, hnul]
  cases ps with
  | nil => rfl
  | cons p ps =>
    have hlength := length_le_length_flatMap (ps.map quoted)
    rw [length_map] at hlength
    rw [quotedLine, map_cons, intercalate_blank, splitLoop_quoted _ _ (head_flatMap_blank _),
      splitLoop_quotations (by rw [length_append]; omega), map_some]

theorem reprLine_eq {ps : List Bytes} (h : (quotedLine ps).length < 2 ^ 31) :
    reprLine ps = some (quotedLine ps) := by
  have hloop : ∀ (ps : List Bytes) (s : Bytes),
      (s ++ (ps.map quoted).flatMap (32 :: ·)).length < 2 ^ 31 →
      ps.foldlM (fun s q => do sdscatrepr (← sdscatlen s [32]) q) s =
        some (s ++ (ps.map quoted).flatMap (32 :: ·)) := by
    intro ps
    induction ps with
    | nil => exact fun s _ => by rw [map_nil, flatMap_nil, append_nil]; rfl
    | cons q ps ih =>
      intro s hlen
      have hassoc : s ++ ((q :: ps).map quoted).flatMap (32 :: ·) =
          (s ++ [32] ++ quoted q) ++ (ps.map quoted).flatMap (32 :: ·) := by simp
      rw [hassoc] at hlen ⊢
      have hs : s.length < 2 ^ 31 := by
        simp only [length_append] at hlen
        omega
      have hq : (s ++ [32] ++ quoted q).length < 2 ^ 31 := by
        rw [length_append] at hlen
        omega
      rw [foldlM_cons, sdscatlen, if_pos hs]
      simp only [bind_eq_bind, bind_some]
      rw [sdscatrepr_eq hq, bind_some]
      exact ih _ hlen
  cases ps with
  | nil => rfl
  | cons p ps =>
    rw [quotedLine, map_cons, intercalate_blank] at h ⊢
    have hp : ([] ++ quoted p).length < 2 ^ 31 := by
      rw [length_append] at h
      rw [nil_append]
      omega
    rw [reprLine, sdscatrepr_eq hp]
    exact hloop ps (quoted p) h

/-- Parsing a line of quotations of fewer than `2 ^ 31` bytes gives the strings that were quoted. -/
theorem sdssplitargs_reprLine (ps : List Bytes) (h : (quotedLine ps).length < 2 ^ 31) :
    (reprLine ps).bind sdssplitargs = some ps := by
  rw [reprLine_eq h, bind_some]
  exact sdssplitargs_quotedLine ps

theorem sdssplitargs_reprLine_nul :
    (reprLine [[], [0, 34, 255, 10]]).bind sdssplitargs = some [[], [0, 34, 255, 10]] :=
  sdssplitargs_reprLine _ (by decide)

theorem reprLine_ones {n : ℕ} (h : 2 ^ 31 ≤ 4 * n + 1) : reprLine [replicate n 1] = none := by
  have hopen : reprLine [replicate n 1] =
      (([34] :: (replicate n 1).map reprByte).foldlM sdscatlen []).bind
        fun s => sdscatlen s [34] := by
    rw [reprLine, sdscatrepr, ← cons_append, foldlM_append]
    simp [foldlM_cons, foldlM_nil]
  have hone : (reprByte 1).length = 4 := rfl
  have hlen : ([] ++ ([34] :: (replicate n 1).map reprByte).flatten : Bytes).length =
      n * 4 + 1 := by
    simp [hone]
  rw [hopen]
  rcases foldlM_sdscatlen ([34] :: (replicate n 1).map reprByte) [] with heq | ⟨heq, -⟩
  · rw [heq, bind_some, sdscatlen, hlen, if_neg (by omega)]
  · rw [heq, bind_none]

/-- The quotation of `2 ^ 29` bytes of value 1 has `2 ^ 31 + 1` bytes before the closing quote. -/
theorem reprLine_long : reprLine [replicate (2 ^ 29) 1] = none := by
  apply reprLine_ones
  norm_num

/-! ## Lines and numbers of the C library -/

/-- `fgets`: a line with its newline, and the rest of the file. -/
def fgets (size : ℕ) (file : Bytes) : Option (Bytes × Bytes) :=
  if file = [] then none
  else
    let chunk := file.take (size - 1)
    let line := chunk.takeWhile (· ≠ 10)
    let line := if line.length < chunk.length then line ++ [10] else line
    some (line, file.drop line.length)

theorem fgets_line {size : ℕ} {line : Bytes} (h : ∀ b ∈ line, b ≠ 10)
    (hsize : line.length + 1 < size) (rest : Bytes) :
    fgets size (line ++ [10] ++ rest) = some (line ++ [10], rest) := by
  obtain ⟨k, hk⟩ : ∃ k, size - 1 = (line ++ [10]).length + k :=
    ⟨size - 1 - (line ++ [10]).length, by rw [length_append, length_singleton]; omega⟩
  have hchunk : (line ++ [10] ++ rest).take (size - 1) = line ++ (10 :: rest.take k) := by
    rw [hk, take_length_add_append, append_assoc, singleton_append]
  have hline : (line ++ (10 :: rest.take k)).takeWhile (· ≠ 10) = line := by
    rw [takeWhile_append_of_pos fun b hb => decide_eq_true (h b hb),
      takeWhile_cons_of_neg (by decide), append_nil]
  have hlt : line.length < (line ++ (10 :: rest.take k)).length := by
    rw [length_append, length_cons]
    omega
  rw [fgets, if_neg (by simp)]
  simp only [hchunk, hline, if_pos hlt, drop_left]

def atoi (s : Bytes) : ℤ := (strtoll s).1.bmod (2 ^ 32)

theorem IsDigit.cases (h : IsDigit b) : isSpace b = false ∧ b ≠ 45 ∧ b ≠ 43 := by
  revert b
  decide +kernel

theorem takeWhile_decimal (n : ℕ) (hrest : ∀ b ∈ rest.head?, ¬ IsDigit b) :
    (decimal n ++ rest).takeWhile (fun d => decide (IsDigit d)) = decimal n := by
  have hdigits : ∀ d ∈ decimal n, decide (IsDigit d) = true := fun d hd =>
    decide_eq_true (isDigit_of_mem_decimal hd)
  have htail : rest.takeWhile (fun d => decide (IsDigit d)) = [] := by
    cases rest with
    | nil => rfl
    | cons d rest => exact takeWhile_cons_of_neg (by simpa using hrest d rfl)
  rw [takeWhile_append_of_pos hdigits, htail, append_nil]

theorem strtoll_minus (n : ℕ) (hrest : ∀ b ∈ rest.head?, ¬ IsDigit b) :
    (strtoll (45 :: (decimal n ++ rest))).1 = max (-2 ^ 63) (-n : ℤ) := by
  have hdrop : (45 :: (decimal n ++ rest)).dropWhile isSpace = 45 :: (decimal n ++ rest) :=
    dropWhile_cons_of_neg (by decide)
  simp only [strtoll, hdrop, readSign, takeWhile_decimal n hrest, if_neg (decimal_ne_nil n),
    value_decimal, if_true]
  omega

theorem readSign_decimal (n : ℕ) (rest : Bytes) :
    readSign ((decimal n ++ rest).dropWhile isSpace) = (false, decimal n ++ rest) := by
  obtain ⟨b, t, hbt⟩ := exists_cons_of_ne_nil (decimal_ne_nil n)
  obtain ⟨hspace, hminus, hplus⟩ := IsDigit.cases
    (isDigit_of_mem_decimal (show b ∈ decimal n by rw [hbt]; exact mem_cons_self))
  rw [hbt, cons_append, dropWhile_cons_of_neg (by rw [hspace]; decide), readSign]
  · exact fun s h => hminus (List.cons.inj h).1
  · exact fun s h => hplus (List.cons.inj h).1

theorem strtoll_decimal (n : ℕ) (hrest : ∀ b ∈ rest.head?, ¬ IsDigit b) :
    (strtoll (decimal n ++ rest)).1 = min (2 ^ 63 - 1) (n : ℤ) := by
  simp only [strtoll, readSign_decimal, takeWhile_decimal n hrest, if_neg (decimal_ne_nil n),
    value_decimal, Bool.false_eq_true, if_false]
  omega

theorem atoi_decimal {n : ℕ} (h : n < 2 ^ 31)
    (hrest : ∀ b ∈ rest.head?, ¬ IsDigit b) : atoi (decimal n ++ rest) = n := by
  rw [atoi, strtoll_decimal n hrest, Int.bmod_def]
  split_ifs <;> omega

end ServerStack.Redis.Sds
