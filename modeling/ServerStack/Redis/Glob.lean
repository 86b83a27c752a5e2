import ServerStack.Redis.Util

/-!
# Glob-style patterns

`stringmatchlen` of `util.c`.  The pattern and the string are buffers that a NUL follows; a length
and its pointer always move together, so a position stands for both.  `char` is signed, as it is on
the platforms the server is built for.  A pattern is read as a list of elements, and the function
decides whether the string belongs to the language of these, with the exceptions that the theorems
name: a class that ends in a lone backslash, an empty string, and ranges across the sign.
-/

namespace ServerStack.Redis.Glob

open Util List

inductive Fault where
  /-- A read behind the NUL of a buffer. -/
  | outside
  /-- A loop that counts a length down from below zero. -/
  | unfinished
  deriving DecidableEq, Repr

/-- A pointer into a buffer, and the length that goes with it. -/
structure Cursor where
  buffer : Bytes
  pos : ℕ

namespace Cursor

variable (c : Cursor)

/-- `patternLen` or `stringLen`. -/
def len : ℤ := c.buffer.length - c.pos

/-- `pattern[k]` or `string[k]`. -/
def get (k : ℕ) : Except Fault UInt8 :=
  if c.pos + k ≤ c.buffer.length then .ok (c.buffer.getD (c.pos + k) 0) else .error .outside

/-- `pattern += k; patternLen -= k`. -/
def advance (k : ℕ) : Cursor := { c with pos := c.pos + k }

/-- `pattern--; patternLen++`. -/
def back : Cursor := { c with pos := c.pos - 1 }

end Cursor

/-! ## The function -/

/-- A `char` as an `int`. -/
def char (b : UInt8) : ℤ := b.toInt8.toInt

def tolower (c : ℤ) : ℤ := if 65 ≤ c ∧ c ≤ 90 then c + 32 else c

/-- `while (pattern[k] == '*')`. -/
def skipStars (k : ℕ) : ℕ → Cursor → Except Fault Cursor
  | 0, _ => .error .unfinished
  | fuel + 1, pattern => do
    if (← pattern.get k) = 42 then skipStars k fuel (pattern.advance 1) else return pattern

section

variable (nocase : Bool)

def sameByte (p s : UInt8) : Bool :=
  if nocase then tolower (char p) = tolower (char s) else p = s

def inRange (p₁ p₂ s : UInt8) : Bool :=
  let start := if char p₁ > char p₂ then char p₂ else char p₁
  let stop := if char p₁ > char p₂ then char p₁ else char p₂
  if nocase then tolower (char s) ≥ tolower start ∧ tolower (char s) ≤ tolower stop
  else char s ≥ start ∧ char s ≤ stop

/-- The loop over a class, with the pattern at its last byte and `match`. -/
def classLoop (string : Cursor) : ℕ → Cursor → Bool → Except Fault (Cursor × Bool)
  | 0, _, _ => .error .unfinished
  | fuel + 1, pattern, found => do
    let p ← pattern.get 0
    if p = 92 then
      let pattern := pattern.advance 1
      let same := decide ((← pattern.get 0) = (← string.get 0))
      classLoop string fuel (pattern.advance 1) (found || same)
    else if p = 93 then return (pattern, found)
    else if pattern.len = 0 then return (pattern.back, found)
    else if (← pattern.get 1) = 45 ∧ pattern.len ≥ 3 then
      let inside := inRange nocase p (← pattern.get 2) (← string.get 0)
      classLoop string fuel (pattern.advance 3) (found || inside)
    else
      let same := sameByte nocase p (← string.get 0)
      classLoop string fuel (pattern.advance 1) (found || same)

/-- The cases of the switch that take one byte of the string: both pointers at the end of the case,
or no match. -/
def matchOne (pattern string : Cursor) : Except Fault (Option (Cursor × Cursor)) := do
  let p ← pattern.get 0
  if p = 63 then
    return if string.len = 0 then none else some (pattern, string.advance 1)
  else if p = 91 then
    let pattern := pattern.advance 1
    let negated := decide ((← pattern.get 0) = 94)
    let pattern := if negated then pattern.advance 1 else pattern
    let (pattern, found) ← classLoop nocase string (pattern.buffer.length + 2) pattern false
    return if found = negated then none else some (pattern, string.advance 1)
  else
    let pattern := if p = 92 ∧ pattern.len ≥ 2 then pattern.advance 1 else pattern
    let same := sameByte nocase (← pattern.get 0) (← string.get 0)
    return if same then some (pattern, string.advance 1) else none

/-- `while(stringLen)` in the case of a star. -/
def starLoop (rest : Cursor → Except Fault Bool) : ℕ → Cursor → Except Fault Bool
  | 0, _ => .error .unfinished
  | fuel + 1, string =>
    if string.len = 0 then .ok false
    else do
      if ← rest string then return true
      starLoop rest fuel (string.advance 1)

def matchLoop : ℕ → Cursor → Cursor → Except Fault Bool
  | 0, _, _ => .error .unfinished
  | fuel + 1, pattern, string =>
    if pattern.len = 0 then .ok (string.len = 0)
    else do
      if (← pattern.get 0) = 42 then
        let pattern ← skipStars 1 (pattern.buffer.length + 1) pattern
        if pattern.len = 1 then return true
        starLoop (matchLoop fuel (pattern.advance 1)) (string.buffer.length + 1) string
      else
        match ← matchOne nocase pattern string with
        | none => return false
        | some (pattern, string) =>
          let pattern := pattern.advance 1
          if string.len = 0 then
            let pattern ← skipStars 0 (pattern.buffer.length + 1) pattern
            return pattern.len = 0
          matchLoop fuel pattern string

end

def stringmatchlen (pattern string : Bytes) (nocase : Bool) : Except Fault Bool :=
  matchLoop nocase (pattern.length + 1) ⟨pattern, 0⟩ ⟨string, 0⟩

/-! ## The grammar -/

inductive Item where
  | quoted (b : UInt8)
  | byte (b : UInt8)
  | range (a b : UInt8)
  deriving DecidableEq, Repr

inductive Element where
  | star
  | any
  | set (negated : Bool) (items : List Item)
  | literal (b : UInt8)
  deriving DecidableEq, Repr

def consItem (item : Item) (read : Option (List Item × Bytes)) : Option (List Item × Bytes) :=
  read.map fun r => (item :: r.1, r.2)

/-- The items up to a bracket or the end of the pattern, and what follows; a backslash at the end
quotes nothing. -/
def readItems : Bytes → Option (List Item × Bytes)
  | [] => some ([], [])
  | [p] => if p = 92 then none else if p = 93 then some ([], []) else some ([.byte p], [])
  | [p, q] =>
    if p = 92 then some ([.quoted q], [])
    else if p = 93 then some ([], [q])
    else consItem (.byte p) (readItems [q])
  | p :: q :: b :: rest =>
    if p = 92 then consItem (.quoted q) (readItems (b :: rest))
    else if p = 93 then some ([], q :: b :: rest)
    else if q = 45 then consItem (.range p b) (readItems rest)
    else consItem (.byte p) (readItems (q :: b :: rest))

def readElement : Bytes → Option (Element × Bytes)
  | [] => none
  | p :: rest =>
    if p = 42 then some (.star, rest)
    else if p = 63 then some (.any, rest)
    else if p = 91 then
      let negated := decide (rest.head? = some 94)
      (readItems (if negated then rest.tail else rest)).map fun r => (.set negated r.1, r.2)
    else
      match rest with
      | b :: more => if p = 92 then some (.literal b, more) else some (.literal p, b :: more)
      | [] => some (.literal p, [])

/-- A pattern is read as some elements; nothing is left, or a class that ends in a lone backslash. -/
inductive Elements : Bytes → List Element → Bytes → Prop where
  | stop {left : Bytes} : readElement left = none → Elements left [] left
  | cons {pattern rest left : Bytes} {e : Element} {es : List Element} :
      readElement pattern = some (e, rest) → Elements rest es left → Elements pattern (e :: es) left

/-- The language of some elements, where `accepts` says which bytes an element takes. -/
def Matches (accepts : Element → UInt8 → Bool) : List Element → Bytes → Prop
  | [], s => s = []
  | .star :: es, s => ∃ t, t <:+ s ∧ Matches accepts es t
  | e :: es, c :: s => accepts e c = true ∧ Matches accepts es s
  | _ :: _, [] => False

def Item.accepts (c : UInt8) : Item → Bool
  | .quoted b => c = b
  | .byte b => c = b
  | .range a b => (a ≤ c ∧ c ≤ b) ∨ (b ≤ c ∧ c ≤ a)

def Element.accepts : Element → UInt8 → Bool
  | .star, _ => false
  | .any, _ => true
  | .set negated items, c => items.any (·.accepts c) != negated
  | .literal b, c => c = b

/-! ## Reading through a pointer -/

/-- The pointer is in its buffer, in front of this text. -/
structure At (c : Cursor) (rest : Bytes) : Prop where
  pos_le : c.pos ≤ c.buffer.length
  drop_eq : c.buffer.drop c.pos = rest

section

variable {c : Cursor} {rest : Bytes}

theorem at_start (buffer : Bytes) : At ⟨buffer, 0⟩ buffer := ⟨Nat.zero_le _, rfl⟩

theorem At.length_eq (h : At c rest) : c.buffer.length = c.pos + rest.length := by
  have hlength := congrArg List.length h.drop_eq
  have := h.pos_le
  rw [length_drop] at hlength
  omega

theorem At.len_eq (h : At c rest) : c.len = rest.length := by
  have := h.length_eq
  unfold Cursor.len
  omega

theorem At.len_nil (h : At c []) : c.len = 0 := h.len_eq

theorem At.get (h : At c rest) {k : ℕ} (hk : k ≤ rest.length) : c.get k = .ok (rest.getD k 0) := by
  have := h.length_eq
  unfold Cursor.get
  rw [if_pos (by omega), ← h.drop_eq, getD_eq_getElem?_getD, getD_eq_getElem?_getD, getElem?_drop]

theorem At.get_zero (h : At c rest) : c.get 0 = .ok (rest.headD 0) := by
  rw [h.get (Nat.zero_le _)]
  cases rest <;> rfl

theorem At.advance {front : Bytes} (h : At c (front ++ rest)) : At (c.advance front.length) rest := by
  have hlength := h.length_eq
  rw [length_append] at hlength
  refine ⟨?_, ?_⟩
  · change c.pos + front.length ≤ c.buffer.length
    omega
  · change c.buffer.drop (c.pos + front.length) = rest
    rw [← drop_drop, h.drop_eq, drop_left]

theorem At.next {b : UInt8} (h : At c (b :: rest)) : At (c.advance 1) rest :=
  @At.advance c rest [b] h

/-- The pointer has left its buffer. -/
def Cursor.Beyond (c : Cursor) : Prop := c.buffer.length < c.pos

theorem Cursor.Beyond.get (h : c.Beyond) (k : ℕ) : c.get k = .error .outside :=
  if_neg (by unfold Beyond at h; omega)

theorem Cursor.Beyond.len_ne (h : c.Beyond) : c.len ≠ 0 := by
  unfold Beyond at h
  unfold len
  omega

theorem Cursor.Beyond.next (h : c.Beyond) : (c.advance 1).Beyond := Nat.lt_succ_of_lt h

theorem At.beyond (h : At c []) : (c.advance 1).Beyond := by
  have := h.length_eq
  rw [length_nil] at this
  unfold Cursor.Beyond Cursor.advance
  dsimp only
  omega

end

/-! ## Classes -/

section

variable (nocase : Bool)

def Item.test (s : UInt8) : Item → Bool
  | .quoted b => b = s
  | .byte b => sameByte nocase b s
  | .range a b => inRange nocase a b s

def Element.test : Element → UInt8 → Bool
  | .star, _ => false
  | .any, _ => true
  | .set negated items, s => items.any (·.test nocase s) != negated
  | .literal b, s => sameByte nocase b s

variable {nocase}

theorem consItem_eq_some {item : Item} {read : Option (List Item × Bytes)} {items : List Item}
    {rest : Bytes} (h : consItem item read = some (items, rest)) :
    ∃ items', read = some (items', rest) ∧ items = item :: items' := by
  obtain ⟨⟨items', rest'⟩, hread, heq⟩ := Option.map_eq_some_iff.1 h
  obtain ⟨rfl, rfl⟩ := Prod.mk.inj heq
  exact ⟨items', hread, rfl⟩

theorem readItems_quote (t : Bytes) : readItems (92 :: t) =
      match t with
      | [] => none
      | b :: t => consItem (.quoted b) (readItems t) := by
  rcases t with _ | ⟨b, _ | ⟨c, t⟩⟩ <;> rfl

theorem readItems_bracket (t : Bytes) : readItems (93 :: t) = some ([], t) := by
  rcases t with _ | ⟨b, _ | ⟨c, t⟩⟩ <;> rfl

theorem readItems_range {p b : UInt8} (hquote : p ≠ 92) (hbracket : p ≠ 93) (t : Bytes) :
    readItems (p :: 45 :: b :: t) = consItem (.range p b) (readItems t) := by
  rw [readItems, if_neg hquote, if_neg hbracket, if_pos rfl]

theorem readItems_byte {p : UInt8} (hquote : p ≠ 92) (hbracket : p ≠ 93) {t : Bytes}
    (ht : ¬ (t.getD 0 0 = 45 ∧ 2 ≤ t.length)) :
    readItems (p :: t) = consItem (.byte p) (readItems t) := by
  rcases t with _ | ⟨q, _ | ⟨b, t⟩⟩
  · exact (if_neg hquote).trans (if_neg hbracket)
  · exact (if_neg hquote).trans (if_neg hbracket)
  · rw [readItems, if_neg hquote, if_neg hbracket,
      if_neg fun hq : q = 45 => ht ⟨hq, Nat.le_add_left 2 _⟩]

theorem exists_range {t : Bytes} (h : t.getD 0 0 = 45 ∧ 2 ≤ t.length) :
    ∃ b t', t = 45 :: b :: t' := by
  rcases t with _ | ⟨q, _ | ⟨b, t⟩⟩
  · exact absurd h.2 (by decide)
  · exact absurd h.2 (by simp)
  · exact ⟨b, t, by rw [show q = 45 from h.1]⟩

/-- What the loop makes of a class; one that ends in a lone backslash is read past the pattern. -/
def ClassRead (nocase : Bool) (s : UInt8) (found : Bool) (o : Except Fault (Cursor × Bool)) :
    Option (List Item × Bytes) → Prop
  | none => o = .error .outside
  | some (items, rest) => ∃ pattern', At (pattern'.advance 1) rest ∧
      o = .ok (pattern', found || items.any (·.test nocase s))

theorem ClassRead.cons {s : UInt8} {found : Bool} {o : Except Fault (Cursor × Bool)}
    {read : Option (List Item × Bytes)} {item : Item}
    (h : ClassRead nocase s (found || item.test nocase s) o read) :
    ClassRead nocase s found o (consItem item read) := by
  cases read with
  | none => exact h
  | some r =>
    obtain ⟨pattern', hat, ho⟩ := h
    exact ⟨pattern', hat, by rw [ho, any_cons, Bool.or_assoc]⟩

theorem At.back {pattern : Cursor} {q : Bytes} (hq : At pattern q) (hpos : 0 < pattern.pos) :
    At (pattern.back.advance 1) q := by
  have hback : pattern.back.advance 1 = pattern := by
    unfold Cursor.back Cursor.advance
    rw [Nat.sub_add_cancel hpos]
  exact hback.symm ▸ hq

theorem classLoop_spec {string : Cursor} {s : UInt8} (hs : string.get 0 = .ok s) {fuel : ℕ}
    {pattern : Cursor} {q : Bytes} (hq : At pattern q) (hpos : 0 < pattern.pos)
    (hfuel : q.length + 1 < fuel) (found : Bool) :
    ClassRead nocase s found (classLoop nocase string fuel pattern found) (readItems q) := by
  induction fuel generalizing pattern q found with
  | zero => exact absurd hfuel (Nat.not_lt_zero _)
  | succ fuel ih =>
    rw [classLoop, hq.get_zero]
    dsimp only [bind, Except.bind]
    cases q with
    | nil =>
      rw [if_pos hq.len_nil]
      exact ⟨pattern.back, hq.back hpos, by rw [any_nil, Bool.or_false]; rfl⟩
    | cons p t =>
      rw [length_cons] at hfuel
      rw [headD_cons]
      by_cases hquote : p = 92
      · subst hquote
        rw [readItems_quote, if_pos rfl, hq.next.get_zero, hs]
        cases t with
        | nil =>
          obtain ⟨fuel, rfl⟩ : ∃ k, fuel = k + 1 := ⟨fuel - 1, by omega⟩
          dsimp only [ClassRead]
          rw [classLoop, hq.next.beyond.get]
          rfl
        | cons b t =>
          rw [length_cons] at hfuel
          exact (ih hq.next.next (Nat.succ_pos _) (by omega) _).cons
      rw [if_neg hquote]
      by_cases hbracket : p = 93
      · subst hbracket
        rw [readItems_bracket]
        exact ⟨pattern, hq.next, by rw [any_nil, Bool.or_false]; rfl⟩
      have hlen := hq.len_eq
      rw [length_cons] at hlen
      rw [if_neg hbracket, if_neg (by omega), hq.get (k := 1) (Nat.le_add_left 1 _)]
      dsimp only
      by_cases hrange : t.getD 0 0 = 45 ∧ 2 ≤ t.length
      · obtain ⟨b, t, rfl⟩ := exists_range hrange
        rw [readItems_range hquote hbracket, if_pos ⟨rfl, by simp at hlen; omega⟩,
          hq.get (k := 2) (by simp), hs]
        rw [length_cons, length_cons] at hfuel
        exact (ih hq.next.next.next (Nat.succ_pos _) (by omega) _).cons
      · rw [readItems_byte hquote hbracket hrange, if_neg fun h => hrange ⟨h.1, by omega⟩, hs]
        exact (ih hq.next (Nat.succ_pos _) (by omega) _).cons

/-- Without a byte to look at, only a class without items can be read. -/
theorem classLoop_beyond {string : Cursor} (hstring : string.Beyond) {pattern : Cursor} {q : Bytes}
    (hq : At pattern q) (hpos : 0 < pattern.pos) (fuel : ℕ) (found : Bool) :
    (∃ rest pattern', readItems q = some ([], rest) ∧ At (pattern'.advance 1) rest ∧
        classLoop nocase string (fuel + 1) pattern found = .ok (pattern', found)) ∨
      (∀ rest, readItems q ≠ some ([], rest)) ∧
        classLoop nocase string (fuel + 1) pattern found = .error .outside := by
  have hcons : ∀ item read (rest : Bytes), consItem item read ≠ some ([], rest) := by
    intro item read rest h
    obtain ⟨items, -, hitems⟩ := consItem_eq_some h
    cases hitems
  rw [classLoop, hq.get_zero, hstring.get]
  dsimp only [bind, Except.bind]
  cases q with
  | nil =>
    rw [if_pos hq.len_nil]
    exact .inl ⟨[], pattern.back, rfl, hq.back hpos, rfl⟩
  | cons p t =>
    rw [headD_cons]
    by_cases hquote : p = 92
    · subst hquote
      rw [readItems_quote, if_pos rfl, hq.next.get_zero]
      refine .inr ⟨fun rest => ?_, rfl⟩
      cases t with
      | nil => exact nofun
      | cons b t => exact hcons _ _ _
    rw [if_neg hquote]
    by_cases hbracket : p = 93
    · subst hbracket
      exact .inl ⟨t, pattern, readItems_bracket t, hq.next, rfl⟩
    have hlen := hq.len_eq
    rw [length_cons] at hlen
    rw [if_neg hbracket, if_neg (by omega), hq.get (k := 1) (Nat.le_add_left 1 _)]
    dsimp only
    by_cases hrange : t.getD 0 0 = 45 ∧ 2 ≤ t.length
    · obtain ⟨b, t, rfl⟩ := exists_range hrange
      rw [readItems_range hquote hbracket, if_pos ⟨rfl, by simp at hlen; omega⟩,
        hq.get (k := 2) (by simp)]
      exact .inr ⟨hcons _ _, rfl⟩
    · rw [readItems_byte hquote hbracket hrange, if_neg fun h => hrange ⟨h.1, by omega⟩]
      exact .inr ⟨hcons _ _, rfl⟩

/-- A question mark tests the length of the string, any other element its first byte. -/
def Element.takes (nocase : Bool) (e : Element) (string : Cursor) (s : UInt8) : Bool :=
  if e = .any then string.len ≠ 0 else e.test nocase s

/-- The element takes a byte without a look at it. -/
def Element.blind : Element → Bool
  | .any => true
  | .set true [] => true
  | _ => false

section

variable {pattern : Cursor} {p : UInt8} {rest : Bytes}

theorem matchOne_any (h : At pattern (63 :: rest)) (string : Cursor) :
    matchOne nocase pattern string =
      .ok (if string.len = 0 then none else some (pattern, string.advance 1)) := by
  rw [matchOne, h.get_zero]
  rfl

theorem matchOne_class (h : At pattern (91 :: rest)) (string : Cursor) :
    ∃ negated start q, At start q ∧ 0 < start.pos ∧
      readElement (91 :: rest) = (readItems q).map (fun r => (.set negated r.1, r.2)) ∧
      matchOne nocase pattern string =
        (classLoop nocase string (start.buffer.length + 2) start false).map fun r =>
          if r.2 = negated then none else some (r.1, string.advance 1) := by
  have hone : matchOne nocase pattern string =
      (let negated := decide (rest.headD 0 = 94)
      let start := if negated then (pattern.advance 1).advance 1 else pattern.advance 1
      (classLoop nocase string (start.buffer.length + 2) start false).map fun r =>
        if r.2 = negated then none else some (r.1, string.advance 1)) := by
    rw [matchOne, h.get_zero]
    dsimp only [bind, Except.bind]
    rw [headD_cons, if_neg (by decide), if_pos rfl, h.next.get_zero]
    rfl
  by_cases hnegated : rest.headD 0 = 94
  · obtain ⟨t, rfl⟩ : ∃ t, rest = 94 :: t := by
      cases rest with
      | nil => exact absurd hnegated (by decide)
      | cons b t => exact ⟨t, by rw [← hnegated, headD_cons]⟩
    exact ⟨true, (pattern.advance 1).advance 1, t, h.next.next, Nat.succ_pos _, rfl, hone⟩
  · refine ⟨false, pattern.advance 1, rest, h.next, Nat.succ_pos _, ?_, ?_⟩
    · have hhead : rest.head? ≠ some 94 := by
        cases rest with
        | nil => exact nofun
        | cons b t => exact fun h => hnegated (Option.some.inj h)
      simp [readElement, hhead]
    · rw [hone]
      simp only [hnegated, decide_false, Bool.false_eq_true, if_false]

theorem matchOne_literal (h : At pattern (p :: rest)) (hstar : p ≠ 42) (hany : p ≠ 63)
    (hset : p ≠ 91) (string : Cursor) : ∃ b rest' pattern',
      readElement (p :: rest) = some (.literal b, rest') ∧ At (pattern'.advance 1) rest' ∧
      matchOne nocase pattern string = (string.get 0).map fun s =>
        if sameByte nocase b s then some (pattern', string.advance 1) else none := by
  have hlen := h.len_eq
  unfold readElement matchOne
  rw [h.get_zero, headD_cons]
  dsimp only [bind, Except.bind]
  rw [if_neg hstar, if_neg hany, if_neg hset, if_neg hany, if_neg hset]
  by_cases hquote : p = 92 ∧ 2 ≤ (p :: rest).length
  · obtain ⟨b, rest, rfl⟩ : ∃ b rest', rest = b :: rest' := by
      cases rest with
      | nil => exact absurd hquote.2 (by simp)
      | cons b rest => exact ⟨b, rest, rfl⟩
    refine ⟨b, rest, pattern.advance 1, if_pos hquote.1, h.next.next, ?_⟩
    rw [if_pos ⟨hquote.1, by omega⟩, h.next.get_zero]
    rfl
  · refine ⟨p, rest, pattern, ?_, h.next, ?_⟩
    · cases rest with
      | nil => rfl
      | cons b rest => exact if_neg fun hp => hquote ⟨hp, Nat.le_add_left 2 _⟩
    · rw [if_neg fun h => hquote ⟨h.1, by omega⟩, h.get_zero]
      rfl

variable {string : Cursor}

theorem matchOne_spec {s : UInt8} {rest' : Bytes} {e : Element} (hs : string.get 0 = .ok s)
    (hpattern : At pattern (p :: rest)) (hp : p ≠ 42)
    (hread : readElement (p :: rest) = some (e, rest')) :
    ∃ pattern', At (pattern'.advance 1) rest' ∧ matchOne nocase pattern string =
      .ok (if e.takes nocase string s then some (pattern', string.advance 1) else none) := by
  by_cases hany : p = 63
  · subst hany
    cases hread
    refine ⟨pattern, hpattern.next, ?_⟩
    rw [matchOne_any hpattern]
    by_cases hlen : string.len = 0 <;> simp [Element.takes, hlen]
  by_cases hset : p = 91
  · subst hset
    obtain ⟨negated, start, q, hq, hpos, hclass, hone⟩ := matchOne_class hpattern string
    rw [hclass] at hread
    obtain ⟨⟨items, rest''⟩, hitems, heq⟩ := Option.map_eq_some_iff.1 hread
    obtain ⟨rfl, rfl⟩ := Prod.mk.inj heq
    have hlength := hq.length_eq
    have hloop := @classLoop_spec nocase string s hs (start.buffer.length + 2) _ _ hq hpos
      (by omega) false
    rw [hitems] at hloop
    obtain ⟨pattern', hat, hloop⟩ := hloop
    refine ⟨pattern', hat, ?_⟩
    rw [hone, hloop]
    have htakes : (Element.set negated items).takes nocase string s =
        (items.any (·.test nocase s) != negated) := if_neg nofun
    rw [htakes]
    generalize items.any (·.test nocase s) = found
    cases found <;> cases negated <;> rfl
  · obtain ⟨b, rest'', pattern', hliteral, hat, hone⟩ :=
      matchOne_literal hpattern hp hany hset string
    cases hliteral.symm.trans hread
    exact ⟨pattern', hat, by rw [hone, hs]; rfl⟩

/-- A class that ends in a lone backslash. -/
theorem matchOne_broken {s : UInt8} (hs : string.get 0 = .ok s) (hpattern : At pattern (p :: rest))
    (hread : readElement (p :: rest) = none) : matchOne nocase pattern string = .error .outside := by
  have hstar : p ≠ 42 := by
    rintro rfl
    cases hread
  have hany : p ≠ 63 := by
    rintro rfl
    cases hread
  by_cases hset : p = 91
  · subst hset
    obtain ⟨negated, start, q, hq, hpos, hclass, hone⟩ := matchOne_class hpattern string
    have hlength := hq.length_eq
    have hloop := @classLoop_spec nocase string s hs (start.buffer.length + 2) _ _ hq hpos
      (by omega) false
    rw [Option.map_eq_none_iff.1 (hclass.symm.trans hread)] at hloop
    rw [hone, hloop]
    rfl
  · obtain ⟨b, rest', pattern', hliteral, -⟩ :=
      @matchOne_literal nocase _ _ _ hpattern hstar hany hset string
    cases hliteral.symm.trans hread

/-- With the pointer behind the string an element has to be blind. -/
theorem matchOne_beyond (hstring : string.Beyond) (hpattern : At pattern (p :: rest))
    (hp : p ≠ 42) :
    (matchOne nocase pattern string = .error .outside ∧ ∀ e rest',
        readElement (p :: rest) = some (e, rest') → e.blind = false ∧ e ≠ .set false []) ∨
      ∃ e rest', readElement (p :: rest) = some (e, rest') ∧
        (e = .set false [] ∧ matchOne nocase pattern string = .ok none ∨
          e.blind = true ∧ ∃ pattern', At (pattern'.advance 1) rest' ∧
            matchOne nocase pattern string = .ok (some (pattern', string.advance 1))) := by
  by_cases hany : p = 63
  · subst hany
    refine .inr ⟨.any, rest, rfl, .inr ⟨rfl, pattern, hpattern.next, ?_⟩⟩
    rw [matchOne_any hpattern, if_neg hstring.len_ne]
  by_cases hset : p = 91
  · subst hset
    obtain ⟨negated, start, q, hq, hpos, hclass, hone⟩ := matchOne_class hpattern string
    rw [hclass, hone]
    rcases @classLoop_beyond nocase string hstring _ _ hq hpos (start.buffer.length + 1) false with
      ⟨rest', pattern', hitems, hat, hloop⟩ | ⟨hitems, hloop⟩
    · rw [hitems, hloop]
      refine .inr ⟨.set negated [], rest', rfl, ?_⟩
      cases negated with
      | false => exact .inl ⟨rfl, rfl⟩
      | true => exact .inr ⟨rfl, pattern', hat, rfl⟩
    · refine .inl ⟨by rw [hloop]; rfl, fun e rest' he => ?_⟩
      obtain ⟨⟨items, rest''⟩, hread, heq⟩ := Option.map_eq_some_iff.1 he
      obtain ⟨rfl, rfl⟩ := Prod.mk.inj heq
      cases items with
      | nil => exact absurd hread (hitems _)
      | cons item items => cases negated <;> exact ⟨rfl, nofun⟩
  · obtain ⟨b, rest', pattern', hliteral, -, hone⟩ :=
      matchOne_literal hpattern hp hany hset string
    refine .inl ⟨by rw [hone, hstring.get]; rfl, fun e rest'' he => ?_⟩
    cases hliteral.symm.trans he
    exact ⟨rfl, nofun⟩

end

end

/-! ## Stars -/

theorem skipStars_spec {k fuel : ℕ} {pattern : Cursor} {P : Bytes}
    (h : At pattern (replicate k 42 ++ P)) (hfuel : P.length < fuel) :
    ∃ pattern', skipStars k fuel pattern = .ok pattern' ∧
      At pattern' (replicate k 42 ++ P.dropWhile (· = 42)) := by
  induction P generalizing fuel pattern with
  | nil =>
    obtain ⟨fuel, rfl⟩ := Nat.exists_eq_add_of_lt hfuel
    exact ⟨pattern, by rw [skipStars, h.get (by simp)]; simp; rfl, h⟩
  | cons p P ih =>
    obtain ⟨fuel, rfl⟩ : ∃ k, fuel = k + 1 := ⟨fuel - 1, by omega⟩
    rw [skipStars, h.get (by simp), getD_append_right _ _ _ _ (by simp), length_replicate,
      Nat.sub_self, getD_cons_zero]
    dsimp only [bind, Except.bind]
    by_cases hp : p = 42
    · rw [if_pos hp, dropWhile_cons_of_pos (by simpa using hp)]
      rw [hp, append_cons, ← replicate_succ'] at h
      exact ih h.next (by rw [length_cons] at hfuel; omega)
    · rw [if_neg hp, dropWhile_cons_of_neg (by simpa using hp)]
      exact ⟨pattern, rfl, h⟩

/-- How a match that succeeds ends; it reaches what is `left` of the pattern. -/
def hit (left : Bytes) : Except Fault Bool := if left = [] then .ok true else .error .outside

/-- The match succeeds if and only if `M`. -/
def Ends (left : Bytes) (o : Except Fault Bool) (M : Prop) : Prop :=
  (M → o = hit left) ∧ (¬ M → o = .ok false)

variable {left : Bytes}

theorem Ends.congr {o : Except Fault Bool} {M M' : Prop} (h : Ends left o M) (hM : M ↔ M') :
    Ends left o M' :=
  ⟨fun hM' => h.1 (hM.2 hM'), fun hM' => h.2 (hM.not.2 hM')⟩

theorem starLoop_spec {rest : Cursor → Except Fault Bool} {Q : Bytes → Prop} {S : Bytes}
    (hrest : ∀ t ≠ [], ∀ c, At c t → Ends left (rest c) (Q t)) {fuel : ℕ} {string : Cursor}
    (h : At string S) (hfuel : S.length < fuel) :
    Ends left (starLoop rest fuel string) (∃ t, t ≠ [] ∧ t <:+ S ∧ Q t) := by
  induction S generalizing fuel string with
  | nil =>
    obtain ⟨fuel, rfl⟩ := Nat.exists_eq_add_of_lt hfuel
    refine ⟨?_, fun _ => by rw [starLoop, if_pos h.len_nil]⟩
    rintro ⟨t, hne, hsuffix, -⟩
    exact absurd (suffix_nil.1 hsuffix) hne
  | cons s S ih =>
    obtain ⟨fuel, rfl⟩ : ∃ k, fuel = k + 1 := ⟨fuel - 1, by omega⟩
    have hlen := h.len_eq
    rw [length_cons] at hlen hfuel
    obtain ⟨hhit, hmiss⟩ := hrest (s :: S) (cons_ne_nil _ _) string h
    rw [starLoop, if_neg (by omega)]
    by_cases hQ : Q (s :: S)
    · refine ⟨fun _ => ?_, fun hnot => absurd ⟨s :: S, cons_ne_nil _ _, suffix_rfl, hQ⟩ hnot⟩
      rw [hhit hQ]
      unfold hit
      split_ifs <;> rfl
    · rw [hmiss hQ]
      refine (@ih fuel _ h.next (by omega)).congr ⟨?_, ?_⟩
      · rintro ⟨t, hne, hsuffix, hQt⟩
        exact ⟨t, hne, hsuffix.trans (suffix_cons s S), hQt⟩
      · rintro ⟨t, hne, hsuffix, hQt⟩
        rcases suffix_cons_iff.1 hsuffix with rfl | hsuffix
        · exact absurd hQt hQ
        · exact ⟨t, hne, hsuffix, hQt⟩

section

variable {accepts : Element → UInt8 → Bool} {es : List Element} {e : Element} {S : Bytes}

theorem matches_stars (k : ℕ) : Matches accepts (.star :: (replicate k .star ++ es)) S ↔
    Matches accepts (.star :: es) S := by
  induction k generalizing S with
  | zero => exact Iff.rfl
  | succ k ih =>
    rw [replicate_succ, cons_append, ← ih]
    constructor
    · rintro ⟨t, ht, u, hu, hmatch⟩
      exact ⟨u, hu.trans ht, hmatch⟩
    · rintro ⟨t, ht, hmatch⟩
      exact ⟨t, ht, t, suffix_rfl, hmatch⟩

theorem matches_star_nil : Matches accepts (.star :: es) [] ↔ Matches accepts es [] := by
  constructor
  · rintro ⟨t, ht, hmatch⟩
    rwa [suffix_nil.1 ht] at hmatch
  · exact fun hmatch => ⟨[], suffix_rfl, hmatch⟩

theorem matches_stars_nil (k : ℕ) :
    Matches accepts (replicate k .star ++ es) [] ↔ Matches accepts es [] := by
  induction k with
  | zero => exact Iff.rfl
  | succ k ih => exact matches_star_nil.trans ih

theorem matches_cons (he : e ≠ .star) {c : UInt8} :
    Matches accepts (e :: es) (c :: S) ↔ accepts e c = true ∧ Matches accepts es S := by
  cases e with
  | star => exact absurd rfl he
  | any | set | literal => exact Iff.rfl

theorem not_matches_nil (he : e ≠ .star) : ¬ Matches accepts (e :: es) [] := by
  cases e with
  | star => exact absurd rfl he
  | any | set | literal => exact id

theorem ne_star_of_readElement {p : UInt8} {rest rest' : Bytes} (hp : p ≠ 42)
    (h : readElement (p :: rest) = some (e, rest')) : e ≠ .star := by
  unfold readElement at h
  grind [Option.map_eq_some_iff]

theorem Elements.skip {P : Bytes} (h : Elements P es left) : ∃ k es',
    es = replicate k .star ++ es' ∧ Elements (P.dropWhile (· = 42)) es' left ∧
      es'.head? ≠ some .star := by
  induction h with
  | @stop left hread =>
    refine ⟨0, [], rfl, ?_, nofun⟩
    cases left with
    | nil => exact .stop rfl
    | cons p tail =>
      rw [dropWhile_cons_of_neg]
      · exact .stop hread
      · intro hp
        obtain rfl := of_decide_eq_true hp
        cases hread
  | @cons pattern rest left e es hread helements ih =>
    cases pattern with
    | nil => cases hread
    | cons p tail =>
      by_cases hp : p = 42
      · subst hp
        cases hread
        obtain ⟨k, es', rfl, helements', hhead⟩ := ih
        exact ⟨k + 1, es', rfl, helements', hhead⟩
      · rw [dropWhile_cons_of_neg (by simpa using hp)]
        refine ⟨0, e :: es, rfl, .cons hread helements, fun h => ?_⟩
        exact ne_star_of_readElement hp hread (Option.some.inj h)

end

/-! ## The loop -/

section

variable {nocase : Bool} {es : List Element}

/-- What matches behind the elements that were read: a class of which only the first byte counts. -/
def unread (left : Bytes) : List Element := if left = [] then [] else [.any, .star]

theorem tolower_eq_zero (c : ℤ) : tolower c = 0 ↔ c = 0 := by
  unfold tolower
  split_ifs <;> omega

theorem tolower_nonneg (c : ℤ) : 0 ≤ tolower c ↔ 0 ≤ c := by
  unfold tolower
  split_ifs <;> omega

theorem tolower_nonpos (c : ℤ) : tolower c ≤ 0 ↔ c ≤ 0 := by
  unfold tolower
  split_ifs <;> omega

theorem char_eq_zero (b : UInt8) : char b = 0 ↔ b = 0 := by
  revert b
  decide +kernel

theorem Element.test_zero (e : Element) : e.test nocase 0 = e.test false 0 := by
  cases nocase with
  | false => rfl
  | true =>
    have hzero : char 0 = 0 := by decide
    have hsame : ∀ b, sameByte true b 0 = sameByte false b 0 := by
      intro b
      exact decide_eq_decide.2 ((tolower_eq_zero _).trans (char_eq_zero b))
    have hrange : ∀ a b, inRange true a b 0 = inRange false a b 0 := by
      intro a b
      exact decide_eq_decide.2 (and_congr (tolower_nonpos _) (tolower_nonneg _))
    have hitem : ∀ item : Item, item.test true 0 = item.test false 0 := by
      intro item
      cases item with
      | quoted b => rfl
      | byte b => exact hsame b
      | range a b => exact hrange a b
    cases e with
    | star | any => rfl
    | set negated items =>
      exact congrArg (fun test : Item → Bool => items.any test != negated) (funext hitem)
    | literal b => exact hsame b

theorem length_le_of_readItems {q rest : Bytes} {items : List Item}
    (h : readItems q = some (items, rest)) : rest.length ≤ q.length := by
  fun_induction readItems q generalizing items with grind [→ consItem_eq_some]

variable {P : Bytes} {e : Element} {string : Cursor}

theorem length_lt_of_readElement {rest : Bytes} (h : readElement P = some (e, rest)) :
    rest.length < P.length := by
  cases P with
  | nil => cases h
  | cons p tail =>
    unfold readElement at h
    grind [Option.map_eq_some_iff, → length_le_of_readItems]

theorem takes_eq_test {c s : UInt8} {S : Bytes} (h : At string (c :: S)) :
    e.takes nocase string s = e.test nocase s := by
  unfold Element.takes
  split_ifs with hany
  · rw [hany, h.len_eq, length_cons]
    exact decide_eq_true (by omega)
  · rfl

theorem Elements.left_nil (h : Elements [] es left) : es = [] ∧ left = [] := by
  cases h with
  | stop hread => exact ⟨rfl, rfl⟩
  | cons hread helements => cases hread

theorem Elements.matches_nil (h : Elements P es left) (hhead : es.head? ≠ some .star) :
    Matches (Element.test nocase) (es ++ unread left) [] ↔ P = [] := by
  cases h with
  | stop hread =>
    unfold unread
    split_ifs with hP
    · exact iff_of_true rfl hP
    · exact iff_of_false (not_matches_nil nofun) hP
  | @cons _ rest _ e es hread helements =>
    refine iff_of_false (not_matches_nil fun h => hhead (h ▸ rfl)) ?_
    rintro rfl
    cases hread

/-- What a round of the loop finds at the front of the pattern; stars are skipped together. -/
inductive Front : Bytes → List Element → Bytes → Prop where
  | nil : Front [] [] []
  | broken {p : UInt8} {tail : Bytes} : p ≠ 42 → readElement (p :: tail) = none →
      Front (p :: tail) [] (p :: tail)
  | stars {tail left : Bytes} {k : ℕ} {es : List Element} :
      Elements (tail.dropWhile (· = 42)) es left → es.head? ≠ some .star →
      Front (42 :: tail) (.star :: (replicate k .star ++ es)) left
  | one {p : UInt8} {tail rest left : Bytes} {e : Element} {es : List Element} : p ≠ 42 →
      readElement (p :: tail) = some (e, rest) → e ≠ .star → Elements rest es left →
      Front (p :: tail) (e :: es) left

theorem Elements.front (h : Elements P es left) : Front P es left := by
  cases h with
  | stop hread =>
    cases left with
    | nil => exact .nil
    | cons p tail =>
      refine .broken ?_ hread
      rintro rfl
      cases hread
  | @cons _ rest _ e es hread helements =>
    cases P with
    | nil => cases hread
    | cons p tail =>
      by_cases hstar : p = 42
      · subst hstar
        cases hread
        obtain ⟨k, es', rfl, hes', hhead⟩ := helements.skip
        exact .stars hes' hhead
      · exact .one hstar hread (ne_star_of_readElement hstar hread) helements

section

variable {pattern : Cursor} {p : UInt8} {tail rest : Bytes} {fuel : ℕ}

theorem matchLoop_nil (hP : At pattern []) :
    matchLoop nocase (fuel + 1) pattern string = .ok (string.len = 0) := by
  rw [matchLoop, if_pos hP.len_nil]

theorem matchLoop_stars (hP : At pattern (42 :: tail)) :
    ∃ pattern', At pattern' (tail.dropWhile (· = 42)) ∧
      matchLoop nocase (fuel + 1) pattern string = if tail.dropWhile (· = 42) = [] then .ok true
        else starLoop (matchLoop nocase fuel pattern') (string.buffer.length + 1) string := by
  have hlen := hP.len_eq
  have hlength := hP.length_eq
  rw [length_cons] at hlen hlength
  obtain ⟨pattern', hskip, hat⟩ := @skipStars_spec 1 (pattern.buffer.length + 1) _ _ hP (by omega)
  refine ⟨pattern'.advance 1, hat.next, ?_⟩
  rw [matchLoop, if_neg (by omega), hP.get_zero]
  dsimp only [bind, Except.bind]
  rw [headD_cons, if_pos rfl, hskip]
  dsimp only
  have hlen' := hat.len_eq
  rw [length_append, length_replicate] at hlen'
  apply ite_congr _ (fun _ => rfl) fun _ => rfl
  rw [← length_eq_zero_iff, eq_iff_iff]
  omega

theorem matchLoop_one (hP : At pattern (p :: tail)) (hp : p ≠ 42) :
    matchLoop nocase (fuel + 1) pattern string = (do
      match ← matchOne nocase pattern string with
      | none => return false
      | some (pattern, string) =>
        let pattern := pattern.advance 1
        if string.len = 0 then
          let pattern ← skipStars 0 (pattern.buffer.length + 1) pattern
          return pattern.len = 0
        matchLoop nocase fuel pattern string) := by
  have hlen := hP.len_eq
  rw [length_cons] at hlen
  rw [matchLoop, if_neg (by omega), hP.get_zero]
  dsimp only [bind, Except.bind]
  rw [headD_cons, if_neg hp]

/-- At the end of the string only stars may follow. -/
theorem skipStars_end (hP : At pattern rest) :
    (do let pattern ← skipStars 0 (pattern.buffer.length + 1) pattern
        return pattern.len = 0) = Except.ok (decide (rest.dropWhile (· = 42) = [])) := by
  have hlength := hP.length_eq
  obtain ⟨pattern', hskip, hat⟩ := @skipStars_spec 0 (pattern.buffer.length + 1) _ _ hP (by omega)
  rw [hskip]
  refine congrArg _ (decide_eq_decide.2 ?_)
  rw [hat.len_eq]
  exact Int.natCast_eq_zero.trans length_eq_zero_iff

end

/-- On a string that is not empty the loop decides whether the rest of it belongs to the language of
the rest of the pattern, and is at fault if it reaches a class that ends in a lone backslash. -/
theorem matchLoop_spec {fuel : ℕ} {pattern string : Cursor} {P S : Bytes} (hP : At pattern P)
    (hS : At string S) (hne : S ≠ []) (hes : Elements P es left) (hfuel : P.length < fuel) :
    Ends left (matchLoop nocase fuel pattern string)
      (Matches (Element.test nocase) (es ++ unread left) S) := by
  induction fuel generalizing pattern string P S es with
  | zero => exact absurd hfuel (Nat.not_lt_zero _)
  | succ fuel ih =>
    obtain ⟨c, S, rfl⟩ := exists_cons_of_ne_nil hne
    cases hes.front with
    | nil =>
      rw [matchLoop_nil hP, hS.len_eq]
      exact ⟨fun hmatch => absurd hmatch (cons_ne_nil _ _), fun _ => rfl⟩
    | @broken p tail hp hread =>
      have hmatch : Matches (Element.test nocase) ([] ++ unread (p :: tail)) (c :: S) :=
        ⟨rfl, [], nil_suffix, rfl⟩
      refine ⟨fun _ => ?_, fun hnot => absurd hmatch hnot⟩
      rw [matchLoop_one hP hp, matchOne_broken hS.get_zero hP hread]
      rfl
    | @stars tail _ k es hes' hhead =>
      obtain ⟨pattern', hat, hloop⟩ := @matchLoop_stars nocase string pattern tail fuel hP
      have hnil : Matches (Element.test nocase) (es ++ unread left) [] ↔ _ := hes'.matches_nil hhead
      rw [hloop, cons_append, append_assoc, matches_stars]
      split_ifs with hempty
      · rw [hempty] at hes'
        refine ⟨fun _ => (if_pos hes'.left_nil.2).symm, fun hnot => absurd ?_ hnot⟩
        exact ⟨[], nil_suffix, hnil.2 hempty⟩
      · have hle := length_dropWhile_le (fun ch : UInt8 => decide (ch = 42)) tail
        have hlength := hS.length_eq
        rw [length_cons] at hfuel
        refine (starLoop_spec (fun t ht c hc => ih hat hc ht hes' (by omega)) hS (by omega)).congr
          ⟨fun ⟨t, _, ht, hQ⟩ => ⟨t, ht, hQ⟩, fun ⟨t, ht, hQ⟩ => ⟨t, ?_, ht, hQ⟩⟩
        rintro rfl
        exact hempty (hnil.1 hQ)
    | @one p tail rest _ e es hp hread he hrest =>
      have hlt := length_lt_of_readElement hread
      obtain ⟨pattern', hat, hone⟩ := @matchOne_spec nocase _ _ _ string _ _ _ hS.get_zero hP hp
        hread
      rw [matchLoop_one hP hp, hone, takes_eq_test hS, headD_cons, cons_append, matches_cons he]
      cases htest : e.test nocase c with
      | false => exact ⟨fun hmatch => absurd hmatch.1 Bool.false_ne_true, fun _ => rfl⟩
      | true =>
        rw [if_pos rfl, and_iff_right rfl]
        dsimp only [bind, Except.bind]
        rw [hS.next.len_eq]
        cases S with
        | nil =>
          obtain ⟨k, es', rfl, hes', hhead⟩ := hrest.skip
          rw [append_assoc, matches_stars_nil, hes'.matches_nil hhead]
          refine ⟨fun hnil => ?_, fun hnil => ?_⟩
          · rw [hnil] at hes'
            rw [hit, if_pos hes'.left_nil.2]
            exact (skipStars_end hat).trans (congrArg _ (decide_eq_true hnil))
          · exact (skipStars_end hat).trans (congrArg _ (decide_eq_false hnil))
        | cons c' S => exact ih hat hS.next (cons_ne_nil _ _) hrest (by omega)

/-! ## Behind an empty string -/

/-- Bytes are taken without a look at them until the pattern ends or a class without items refuses. -/
def StopsUnread (left : Bytes) : List Element → Prop
  | [] => left = []
  | e :: es => if e.blind then StopsUnread left es else e = .set false []

/-- Bytes are taken without a look at them, and the last element is a star. -/
def EndsInStar (left : Bytes) : List Element → Prop
  | [] => False
  | e :: es => (e.blind = true ∨ e = .star) ∧
      (e = .star ∧ es = [] ∧ left = [] ∨ EndsInStar left es)

/-- An empty string is compared with the first element through its NUL: either this is not taken, or
nothing is compared behind it and the match fails. -/
def NulSafe (left : Bytes) : List Element → Prop
  | [] => left = []
  | e :: es => e = .star ∨ e = .any ∨ e.test false 0 = false ∨ StopsUnread left es

theorem endsInStar_stars (k : ℕ) : EndsInStar left (.star :: (replicate k .star ++ es)) ↔
    es = [] ∧ left = [] ∨ EndsInStar left es := by
  induction k with
  | zero => simp [EndsInStar]
  | succ k ih =>
    rw [replicate_succ, cons_append, ← ih]
    simp [EndsInStar]

theorem starLoop_unfinished {rest : Cursor → Except Fault Bool}
    (hrest : ∀ c : Cursor, c.Beyond → rest c = .ok false) {fuel : ℕ} (hstring : string.Beyond) :
    starLoop rest fuel string = .error .unfinished := by
  induction fuel generalizing string with
  | zero => rfl
  | succ fuel ih =>
    rw [starLoop, if_neg hstring.len_ne, hrest string hstring]
    exact ih hstring.next

/-- How the loop ends with its pointer behind the string. -/
structure BlindEnd (left : Bytes) (es : List Element) (o : Except Fault Bool) : Prop where
  stops : StopsUnread left es → o = .ok false
  star : EndsInStar left es → o = .ok true
  fault : ¬ StopsUnread left es → ¬ EndsInStar left es → ∃ fault, o = .error fault

theorem BlindEnd.stars {match' : Cursor → Except Fault Bool}
    (h : ∀ c : Cursor, c.Beyond → BlindEnd left es (match' c)) (hne : ¬ (es = [] ∧ left = []))
    (k fuel : ℕ) (hstring : string.Beyond) :
    BlindEnd left (.star :: (replicate k .star ++ es)) (starLoop match' (fuel + 1) string) := by
  have hstars := @endsInStar_stars left es k
  rw [or_iff_right hne] at hstars
  have hstring' := h string hstring
  refine ⟨nofun, fun hends => ?_, fun _ hends => ?_⟩
  · rw [starLoop, if_neg hstring.len_ne, hstring'.star (hstars.1 hends)]
    rfl
  · by_cases hstop : StopsUnread left es
    · exact ⟨.unfinished, starLoop_unfinished (fun c hc => (h c hc).stops hstop) hstring⟩
    · obtain ⟨fault, hfault⟩ := hstring'.fault hstop (hstars.not.1 hends)
      exact ⟨fault, by rw [starLoop, if_neg hstring.len_ne, hfault]; rfl⟩

theorem BlindEnd.blind {o : Except Fault Bool} (h : BlindEnd left es o) (he : e ≠ .star)
    (hblind : e.blind = true) : BlindEnd left (e :: es) o := by
  have hstops : StopsUnread left (e :: es) ↔ StopsUnread left es := by
    rw [StopsUnread, if_pos hblind]
  have hstar : EndsInStar left (e :: es) ↔ EndsInStar left es := by simp [EndsInStar, hblind, he]
  exact ⟨fun h' => h.stops (hstops.1 h'), fun h' => h.star (hstar.1 h'),
    fun h₁ h₂ => h.fault (hstops.not.1 h₁) (hstar.not.1 h₂)⟩

theorem matchLoop_beyond {fuel : ℕ} {pattern : Cursor} (hP : At pattern P)
    (hstring : string.Beyond) (hes : Elements P es left) (hfuel : P.length < fuel) :
    BlindEnd left es (matchLoop nocase fuel pattern string) := by
  induction fuel generalizing pattern string P es with
  | zero => exact absurd hfuel (Nat.not_lt_zero _)
  | succ fuel ih =>
    cases hes.front with
    | nil =>
      rw [matchLoop_nil hP, decide_eq_false hstring.len_ne]
      exact ⟨fun _ => rfl, nofun, fun hstop => absurd rfl hstop⟩
    | broken hp hread =>
      rw [matchLoop_one hP hp]
      rcases @matchOne_beyond nocase _ _ _ _ hstring hP hp with ⟨hone, -⟩ | ⟨e, rest, hsome, -⟩
      · rw [hone]
        exact ⟨fun h => absurd h (cons_ne_nil _ _), nofun, fun _ _ => ⟨.outside, rfl⟩⟩
      · cases hread.symm.trans hsome
    | @stars tail _ k es hes' hhead =>
      obtain ⟨pattern', hat, hloop⟩ := @matchLoop_stars nocase string pattern tail fuel hP
      rw [hloop]
      split_ifs with hempty
      · rw [hempty] at hes'
        refine ⟨nofun, fun _ => rfl, fun _ hends => absurd ?_ hends⟩
        exact (endsInStar_stars k).2 (.inl hes'.left_nil)
      · have hle := length_dropWhile_le (fun ch : UInt8 => decide (ch = 42)) tail
        rw [length_cons] at hfuel
        refine .stars (fun c hc => ih hat hc hes' (by omega)) ?_ _ _ hstring
        rintro ⟨rfl, rfl⟩
        generalize dropWhile _ tail = left at hes' hempty
        cases hes'
        exact hempty rfl
    | @one p tail rest _ e es hp hread he hrest =>
      have hlt := length_lt_of_readElement hread
      rw [matchLoop_one hP hp]
      rcases @matchOne_beyond nocase _ _ _ _ hstring hP hp with
        ⟨hone, hnot⟩ | ⟨e', rest', hread', ⟨rfl, hone⟩ | ⟨hblind, pattern', hat, hone⟩⟩
      · obtain ⟨hblind, hset⟩ := hnot _ _ hread
        rw [hone]
        refine ⟨fun h => ?_, fun h => ?_, fun _ _ => ⟨.outside, rfl⟩⟩
        · simp [StopsUnread, hblind, hset] at h
        · simp [EndsInStar, hblind, he] at h
      · cases hread.symm.trans hread'
        rw [hone]
        exact ⟨fun _ => rfl, fun hends => absurd hends.1 (by simp [Element.blind]),
          fun hstop => absurd rfl hstop⟩
      · cases hread.symm.trans hread'
        rw [hone]
        dsimp only [bind, Except.bind]
        rw [if_neg hstring.next.len_ne]
        exact (ih hat hstring.next hrest (by omega)).blind he hblind

theorem takes_nil (h : At string []) :
    e.takes nocase string 0 = true ↔ e ≠ .any ∧ e.test false 0 = true := by
  unfold Element.takes
  split_ifs with hany
  · simp [hany, h.len_nil]
  · rw [Element.test_zero, and_iff_right hany]

/-- The loop on an empty string: the first element looks at the NUL. -/
theorem matchLoop_empty {fuel : ℕ} {pattern : Cursor} (hP : At pattern P) (hS : At string [])
    (hes : Elements P es left) (hfuel : P.length < fuel + 1) :
    (NulSafe left es → ∃ b, matchLoop nocase (fuel + 1) pattern string = .ok b ∧
      (b = true ↔ Matches (Element.test nocase) (es ++ unread left) [])) ∧
    (¬ NulSafe left es → BlindEnd left es.tail (matchLoop nocase (fuel + 1) pattern string)) := by
  cases hes.front with
  | nil =>
    rw [matchLoop_nil hP]
    exact ⟨fun _ => ⟨_, rfl, iff_of_true (decide_eq_true hS.len_nil) rfl⟩, fun h => absurd rfl h⟩
  | broken hp hread =>
    refine ⟨fun h => absurd h (cons_ne_nil _ _), fun _ => ?_⟩
    rw [matchLoop_one hP hp, matchOne_broken hS.get_zero hP hread]
    exact ⟨fun h => absurd h (cons_ne_nil _ _), nofun, fun _ _ => ⟨.outside, rfl⟩⟩
  | @stars tail _ k es hes' hhead =>
    obtain ⟨pattern', -, hloop⟩ := @matchLoop_stars nocase string pattern tail fuel hP
    have hmatch := (@matches_star_nil (Element.test nocase) _).trans
      ((matches_stars_nil k).trans (hes'.matches_nil hhead))
    refine ⟨fun _ => ⟨decide (tail.dropWhile (· = 42) = []), ?_, ?_⟩, fun h => absurd (.inl rfl) h⟩
    · rw [hloop]
      split_ifs with hempty
      · rw [decide_eq_true hempty]
      · rw [starLoop, if_pos hS.len_nil, decide_eq_false hempty]
    · rw [decide_eq_true_iff, cons_append, append_assoc, hmatch]
  | @one p tail rest _ e es hp hread he hrest =>
    have hlt := length_lt_of_readElement hread
    obtain ⟨pattern', hat, hone⟩ := @matchOne_spec nocase _ _ _ string _ _ _ hS.get_zero hP hp hread
    have htakes := @takes_nil nocase e string hS
    rw [matchLoop_one hP hp, hone, headD_nil]
    by_cases htake : e ≠ .any ∧ e.test false 0 = true
    · rw [if_pos (htakes.2 htake)]
      dsimp only [bind, Except.bind]
      rw [if_neg hS.beyond.len_ne]
      have hend : BlindEnd left es (matchLoop nocase fuel (pattern'.advance 1) _) :=
        matchLoop_beyond hat hS.beyond hrest (by omega)
      refine ⟨fun hsafe => ⟨false, hend.stops ?_, ?_⟩, fun _ => hend⟩
      · exact ((hsafe.resolve_left he).resolve_left htake.1).resolve_left fun h =>
          Bool.false_ne_true (h.symm.trans htake.2)
      · exact ⟨nofun, fun h => absurd h (not_matches_nil he)⟩
    · rw [if_neg (htakes.not.2 htake)]
      refine ⟨fun _ => ⟨false, rfl, nofun, fun h => absurd h (not_matches_nil he)⟩, fun hsafe => ?_⟩
      obtain ⟨-, hany, htest, -⟩ := by simpa [NulSafe] using hsafe
      exact absurd ⟨hany, htest⟩ htake

/-! ## The results -/

/-- Both ends of a range are ASCII, or neither is. -/
def Element.OneSided : Element → Prop
  | .set _ items => ∀ a b, Item.range a b ∈ items → (a < 128 ↔ b < 128)
  | _ => True

theorem char_eq (b : UInt8) : char b = if b < 128 then (b.toNat : ℤ) else b.toNat - 256 := by
  revert b
  decide +kernel

theorem inRange_eq {a b : UInt8} (h : a < 128 ↔ b < 128) (c : UInt8) :
    inRange false a b c = (Item.range a b).accepts c := by
  have h128 : (128 : UInt8).toNat = 128 := rfl
  have ha := a.toNat_lt
  have hb := b.toNat_lt
  have hc := c.toNat_lt
  unfold inRange Item.accepts
  rw [if_neg Bool.false_ne_true, decide_eq_decide]
  simp only [char_eq, UInt8.lt_iff_toNat_lt, UInt8.le_iff_toNat_le, h128] at h ⊢
  split_ifs <;> omega

/-- The comparisons of the loop are those of the grammar. -/
theorem Element.test_eq_accepts (h : e.OneSided) (c : UInt8) : e.test false c = e.accepts c := by
  cases e with
  | star | any => rfl
  | literal b => exact decide_eq_decide.2 eq_comm
  | set negated items =>
    have hany : items.any (·.test false c) = items.any (·.accepts c) := by
      rw [Bool.eq_iff_iff, any_eq_true, any_eq_true]
      refine exists_congr fun item => and_congr_right fun hitem => Bool.eq_iff_iff.1 ?_
      cases item with
      | quoted b | byte b => exact decide_eq_decide.2 eq_comm
      | range a b => exact inRange_eq (h a b hitem) c
    exact congrArg (· != negated) hany

/-- Each comparison that the match makes on a string that is not empty is the one of the grammar; a
star tries the suffixes of the string, the longest one first, until the rest of the pattern
matches. -/
def Sound : List Element → Bytes → Prop
  | [], _ => True
  | .star :: es, S => ∀ t, t <:+ S → t ≠ [] →
      (∀ t', t' <:+ S → t.length < t'.length → ¬ Matches (Element.test false) es t') → Sound es t
  | e :: es, c :: S => e.test false c = e.accepts c ∧ (e.test false c = true → S ≠ [] → Sound es S)
  | _ :: _, [] => True

theorem sound_cons (he : e ≠ .star) {c : UInt8} {S : Bytes} : Sound (e :: es) (c :: S) ↔
    e.test false c = e.accepts c ∧ (e.test false c = true → S ≠ [] → Sound es S) := by
  cases e with
  | star => exact absurd rfl he
  | any | set | literal => exact Iff.rfl

theorem sound_of_oneSided (h : ∀ e ∈ es, e.OneSided) {S : Bytes} (hne : S ≠ []) : Sound es S := by
  induction es generalizing S with
  | nil => trivial
  | cons e es ih =>
    obtain ⟨he, hes⟩ := forall_mem_cons.1 h
    by_cases hstar : e = .star
    · subst hstar
      exact fun t _ ht _ => ih hes ht
    · obtain ⟨c, S, rfl⟩ := exists_cons_of_ne_nil hne
      exact (sound_cons hstar).2 ⟨e.test_eq_accepts he c, fun _ => ih hes⟩

theorem exists_longest {Q : Bytes → Prop} {S t : Bytes} (ht : t <:+ S) (hQ : Q t) :
    ∃ t, t <:+ S ∧ Q t ∧ ∀ t', t' <:+ S → t.length < t'.length → ¬ Q t' := by
  induction S with
  | nil =>
    refine ⟨t, ht, hQ, fun t' ht' hlt => ?_⟩
    rw [suffix_nil.1 ht'] at hlt
    exact absurd hlt (Nat.not_lt_zero _)
  | cons s S ih =>
    by_cases hS : Q (s :: S)
    · exact ⟨s :: S, suffix_rfl, hS, fun t' ht' hlt => absurd ht'.length_le (not_le.2 hlt)⟩
    · have ht : t <:+ S := (suffix_cons_iff.1 ht).resolve_left fun h => hS (h ▸ hQ)
      obtain ⟨t, ht, hQ, hlongest⟩ := ih ht
      refine ⟨t, ht.trans (suffix_cons s S), hQ, fun t' ht' hlt => ?_⟩
      rcases suffix_cons_iff.1 ht' with rfl | ht'
      · exact hS
      · exact hlongest t' ht' hlt

theorem matches_nil_congr {accepts accepts' : Element → UInt8 → Bool} :
    Matches accepts es [] ↔ Matches accepts' es [] := by
  induction es with
  | nil => exact Iff.rfl
  | cons e es ih =>
    by_cases hstar : e = .star
    · subst hstar
      rw [matches_star_nil, matches_star_nil, ih]
    · exact iff_of_false (not_matches_nil hstar) (not_matches_nil hstar)

theorem Sound.matches_iff {S : Bytes} (h : Sound es S) (hne : S ≠ []) :
    Matches (Element.test false) es S ↔ Matches Element.accepts es S := by
  induction es generalizing S with
  | nil => exact Iff.rfl
  | cons e es ih =>
    by_cases hstar : e = .star
    · subst hstar
      have hnil := @matches_nil_congr es (Element.test false) Element.accepts
      constructor
      · rintro ⟨t, ht, hmatch⟩
        obtain ⟨t, ht, hmatch, hlongest⟩ := exists_longest ht hmatch
        refine ⟨t, ht, ?_⟩
        by_cases hempty : t = []
        · rw [hempty] at hmatch ⊢
          exact hnil.1 hmatch
        · exact (ih (h t ht hempty hlongest) hempty).1 hmatch
      · rintro ⟨t, ht, hmatch⟩
        by_contra hnone
        have hnone : ∀ t', t' <:+ S → ¬ Matches (Element.test false) es t' := fun t' ht' hmatch' =>
          hnone ⟨t', ht', hmatch'⟩
        apply hnone t ht
        by_cases hempty : t = []
        · rw [hempty] at hmatch ⊢
          exact hnil.2 hmatch
        · exact (ih (h t ht hempty fun t' ht' _ => hnone t' ht') hempty).2 hmatch
    · obtain ⟨c, S, rfl⟩ := exists_cons_of_ne_nil hne
      obtain ⟨htest, hrest⟩ := (sound_cons hstar).1 h
      rw [matches_cons hstar, matches_cons hstar, ← htest]
      refine and_congr_right fun htake => ?_
      by_cases hempty : S = []
      · rw [hempty]
        exact matches_nil_congr
      · exact ih (hrest htake hempty) hempty

end

/-- The class that ends in a lone backslash, if there is one, is not reached. -/
def Unreached (nocase : Bool) (es : List Element) (left string : Bytes) : Prop :=
  left = [] ∨ ¬ Matches (Element.test nocase) (es ++ [.any, .star]) string

section

variable {pattern string left : Bytes} {es : List Element} (hes : Elements pattern es left)

include hes

theorem stringmatchlen_spec (nocase : Bool) (hne : string ≠ []) :
    (Unreached nocase es left string → ∃ b, stringmatchlen pattern string nocase = .ok b ∧
      (b = true ↔ Matches (Element.test nocase) (es ++ unread left) string)) ∧
    (¬ Unreached nocase es left string →
      stringmatchlen pattern string nocase = .error .outside) := by
  have h := @matchLoop_spec left nocase es _ _ _ _ _ (at_start pattern) (at_start string) hne hes
    (Nat.lt_succ_self _)
  have hunread : left ≠ [] → unread left = [.any, .star] := fun hleft => if_neg hleft
  refine ⟨fun hun => ?_, fun hun => ?_⟩
  · by_cases hmatch : Matches (Element.test nocase) (es ++ unread left) string
    · have hleft : left = [] := by
        by_contra hleft
        exact hun.resolve_left hleft (hunread hleft ▸ hmatch)
      exact ⟨true, (h.1 hmatch).trans (if_pos hleft), iff_of_true rfl hmatch⟩
    · exact ⟨false, h.2 hmatch, iff_of_false Bool.false_ne_true hmatch⟩
  · obtain ⟨hleft, hmatch⟩ := not_or.1 hun
    rw [not_not, ← hunread hleft] at hmatch
    exact (h.1 hmatch).trans (if_neg hleft)

/-- The result says whether the string belongs to the language of the pattern, with regard to case,
if no class that ends in a lone backslash and no wrong comparison is reached. -/
theorem stringmatchlen_iff_matches (hnul : string = [] → NulSafe left es)
    (hclass : string ≠ [] → Unreached false es left string)
    (hsound : Sound (es ++ unread left) string) :
    ∃ b, stringmatchlen pattern string false = .ok b ∧
      (b = true ↔ Matches Element.accepts (es ++ unread left) string) := by
  by_cases hne : string = []
  · subst hne
    obtain ⟨b, hb, hiff⟩ := (@matchLoop_empty left false es _ _ _ _ (at_start pattern)
      (at_start []) hes (Nat.lt_succ_self _)).1 (hnul rfl)
    exact ⟨b, hb, hiff.trans matches_nil_congr⟩
  · rw [← hsound.matches_iff hne]
    exact (stringmatchlen_spec hes false hne).1 (hclass hne)

end

/-- The pattern `h[a-c]*`. -/
def smallPattern : Bytes := [104, 91, 97, 45, 99, 93, 42]

theorem elements_smallPattern :
    Elements smallPattern [.literal 104, .set false [.range 97 99], .star] [] :=
  .cons rfl (.cons rfl (.cons rfl (.stop rfl)))

theorem stringmatchlen_iff_matches_smallPattern :
    ∃ b, stringmatchlen smallPattern [104, 98, 120] false = .ok b ∧
      (b = true ↔ Matches Element.accepts [.literal 104, .set false [.range 97 99], .star]
        [104, 98, 120]) :=
  stringmatchlen_iff_matches elements_smallPattern nofun (fun _ => .inl rfl)
    (sound_of_oneSided (by simp [Element.OneSided, unread]) (by decide))

/-- The pattern `[^a]*` needs a byte, but the function takes the NUL behind an empty string for
one. -/
theorem stringmatchlen_empty_string :
    Elements [91, 94, 97, 93, 42] [.set true [.byte 97], .star] [] ∧
      ¬ Matches Element.accepts [.set true [.byte 97], .star] [] ∧
      stringmatchlen [91, 94, 97, 93, 42] [] false = .ok true :=
  ⟨.cons rfl (.cons rfl (.stop rfl)), id, by decide +kernel⟩

end ServerStack.Redis.Glob
