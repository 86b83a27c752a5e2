import ServerStack.Nginx.Strings

/-!
# The URI of an internal redirect

`ngx_http_parse_unsafe_uri` looks for a segment `..` in the URI as it comes, and once more in the
path if that had to be decoded.  At the first look the arguments still stand behind the path.
-/

namespace ServerStack.Nginx

open List

/-- `usual`, one bit for each character (not on Windows). -/
def usual : List ℕ :=
  [0xffffdbfe, 0x7fff37d6, 0xffffffff, 0xffffffff, 0xffffffff, 0xffffffff, 0xffffffff, 0xffffffff]

/-- `usual[ch >> 5] & (1 << (ch & 0x1f))`. -/
def isUsual (ch : UInt8) : Bool := (usual.getD (ch.toNat / 32) 0).testBit (ch.toNat % 32)

/-- Two dots, with a separator or the end behind them. -/
def leadsUp (p : Bytes) : Bool :=
  decide (p.take 2 = [46, 46] ∧ (p.length = 2 ∨ p[2]? = some 47))

/-- In both loops, a `goto unsafe` at the character in front of `p`. -/
def stopsAt (ch : UInt8) (p : Bytes) : Bool := decide (ch = 0 ∨ ch = 47 ∧ leadsUp p)

/-- The first loop: whether there is an escape, the path, and the arguments if there are any. -/
def scanUri : Bytes → Option (Bool × Bytes × Option Bytes)
  | [] => some (false, [], none)
  | ch :: p =>
    let continues := ch = 37 ∨ isUsual ch
    if ¬ continues ∧ ch = 63 then some (false, [], some p)
    else if ¬ continues ∧ stopsAt ch p then none
    else (scanUri p).map fun (quoted, path, args) => (decide (ch = 37) || quoted, ch :: path, args)

/-- The second loop. -/
def scanUnescaped : Bytes → Bool
  | [] => true
  | ch :: p => !stopsAt ch p && scanUnescaped p

/-- `ngx_http_parse_unsafe_uri`: the path and the arguments if it returns `NGX_OK`; `memory` says
that there is memory for the decoded path. -/
def parseUnsafeUri (memory : Bool) (uri : Bytes) : Option (Bytes × Option Bytes) :=
  if uri = [] ∨ uri.head? = some 63 ∨ leadsUp uri then none
  else
    match scanUri uri with
    | none => none
    | some (false, path, args) => some (path, args)
    | some (true, path, args) =>
      let path := (unescapeUri false false .usual path).1
      if memory ∧ ¬ leadsUp path ∧ scanUnescaped path then some (path, args) else none

/-! ## Segments -/

def segments (path : Bytes) : List Bytes := path.splitOn 47

def dotDot : Bytes := [46, 46]

def SafePath (path : Bytes) : Prop := 0 ∉ path ∧ dotDot ∉ segments path

/-- The segments of a path that end in front of a separator, or at the end of the URI. -/
def closedSegments (rest path : Bytes) : List Bytes :=
  if rest = [] then segments path else (segments path).dropLast

variable {ch : UInt8} {path rest w : Bytes} (hrest : rest = [] ∨ rest.head? = some 63)

theorem segments_cons (ch : UInt8) (path : Bytes) : segments (ch :: path) =
    if ch = 47 then [] :: segments path else (segments path).modifyHead (cons ch) := by
  unfold segments
  rw [splitOn_eq_splitOnP, splitOnP_cons_eq_if_modifyHead]
  simp only [beq_iff_eq]
  rfl

theorem segments_ne_nil (path : Bytes) : segments path ≠ [] := splitOn_ne_nil 47 path

theorem closedSegments_slash (rest path : Bytes) :
    closedSegments rest (47 :: path) = [] :: closedSegments rest path := by
  unfold closedSegments
  rw [segments_cons, if_pos rfl]
  split_ifs
  · rfl
  · exact dropLast_cons_of_ne_nil (segments_ne_nil path)

theorem closedSegments_cons (hch : ch ≠ 47) (rest path : Bytes) :
    closedSegments rest (ch :: path) = (closedSegments rest path).modifyHead (cons ch) := by
  unfold closedSegments
  rw [segments_cons, if_neg hch]
  split_ifs
  · rfl
  · rcases segments path with - | ⟨w, - | ⟨w', ws⟩⟩ <;> rfl

theorem leadsUp_iff (p : Bytes) : leadsUp p = true ↔ p.takeWhile (· ≠ 47) = dotDot := by
  unfold leadsUp dotDot
  rcases p with - | ⟨a, - | ⟨b, - | ⟨c, p⟩⟩⟩ <;> simp [takeWhile_cons] <;> grind

include hrest in
theorem takeWhile_append_iff (hw : 63 ∉ w) :
    (path ++ rest).takeWhile (· ≠ 47) = w ↔ (closedSegments rest path).head? = some w := by
  induction path generalizing w with
  | nil =>
    rcases hrest with rfl | hrest
    · simp [closedSegments, segments]
    · obtain ⟨args, rfl⟩ := head?_eq_some_iff.1 hrest
      refine iff_of_false (fun h => hw ?_) (by simp [closedSegments, segments])
      rw [← h]
      exact mem_cons_self
  | cons ch path ih =>
    rw [cons_append]
    by_cases hch : ch = 47
    · rw [hch, closedSegments_slash]
      simp
    · rw [closedSegments_cons hch, takeWhile_cons_of_pos (by simpa using hch), head?_modifyHead,
        Option.map_eq_some_iff]
      constructor
      · rintro rfl
        exact ⟨_, (ih fun h => hw (mem_cons_of_mem _ h)).1 rfl, rfl⟩
      · rintro ⟨w, hhead, rfl⟩
        exact congrArg _ ((ih fun h => hw (mem_cons_of_mem _ h)).2 hhead)

/-! ## The loops -/

/-- The loops stop at a character of the path. -/
def Stops (rest path : Bytes) : Prop := 0 ∈ path ∨ dotDot ∈ (closedSegments rest path).tail

theorem mem_iff_head?_or_tail {α : Type} {a : α} {l : List α} :
    a ∈ l ↔ l.head? = some a ∨ a ∈ l.tail := by
  cases l <;> simp [eq_comm]

include hrest in
theorem leadsUp_append :
    leadsUp (path ++ rest) = true ↔ (closedSegments rest path).head? = some dotDot := by
  rw [leadsUp_iff, takeWhile_append_iff hrest (by decide)]

include hrest in
theorem stops_cons :
    Stops rest (ch :: path) ↔ stopsAt ch (path ++ rest) = true ∨ Stops rest path := by
  unfold Stops stopsAt
  rw [decide_eq_true_iff, leadsUp_append hrest, mem_cons]
  by_cases hch : ch = 47
  · rw [hch, closedSegments_slash, tail_cons, @mem_iff_head?_or_tail _ dotDot]
    tauto
  · rw [closedSegments_cons hch, tail_modifyHead]
    tauto

theorem scanUnescaped_iff (path : Bytes) : scanUnescaped path = true ↔ ¬ Stops [] path := by
  induction path with
  | nil => simp [scanUnescaped, Stops, closedSegments, segments]
  | cons ch path ih =>
    rw [scanUnescaped, Bool.and_eq_true, ih, stops_cons (.inl rfl), append_nil, not_or,
      Bool.not_eq_true', Bool.not_eq_true]

include hrest in
theorem scanUri_append (hpath : 63 ∉ path) {r : Bool × Bytes × Option Bytes} :
    scanUri (path ++ rest) = some r ↔
      ¬ Stops rest path ∧ r = (decide (37 ∈ path), path, rest.tail?) := by
  induction path generalizing r with
  | nil =>
    rcases hrest with rfl | hrest
    · simp [scanUri, Stops, closedSegments, segments, eq_comm]
    · obtain ⟨args, rfl⟩ := head?_eq_some_iff.1 hrest
      have husual : isUsual 63 = false := by decide
      have hscan : scanUri ([] ++ 63 :: args) = some (false, [], some args) := by
        simp [scanUri, husual]
      have hpass : ¬ Stops (63 :: args) [] := by simp [Stops, closedSegments, segments]
      rw [hscan, Option.some.injEq, and_iff_right hpass]
      exact eq_comm
  | cons ch path ih =>
    rw [mem_cons, not_or] at hpath
    have hcontinues : ch = 37 ∨ isUsual ch → stopsAt ch (path ++ rest) = false := by
      intro h
      have hch : ch ≠ 0 ∧ ch ≠ 47 := by
        constructor <;> rintro rfl <;> exact absurd h (by decide)
      simp [stopsAt, hch.1, hch.2]
    rw [cons_append, scanUri, stops_cons hrest]
    dsimp only
    split_ifs with hargs hstop
    · exact absurd hargs.2.symm hpath.1
    · simp [hstop.2]
    · have hstop' : stopsAt ch (path ++ rest) ≠ true := fun h =>
        hstop ⟨fun hch => by simp [hcontinues hch] at h, h⟩
      have hquoted : decide (37 ∈ ch :: path) = (decide (ch = 37) || decide (37 ∈ path)) := by
        simp [eq_comm]
      rw [Option.map_eq_some_iff, hquoted, or_iff_right hstop']
      simp only [ih hpath.2]
      constructor
      · rintro ⟨r', ⟨hpass, rfl⟩, rfl⟩
        exact ⟨hpass, rfl⟩
      · rintro ⟨hpass, rfl⟩
        exact ⟨_, ⟨hpass, rfl⟩, rfl⟩

/-! ## What is accepted -/

theorem safePath_iff (path : Bytes) :
    SafePath path ↔ ¬ leadsUp path ∧ scanUnescaped path := by
  have hup := @leadsUp_append path [] (.inl rfl)
  rw [append_nil, closedSegments, if_pos rfl] at hup
  rw [hup, scanUnescaped_iff, Stops, closedSegments, if_pos rfl, SafePath,
    @mem_iff_head?_or_tail _ dotDot]
  tauto

include hrest in
theorem parseUnsafeUri_append (memory : Bool) (hpath : 63 ∉ path) {r : Bytes × Option Bytes} :
    parseUnsafeUri memory (path ++ rest) = some r ↔
      path ≠ [] ∧ 0 ∉ path ∧ dotDot ∉ closedSegments rest path ∧ r.2 = rest.tail? ∧
        if 37 ∈ path then memory = true ∧ r.1 = (unescapeUri false false .usual path).1 ∧ SafePath r.1
        else r.1 = path := by
  have hfirst : path ++ rest = [] ∨ (path ++ rest).head? = some 63 ∨ leadsUp (path ++ rest) ↔
      path = [] ∨ (closedSegments rest path).head? = some dotDot := by
    rw [leadsUp_append hrest, ← or_assoc]
    refine or_congr_left ?_
    cases path with
    | nil => simpa using hrest
    | cons ch path =>
      rw [mem_cons, not_or] at hpath
      simp [Ne.symm hpath.1]
  rw [@mem_iff_head?_or_tail _ dotDot, not_or]
  unfold parseUnsafeUri
  by_cases hup : path = [] ∨ (closedSegments rest path).head? = some dotDot
  · rw [if_pos (hfirst.2 hup)]
    exact iff_of_false (by simp) fun h => hup.elim h.1 h.2.2.1.1
  rw [if_neg (hfirst.not.2 hup)]
  by_cases hstop : Stops rest path
  · have hnone : scanUri (path ++ rest) = none :=
      Option.eq_none_iff_forall_ne_some.2 fun r hr => ((scanUri_append hrest hpath).1 hr).1 hstop
    rw [hnone]
    exact iff_of_false (by simp) fun h => hstop.elim h.2.1 h.2.2.1.2
  rw [(scanUri_append hrest hpath).2 ⟨hstop, rfl⟩]
  unfold Stops at hstop
  rw [not_or] at hup hstop
  by_cases hquoted : 37 ∈ path
  · simp only [hquoted, decide_true, if_true]
    split_ifs with h
    · have hsafe := (safePath_iff _).2 h.2
      constructor
      · rintro ⟨⟩
        exact ⟨hup.1, hstop.1, ⟨hup.2, hstop.2⟩, rfl, h.1, rfl, hsafe⟩
      · rintro ⟨-, -, -, hargs, -, hunescaped, -⟩
        rw [← hunescaped, ← hargs]
    · refine iff_of_false (by simp) ?_
      rintro ⟨-, -, -, -, hmemory, hunescaped, hsafe⟩
      rw [hunescaped] at hsafe
      exact h ⟨hmemory, (safePath_iff _).1 hsafe⟩
  · simp [hquoted, hup, hstop, Prod.ext_iff, eq_comm, and_comm]

/-- The path in front of the arguments ends in a segment `..`, and nothing else is wrong with it. -/
def ClimbsLast (uri : Bytes) : Prop :=
  let path := uri.takeWhile (· ≠ 63)
  path.length < uri.length ∧ 37 ∉ path ∧ 0 ∉ path ∧ dotDot ∉ (segments path).dropLast ∧
    (segments path).getLast? = some dotDot

theorem exists_path (uri : Bytes) : ∃ path rest, uri = path ++ rest ∧ 63 ∉ path ∧
    (rest = [] ∨ rest.head? = some 63) ∧ uri.takeWhile (· ≠ 63) = path := by
  refine ⟨uri.takeWhile (· ≠ 63), uri.dropWhile (· ≠ 63), takeWhile_append_dropWhile.symm,
    fun h => by simpa using mem_takeWhile_imp h, ?_, rfl⟩
  have hhead := head?_dropWhile_not (· ≠ 63) uri
  cases hrest : uri.dropWhile (· ≠ 63) with
  | nil => exact .inl rfl
  | cons ch rest =>
    rw [hrest] at hhead
    exact .inr (by simpa using hhead)

/-- A path that is accepted is safe, unless `..` stands directly in front of the arguments. -/
theorem parseUnsafeUri_safe (memory : Bool) (uri : Bytes) :
    (∀ r, parseUnsafeUri memory uri = some r → SafePath r.1) ↔ ¬ ClimbsLast uri := by
  obtain ⟨path, rest, rfl, hpath, hrest, htake⟩ := exists_path uri
  unfold ClimbsLast
  simp only [htake, length_append]
  constructor
  · rintro hsafe ⟨hlength, hquoted, hzero, hinner, hlast⟩
    have hrest' : rest ≠ [] := by
      rintro rfl
      simp at hlength
    have hclosed : closedSegments rest path = (segments path).dropLast := if_neg hrest'
    have hne : path ≠ [] := by
      rintro rfl
      cases hlast
    have hr := (@parseUnsafeUri_append _ _ hrest memory hpath (path, rest.tail?)).2
      ⟨hne, hzero, hclosed ▸ hinner, rfl, by rw [if_neg hquoted]⟩
    exact (hsafe _ hr).2 (mem_of_getLast? hlast)
  · intro hclimbs r hr
    obtain ⟨hne, hzero, hclosed, -, hr⟩ := (parseUnsafeUri_append hrest memory hpath).1 hr
    split_ifs at hr with hquoted
    · exact hr.2.2
    · rw [hr]
      refine ⟨hzero, fun hmem => ?_⟩
      unfold closedSegments at hclosed
      split_ifs at hclosed with hnil
      · exact hclosed hmem
      · refine hclimbs ⟨?_, hquoted, hzero, hclosed, ?_⟩
        · have := length_pos_iff.2 hnil
          omega
        · rw [← dropLast_concat_getLast (segments_ne_nil path), mem_append, mem_singleton] at hmem
          rw [getLast?_eq_some_getLast (segments_ne_nil path), hmem.resolve_left hclosed]

/-- The redirect to "/..?". -/
theorem parseUnsafeUri_up :
    parseUnsafeUri true [47, 46, 46, 63] = some ([47, 46, 46], some []) ∧
      ¬ SafePath [47, 46, 46] := by
  refine ⟨by decide, fun h => h.2 ?_⟩
  decide

end ServerStack.Nginx
