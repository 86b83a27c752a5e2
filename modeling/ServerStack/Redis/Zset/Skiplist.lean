import ServerStack.Lib.SpanChain
import ServerStack.Redis.Util

/-!
# Skiplists

The skiplist functions of `t_zset.c`.  Nodes live in a heap and are named by their address; the
header is at address 0.  Scores come from a linear order, so `isnan` never holds, and elements are
the strings of their objects.  Spans, ranks and lengths are natural numbers; in a list of fewer than
`2 ^ 32` elements, no span and no rank is larger than an `unsigned int`.
-/

namespace ServerStack.Redis.Zset

open Util SpanChain Function

/-! ## String objects -/

/-- `memcmp`, on the first `n` bytes. -/
def memcmp : ℕ → Bytes → Bytes → Ordering
  | n + 1, a :: s, b :: t => (compare a.toNat b.toNat).then (memcmp n s t)
  | _, _, _ => .eq

/-- `compareStringObjects`, on the decoded strings. -/
def compareStringObjects (a b : Bytes) : Ordering :=
  (memcmp (min a.length b.length) a b).then (compare a.length b.length)

def equalStringObjects (a b : Bytes) : Bool := compareStringObjects a b == .eq

/-! ## The heap -/

/-- `zskiplistNode`.  Only the first `height` entries of `level[]` exist. -/
structure Node (S : Type) where
  score : S
  /-- NULL in the header. -/
  obj : Option Bytes
  backward : Option ℕ
  height : ℕ
  forward : ℕ → Option ℕ
  span : ℕ → ℕ

def Node.str {S : Type} (n : Node S) : Bytes := n.obj.getD []

/-- `zskiplist`, with the heap its nodes live in. -/
structure Skiplist (S : Type) where
  node : ℕ → Node S
  /-- The address of the next node that is allocated. -/
  fresh : ℕ
  tail : Option ℕ
  length : ℕ
  level : ℕ

def header : ℕ := 0

def maxLevel : ℕ := 32

variable {S : Type}

def zslCreateNode (level : ℕ) (score : S) (obj : Option Bytes) : Node S where
  score := score
  obj := obj
  backward := none
  height := level
  forward := fun _ => none
  span := fun _ => 0

def zslCreate [Zero S] : Skiplist S where
  node := fun _ => zslCreateNode maxLevel 0 none
  fresh := 1
  tail := none
  length := 0
  level := 1

variable (zsl : Skiplist S)

namespace Skiplist

def forward (zsl : Skiplist S) (i x : ℕ) : Option ℕ := (zsl.node x).forward i

def span (zsl : Skiplist S) (i x : ℕ) : ℕ := (zsl.node x).span i

def modify (x : ℕ) (f : Node S → Node S) : Skiplist S :=
  { zsl with node := update zsl.node x (f (zsl.node x)) }

def setForward (i x : ℕ) (y : Option ℕ) : Skiplist S :=
  zsl.modify x fun n => { n with forward := update n.forward i y }

def setSpan (i x : ℕ) (k : ℕ) : Skiplist S :=
  zsl.modify x fun n => { n with span := update n.span i k }

def setBackward (x : ℕ) (y : Option ℕ) : Skiplist S :=
  zsl.modify x fun n => { n with backward := y }

def alloc (n : Node S) : Skiplist S :=
  { zsl with node := update zsl.node zsl.fresh n, fresh := zsl.fresh + 1 }

end Skiplist

/-! ## Searching -/

structure Search where
  x : ℕ
  /-- `rank` or `traversed`. -/
  traversed : ℕ
  update : ℕ → ℕ
  rank : ℕ → ℕ

/-- The loop along one level: while there is a next node and the test holds of it and of the number
of nodes traversed to reach it. -/
def walkLevel (go : ℕ → Node S → Bool) (i x t : ℕ) : ℕ × ℕ :=
  walk (zsl.forward i) (zsl.span i) (fun t y => go t (zsl.node y)) (zsl.length + 1) x t

def searchLevel (go : ℕ → Node S → Bool) (i : ℕ) (s : Search) : Search :=
  let r := walkLevel zsl go i s.x s.traversed
  ⟨r.1, r.2, update s.update i r.1, update s.rank i r.2⟩

def descend (zsl : Skiplist S) (go : ℕ → Node S → Bool) : ℕ → Search → Search
  | 0, s => s
  | i + 1, s => descend zsl go i (searchLevel zsl go i s)

def search (go : ℕ → Node S → Bool) : Search :=
  descend zsl go zsl.level ⟨header, 0, fun _ => header, fun _ => 0⟩

/-! ## Inserting a node -/

/-- `if (level > zsl->level)`. -/
def raiseLevel (s : Search) (level : ℕ) : Skiplist S × Search :=
  if level > zsl.level then
    let new := List.range' zsl.level (level - zsl.level)
    ({ new.foldl (fun z i => z.setSpan i header zsl.length) zsl with level := level }, { s with
        update := new.foldl (fun u i => update u i header) s.update
        rank := new.foldl (fun r i => update r i 0) s.rank })
  else (zsl, s)

/-- Insert the node `x` at one of its levels. -/
def linkLevel (x : ℕ) (s : Search) (zsl : Skiplist S) (i : ℕ) : Skiplist S :=
  let u := s.update i
  let zsl := zsl.setForward i x (zsl.forward i u)
  let zsl := zsl.setForward i u (some x)
  let zsl := zsl.setSpan i x (zsl.span i u - (s.rank 0 - s.rank i))
  zsl.setSpan i u (s.rank 0 - s.rank i + 1)

def bumpSpan (s : Search) (zsl : Skiplist S) (i : ℕ) : Skiplist S :=
  zsl.setSpan i (s.update i) (zsl.span i (s.update i) + 1)

def linkBackward (x u : ℕ) : Skiplist S :=
  let zsl := zsl.setBackward x (if u = header then none else some u)
  match zsl.forward 0 x with
  | some y => zsl.setBackward y (some x)
  | none => { zsl with tail := some x }

def insertNode (s : Search) (level : ℕ) (score : S) (obj : Bytes) : Skiplist S :=
  let x := zsl.fresh
  let zsl := zsl.alloc (zslCreateNode level score (some obj))
  let zsl := (List.range level).foldl (linkLevel x s) zsl
  let zsl := (List.range' level (zsl.level - level)).foldl (bumpSpan s) zsl
  let zsl := linkBackward zsl x (s.update 0)
  { zsl with length := zsl.length + 1 }

/-! ## Deleting a node -/

def unlinkLevel (x : ℕ) (update : ℕ → ℕ) (zsl : Skiplist S) (i : ℕ) : Skiplist S :=
  let u := update i
  if zsl.forward i u = some x then
    -- `x->level[i].span - 1` may wrap around, the sum does not
    let zsl := zsl.setSpan i u (zsl.span i u + zsl.span i x - 1)
    zsl.setForward i u (zsl.forward i x)
  else zsl.setSpan i u (zsl.span i u - 1)

/-- `while(zsl->level > 1 && zsl->header->level[zsl->level-1].forward == NULL)`. -/
def lowerLevel (zsl : Skiplist S) : ℕ → ℕ
  | 0 => 0
  | 1 => 1
  | n + 2 => if zsl.forward (n + 1) header = none then lowerLevel zsl (n + 1) else n + 2

def unlinkBackward (x : ℕ) : Skiplist S :=
  match zsl.forward 0 x with
  | some y => zsl.setBackward y (zsl.node x).backward
  | none => { zsl with tail := (zsl.node x).backward }

def zslDeleteNode (x : ℕ) (update : ℕ → ℕ) : Skiplist S :=
  let zsl := (List.range zsl.level).foldl (unlinkLevel x update) zsl
  let zsl := unlinkBackward zsl x
  { zsl with level := lowerLevel zsl zsl.level, length := zsl.length - 1 }

variable [LinearOrder S]

/-! ## Insertion and deletion of elements -/

def nodeBefore (score : S) (obj : Bytes) (n : Node S) : Bool :=
  n.score < score || (n.score = score && compareStringObjects n.str obj == .lt)

def nodeUpTo (score : S) (obj : Bytes) (n : Node S) : Bool :=
  n.score < score || (n.score = score && compareStringObjects n.str obj != .gt)

variable (zsl : Skiplist S)

/-- `zslInsert`; `level` is the value of `zslRandomLevel`. -/
def zslInsert (level : ℕ) (score : S) (obj : Bytes) : Skiplist S :=
  let s := search zsl fun _ => nodeBefore score obj
  let r := raiseLevel zsl s level
  insertNode r.1 r.2 level score obj

/-- `zslDelete`, with the returned flag. -/
def zslDelete (score : S) (obj : Bytes) : Skiplist S × Bool :=
  let s := search zsl fun _ => nodeBefore score obj
  match zsl.forward 0 s.x with
  | some x =>
    if score = (zsl.node x).score ∧ equalStringObjects (zsl.node x).str obj then
      (zslDeleteNode zsl x s.update, true)
    else (zsl, false)
  | none => (zsl, false)

structure RangeSpec (S : Type) where
  min : S
  max : S
  minex : Bool
  maxex : Bool

/-- The loop that deletes nodes while the test holds of the number of nodes removed so far and of
the score; the strings removed from the dictionary are collected, and `removed` is their number. -/
def deleteLoop (test : ℕ → S → Bool) (update : ℕ → ℕ) :
    ℕ → Skiplist S → Option ℕ → List Bytes → Skiplist S × List Bytes
  | 0, zsl, _, removed => (zsl, removed)
  | _ + 1, zsl, none, removed => (zsl, removed)
  | fuel + 1, zsl, some x, removed =>
    if test removed.length (zsl.node x).score then
      deleteLoop test update fuel (zslDeleteNode zsl x update) (zsl.forward 0 x)
        (removed ++ [(zsl.node x).str])
    else (zsl, removed)

variable (range : RangeSpec S)

def zslDeleteRangeByScore : Skiplist S × List Bytes :=
  let s := search zsl fun _ n => if range.minex then n.score ≤ range.min else n.score < range.min
  deleteLoop (fun _ value => if range.maxex then value < range.max else value ≤ range.max) s.update
    zsl.length zsl (zsl.forward 0 s.x) []

/-- `zslDeleteRangeByRank`; `start` and `stop` are 1-based and inclusive. -/
def zslDeleteRangeByRank (start stop : ℕ) : Skiplist S × List Bytes :=
  let s := search zsl fun t _ => t < start
  deleteLoop (fun removed _ => s.traversed + 1 + removed ≤ stop) s.update
    zsl.length zsl (zsl.forward 0 s.x) []

/-! ## Ranks -/

/-- The loop over the levels of `zslGetRank`. -/
def rankLoop (zsl : Skiplist S) (score : S) (obj : Bytes) : ℕ → ℕ → ℕ → ℕ
  | 0, _, _ => 0
  | i + 1, x, rank =>
    let r := walkLevel zsl (fun _ => nodeUpTo score obj) i x rank
    if (zsl.node r.1).obj.any (equalStringObjects · obj) then r.2
    else rankLoop zsl score obj i r.1 r.2

def zslGetRank (score : S) (obj : Bytes) : ℕ :=
  rankLoop zsl score obj zsl.level header 0

/-- The loop over the levels of `zslGetElementByRank`. -/
def elementLoop (zsl : Skiplist S) (rank : ℕ) : ℕ → ℕ → ℕ → Option ℕ
  | 0, _, _ => none
  | i + 1, x, traversed =>
    let r := walkLevel zsl (fun t _ => t ≤ rank) i x traversed
    if r.2 = rank then some r.1 else elementLoop zsl rank i r.1 r.2

def zslGetElementByRank (rank : ℕ) : Option ℕ :=
  elementLoop zsl rank zsl.level header 0

/-! ## Ranges of scores -/

def zslValueGteMin (value : S) (spec : RangeSpec S) : Bool :=
  if spec.minex then spec.min < value else spec.min ≤ value

def zslValueLteMax (value : S) (spec : RangeSpec S) : Bool :=
  if spec.maxex then value < spec.max else value ≤ spec.max

def zslIsInRange : Bool :=
  if range.max < range.min ∨ (range.min = range.max ∧ (range.minex ∨ range.maxex)) then false
  else if zsl.tail.all fun x => !zslValueGteMin (zsl.node x).score range then false
  else if (zsl.forward 0 header).all fun x => !zslValueLteMax (zsl.node x).score range then false
  else true

/-- `zslFirstInRange`; the outer `none` is the failed assertion. -/
def zslFirstInRange : Option (Option ℕ) :=
  if zslIsInRange zsl range then
    match zsl.forward 0 (search zsl fun _ n => !zslValueGteMin n.score range).x with
    | none => none
    | some x => some (if zslValueLteMax (zsl.node x).score range then some x else none)
  else some none

/-- `zslLastInRange`.  The node reached is never NULL. -/
def zslLastInRange : Option ℕ :=
  if zslIsInRange zsl range then
    let x := (search zsl fun _ n => zslValueLteMax n.score range).x
    if zslValueGteMin (zsl.node x).score range then some x else none
  else none

end ServerStack.Redis.Zset
