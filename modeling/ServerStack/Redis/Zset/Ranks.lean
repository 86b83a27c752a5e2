import ServerStack.Redis.Zset.SkiplistSpec

/-!
# Reachable skiplists

What the pointers of a skiplist say, for every skiplist reached from `zslCreate`: the order of
level 0, the levels above it, spans, pointers backward, and that ranks and elements determine each
other if no element occurs with two scores, which the callers ensure with the dictionary of the
sorted set.
-/

namespace ServerStack.Redis.Zset

open Util SpanChain List

variable {S : Type}

/-! ## Following pointers -/

/-- The nodes from a pointer on along level `i`. -/
def follow (zsl : Skiplist S) (i : ℕ) : ℕ → Option ℕ → List ℕ
  | 0, _ => []
  | _ + 1, none => []
  | fuel + 1, some x => x :: follow zsl i fuel (zsl.forward i x)

/-- The nodes of level `i`. -/
def levelList (zsl : Skiplist S) (i : ℕ) : List ℕ :=
  follow zsl i zsl.length (zsl.forward i header)

/-- The position of a node in level 0; the header is at 0. -/
def position (zsl : Skiplist S) (x : ℕ) : ℕ :=
  if x = header then 0 else (levelList zsl 0).idxOf x + 1

section

variable {zsl : Skiplist S} {ns : List ℕ} {i x : ℕ} {P R A B : List ℕ}

variable (h : Shape zsl ns)

include h

theorem Shape.follow (hi : i < zsl.level) :
    ∀ (fuel : ℕ) (P : List ℕ) (x : ℕ) (R : List ℕ), header :: ns = P ++ x :: R →
      tall zsl i x = true → R.length ≤ fuel →
      Zset.follow zsl i fuel (zsl.forward i x) = R.filter (tall zsl i) := by
  intro fuel
  induction fuel with
  | zero =>
    intro P x R _ _ hfuel
    obtain rfl := eq_nil_of_length_eq_zero (Nat.le_zero.1 hfuel)
    rfl
  | succ fuel ih =>
    intro P x R hsplit hx hfuel
    rw [(h.linked i hi P x R hsplit hx).1]
    by_cases hR : ∃ y ∈ R, tall zsl i y = true
    · obtain ⟨w, hw, hpw⟩ := hR
      obtain ⟨R₁, y, R₂, rfl, hR₁, hy⟩ := exists_first hw hpw
      have hnone : R₁.filter (tall zsl i) = [] :=
        filter_eq_nil_iff.2 fun z hz => by simp [hR₁ z hz]
      rw [length_append, length_cons] at hfuel
      rw [(find?_steps_first hR₁ hy).1, Zset.follow,
        ih (P ++ x :: R₁) y R₂ (by simp [hsplit]) hy (by omega), filter_append, hnone,
        filter_cons_of_pos hy, nil_append]
    · push Not at hR
      have hnone : R.find? (tall zsl i) = none := find?_eq_none.2 fun y hy => hR y hy
      rw [hnone, Zset.follow, filter_eq_nil_iff.2 hR]

theorem Shape.levelList (hi : i < zsl.level) : Zset.levelList zsl i = ns.filter (tall zsl i) :=
  h.follow hi zsl.length [] header ns rfl (h.tall_header (lt_of_lt_of_le hi h.level.2)) h.length.ge

theorem Shape.levelList_zero : Zset.levelList zsl 0 = ns := by
  rw [h.levelList h.level.1, filter_eq_self]
  intro x hx
  rw [tall, decide_eq_true_iff]
  exact (h.height x hx).1

theorem Shape.mem_of_levelList (hi : i < zsl.level) (hx : x ∈ header :: Zset.levelList zsl i) :
    x ∈ header :: ns ∧ tall zsl i x = true := by
  rw [h.levelList hi, mem_cons, mem_filter] at hx
  rcases hx with rfl | hx
  · exact ⟨mem_cons_self, h.tall_header (lt_of_lt_of_le hi h.level.2)⟩
  · exact ⟨mem_cons_of_mem _ hx.1, hx.2⟩

theorem Shape.position (hsplit : header :: ns = P ++ x :: R) : Zset.position zsl x = P.length := by
  rw [Zset.position, h.levelList_zero]
  cases P with
  | nil =>
    obtain ⟨rfl, -⟩ := List.cons.inj hsplit
    rw [if_pos rfl, length_nil]
  | cons y P =>
    rw [cons_append] at hsplit
    obtain ⟨rfl, hns⟩ := List.cons.inj hsplit
    have hnd := nodup_cons.1 h.nodup
    have hx : x ≠ header := by
      rintro rfl
      exact hnd.1 (by simp [hns])
    have hnot : x ∉ P := by
      have hnd' := hnd.2
      rw [hns, nodup_append] at hnd'
      exact fun hmem => hnd'.2.2 x hmem x mem_cons_self rfl
    rw [if_neg hx, hns, idxOf_append_of_notMem hnot, idxOf_cons_self, length_cons]

theorem Shape.span_le (hi : i < zsl.level) (hx : x ∈ header :: Zset.levelList zsl i) :
    zsl.span i x ≤ zsl.length := by
  have hmem : x ∈ header :: ns ∧ tall zsl i x = true := h.mem_of_levelList hi hx
  obtain ⟨P, R, hsplit⟩ := append_of_mem hmem.1
  obtain ⟨-, hspan⟩ := h.linked i hi P x R hsplit hmem.2
  have hlen := congrArg List.length hsplit
  have hsteps := steps_le_length (tall zsl i) R
  rw [length_cons, length_append, length_cons] at hlen
  rw [hspan, h.length]
  omega

theorem Shape.span (hi : i < zsl.level) (hx : x ∈ header :: Zset.levelList zsl i) :
    Zset.position zsl x + zsl.span i x =
      match zsl.forward i x with
      | some y => Zset.position zsl y
      | none => zsl.length := by
  have hmem : x ∈ header :: ns ∧ tall zsl i x = true := h.mem_of_levelList hi hx
  obtain ⟨P, R, hsplit⟩ := append_of_mem hmem.1
  obtain ⟨hnext, hspan⟩ := h.linked i hi P x R hsplit hmem.2
  rw [hnext, hspan, h.position hsplit]
  by_cases hR : ∃ y ∈ R, tall zsl i y = true
  · obtain ⟨w, hw, hpw⟩ := hR
    obtain ⟨R₁, y, R₂, rfl, hR₁, hy⟩ := exists_first hw hpw
    obtain ⟨hfind, hsteps⟩ := find?_steps_first hR₁ hy (Q := R₂)
    have hsplit' : header :: ns = (P ++ x :: R₁) ++ y :: R₂ := by simp [hsplit]
    rw [hfind, hsteps]
    simp only
    rw [h.position hsplit', length_append, length_cons]
  · push Not at hR
    have hnone : ∀ y ∈ R, tall zsl i y = false := fun y hy => by simpa using hR y hy
    have hsteps := steps_append_of_none hnone (B := [])
    have hlen := congrArg List.length hsplit
    rw [append_nil] at hsteps
    rw [find?_eq_none.2 hR, hsteps]
    simp only [steps, Nat.add_zero]
    rw [length_cons, length_append, length_cons] at hlen
    rw [h.length]
    omega

/-! ## Ranks -/

theorem Shape.walkLevel_split (hsplit : header :: ns = A ++ B)
    (go : ℕ → Node S → Bool) (hcut : Cut (fun t y => go t (zsl.node y)) A B) (hi : i < zsl.level)
    (hA : A = P ++ x :: R) (hx : tall zsl i x = true) :
    ∃ y P' R', Zset.walkLevel zsl go i x P.length = (y, P'.length) ∧ A = P' ++ y :: R' ∧
      tall zsl (i - 1) y = true ∧ (i = 0 → R' = []) := by
  have hlast := h.walkLevel hsplit hcut hi hA hx
  obtain ⟨P', R', hA', hn, hy, hR'⟩ := hlast
  refine ⟨_, P', R', Prod.ext rfl hn.symm, hA', tall_mono (Nat.sub_le i 1) hy, ?_⟩
  rintro rfl
  have hlen := (h.lastIn_zero hsplit ⟨P', R', hA', rfl, hy, hR'⟩).2
  rw [congrArg List.length hA', length_append, length_cons] at hlen
  exact eq_nil_of_length_eq_zero (by omega)

theorem Shape.elementLoop {rank : ℕ} (hsplit : header :: ns = A ++ B)
    (hlen : A.length = rank + 1) (hcut : Cut (fun t _ => decide (t ≤ rank)) A B) :
    ∀ (i : ℕ) (P : List ℕ) (x : ℕ) (R : List ℕ), 0 < i → i ≤ zsl.level → A = P ++ x :: R →
      tall zsl (i - 1) x = true → Zset.elementLoop zsl rank i x P.length = A.getLast? := by
  intro i
  induction i with
  | zero => exact fun _ _ _ hpos => absurd hpos (Nat.lt_irrefl 0)
  | succ i ih =>
    intro P x R _ hi hA hx
    obtain ⟨y, P', R', hwalk, hA', hy, hzero⟩ :=
      h.walkLevel_split hsplit (fun t _ => decide (t ≤ rank)) hcut hi hA hx
    rw [Zset.elementLoop, hwalk]
    have hlen' := congrArg List.length hA'
    rw [length_append, length_cons] at hlen'
    by_cases hR' : R' = []
    · subst hR'
      rw [length_nil] at hlen'
      rw [if_pos (by omega), hA', getLast?_concat]
    · have hpos : 0 < R'.length := length_pos_iff.2 hR'
      rw [if_neg (by omega)]
      exact ih P' y R' (Nat.pos_of_ne_zero fun h0 => hR' (hzero h0)) (Nat.le_of_succ_le hi) hA' hy

theorem Shape.getElementByRank (hns : ns = P ++ x :: R) :
    zslGetElementByRank zsl (P.length + 1) = some x := by
  have hsplit : header :: ns = (header :: ns.take (P.length + 1)) ++ ns.drop (P.length + 1) := by
    rw [cons_append, take_append_drop]
  have htake : ns.take (P.length + 1) = P ++ [x] := by
    rw [hns, take_append, take_of_length_le (by omega), Nat.add_sub_cancel_left]
    rfl
  have hcut : Cut (fun t _ => decide (t ≤ P.length + 1)) (header :: ns.take (P.length + 1))
      (ns.drop (P.length + 1)) :=
    cut_take header fun n _ => decide_eq_true_iff
  have hlevel := h.level
  have hloop := h.elementLoop hsplit (by simp [htake]) hcut zsl.level [] header _ hlevel.1 le_rfl
    rfl (h.tall_header (by omega))
  rw [htake, ← cons_append, getLast?_concat] at hloop
  exact hloop

theorem Shape.rankLoop [LinearOrder S] {score : S} {obj : Bytes}
    (hsplit : header :: ns = A ++ B) (hcut : Cut (fun _ y => nodeUpTo score obj (zsl.node y)) A B)
    (hhit : ∀ P y R, A = P ++ y :: R →
      ((zsl.node y).obj.any (equalStringObjects · obj) = true ↔ R = [])) :
    ∀ (i : ℕ) (P : List ℕ) (x : ℕ) (R : List ℕ), 0 < i → i ≤ zsl.level → A = P ++ x :: R →
      tall zsl (i - 1) x = true → Zset.rankLoop zsl score obj i x P.length + 1 = A.length := by
  intro i
  induction i with
  | zero => exact fun _ _ _ hpos => absurd hpos (Nat.lt_irrefl 0)
  | succ i ih =>
    intro P x R _ hi hA hx
    obtain ⟨y, P', R', hwalk, hA', hy, hzero⟩ :=
      h.walkLevel_split hsplit (fun _ => nodeUpTo score obj) hcut hi hA hx
    rw [Zset.rankLoop, hwalk]
    by_cases hR' : R' = []
    · rw [if_pos ((hhit P' y R' hA').2 hR'), hA', hR', length_append]
      rfl
    · rw [if_neg fun hobj => hR' ((hhit P' y R' hA').1 hobj)]
      exact ih P' y R' (Nat.pos_of_ne_zero fun h0 => hR' (hzero h0)) (Nat.le_of_succ_le hi) hA' hy

end

variable [LinearOrder S] {zsl : Skiplist S} {ns : List ℕ}

def elements (zsl : Skiplist S) (ns : List ℕ) : List Bytes := ns.map fun x => (zsl.node x).str

variable {P R : List ℕ} {x : ℕ}

theorem Rep.takeWhile_upTo (h : Rep zsl ns) (hns : ns = P ++ x :: R) {test : ℕ → Bool}
    (htest : ∀ y, test y = true ↔ key (zsl.node y).entry ≤ key (zsl.node x).entry) :
    ns.takeWhile test = P ++ [x] := by
  have hpair := h.pairwise
  rw [hns, pairwise_append] at hpair
  obtain ⟨-, hxR, hPx⟩ := hpair
  have hP : ∀ y ∈ P, test y = true := fun y hy => (htest y).2 (hPx y hy x mem_cons_self).le
  rw [hns, takeWhile_append_of_pos hP, takeWhile_cons_of_pos ((htest x).2 le_rfl)]
  congr 2
  cases R with
  | nil => rfl
  | cons y R =>
    have hlt := (pairwise_cons.1 hxR).1 y mem_cons_self
    exact takeWhile_cons_of_neg fun hy => absurd ((htest y).1 hy) (not_le.2 hlt)

omit [LinearOrder S] in
theorem any_equalStringObjects (o : Option Bytes) (s : Bytes) :
    o.any (equalStringObjects · s) = true ↔ o = some s := by
  cases o with
  | none => simp
  | some t => simp [equalStringObjects_iff]

omit [LinearOrder S] in
theorem Shape.obj_eq_some (h : Shape zsl ns) (hx : x ∈ ns) :
    (zsl.node x).obj = some (zsl.node x).str := by
  obtain ⟨o, ho⟩ := Option.isSome_iff_exists.1 (h.obj x hx)
  rw [Node.str, ho, Option.getD_some]

omit [LinearOrder S] in
theorem Shape.hit_iff (h : Shape zsl ns) (hdistinct : (elements zsl ns).Nodup)
    (hns : ns = P ++ x :: R) (P' : List ℕ) (y : ℕ) (R' : List ℕ)
    (hA : header :: (P ++ [x]) = P' ++ y :: R') :
    (zsl.node y).obj.any (equalStringObjects · (zsl.node x).str) = true ↔ R' = [] := by
  have hx : x ∈ ns := by simp [hns]
  rw [any_equalStringObjects]
  constructor
  · intro hobj
    have hy : y ∈ header :: (P ++ [x]) := by simp [hA]
    rcases mem_cons.1 hy with rfl | hy
    · rw [h.header_obj] at hobj
      cases hobj
    · have hy' : y ∈ ns := by
        rw [hns, append_cons]
        exact mem_append_left R hy
      have hstr : (zsl.node y).str = (zsl.node x).str :=
        Option.some.inj ((h.obj_eq_some hy').symm.trans hobj)
      obtain rfl := inj_on_of_nodup_map hdistinct hy' hx hstr
      have hnd := h.nodup
      rw [hns, append_cons, ← cons_append] at hnd
      have hnd' := (nodup_append.1 hnd).1
      rw [← cons_append] at hA hnd'
      exact (split_unique hnd' hA).2.symm
  · rintro rfl
    have hlast := congrArg List.getLast? hA
    rw [← cons_append, getLast?_concat, getLast?_concat] at hlast
    cases hlast
    exact h.obj_eq_some hx

theorem Rep.getRank (h : Rep zsl ns) (hdistinct : (elements zsl ns).Nodup) (hns : ns = P ++ x :: R) :
    zslGetRank zsl (zsl.node x).score (zsl.node x).str = P.length + 1 := by
  obtain ⟨test, htest⟩ : ∃ test : ℕ → Bool,
      test = fun y => nodeUpTo (zsl.node x).score (zsl.node x).str (zsl.node y) := ⟨_, rfl⟩
  have hiff : ∀ y, test y = true ↔ key (zsl.node y).entry ≤ key (zsl.node x).entry := fun y => by
    rw [htest]
    exact nodeUpTo_iff _ _ _
  have htake := h.takeWhile_upTo hns hiff
  have hcut := cut_takeWhile header (h.pairwise.imp fun hlt hy =>
    (hiff _).2 (hlt.le.trans ((hiff _).1 hy)))
  have hsplit : header :: ns = (header :: ns.takeWhile test) ++ ns.dropWhile test := by
    rw [cons_append, takeWhile_append_dropWhile]
  rw [htake] at hcut hsplit
  rw [htest] at hcut hsplit
  have hlevel := h.shape.level
  have hloop := h.shape.rankLoop hsplit hcut (h.shape.hit_iff hdistinct hns) zsl.level [] header _
    hlevel.1 le_rfl rfl (h.shape.tall_header (by omega))
  rw [length_cons, length_append] at hloop
  exact Nat.succ.inj hloop

/-! ## Every reachable skiplist -/

/-- A run of the operations from `zslCreate`.  The level is any that `zslRandomLevel` can return,
the pair inserted is not in the list, and the list stays shorter than `2 ^ 32`. -/
inductive Reachable [Zero S] : Skiplist S → Prop
  | create : Reachable zslCreate
  | insert {zsl : Skiplist S} {level : ℕ} {score : S} {obj : Bytes} : Reachable zsl → 0 < level →
      level ≤ maxLevel → (score, obj) ∉ entries zsl (levelList zsl 0) → zsl.length + 1 < 2 ^ 32 →
      Reachable (zslInsert zsl level score obj)
  | delete {zsl : Skiplist S} (score : S) (obj : Bytes) : Reachable zsl →
      Reachable (zslDelete zsl score obj).1
  | deleteRangeByScore {zsl : Skiplist S} (range : RangeSpec S) : Reachable zsl →
      Reachable (zslDeleteRangeByScore zsl range).1
  | deleteRangeByRank {zsl : Skiplist S} (start stop : ℕ) : Reachable zsl →
      Reachable (zslDeleteRangeByRank zsl start stop).1

omit [LinearOrder S] in
theorem length_entries (zsl : Skiplist S) (ns : List ℕ) : (entries zsl ns).length = ns.length :=
  length_map _

theorem Reachable.rep [Zero S] (h : Reachable zsl) : ∃ ns, Rep zsl ns ∧ ns.length < 2 ^ 32 := by
  induction h with
  | create => exact ⟨[], rep_zslCreate, by decide⟩
  | @insert zsl _ score obj _ hpos hlevel hnew hlt ih =>
    obtain ⟨ns, hns, -⟩ := ih
    rw [hns.shape.levelList_zero] at hnew
    obtain ⟨ns', hns', hentries⟩ := hns.insert hpos hlevel hnew
    refine ⟨ns', hns', ?_⟩
    have hsum := length_eq_length_filter_add (l := entries zsl ns)
      fun a => decide (key a < key (score, obj))
    have hlen := congrArg List.length hentries
    rw [length_entries, insertEntry, length_append, length_cons] at hlen
    rw [length_entries] at hsum
    rw [hns.shape.length] at hlt
    omega
  | delete score obj _ ih =>
    obtain ⟨ns, hns, hlt⟩ := ih
    obtain ⟨ns', hns', hentries, -⟩ := hns.delete score obj
    refine ⟨ns', hns', lt_of_le_of_lt ?_ hlt⟩
    rw [← length_entries _ ns', hentries, ← length_entries _ ns]
    exact length_filter_le _ _
  | deleteRangeByScore range _ ih =>
    obtain ⟨ns, hns, hlt⟩ := ih
    obtain ⟨ns', hns', hentries, -⟩ := hns.deleteRangeByScore range
    refine ⟨ns', hns', lt_of_le_of_lt ?_ hlt⟩
    rw [← length_entries _ ns', hentries, ← length_entries _ ns]
    exact length_filter_le _ _
  | deleteRangeByRank start stop _ ih =>
    obtain ⟨ns, hns, hlt⟩ := ih
    obtain ⟨ns', hns', hentries, -⟩ := hns.deleteRangeByRank start stop
    refine ⟨ns', hns', lt_of_le_of_lt ?_ hlt⟩
    have hlen := congrArg List.length hentries
    rw [length_entries, deleteRanks, length_append, length_drop, length_take, length_drop,
      length_entries] at hlen
    omega

structure Invariant (zsl : Skiplist S) : Prop where
  /-- Level 0 is in strictly increasing order of scores, then of the bytes of the elements. -/
  sorted : Sorted (entries zsl (levelList zsl 0))
  sublist : ∀ i, i + 1 < zsl.level → (levelList zsl (i + 1)).Sublist (levelList zsl i)
  /-- A span counts the steps of level 0 to the next node, or to the end. -/
  span : ∀ i < zsl.level, ∀ x ∈ header :: levelList zsl i, position zsl x + zsl.span i x =
      match zsl.forward i x with
      | some y => position zsl y
      | none => zsl.length
  span_le : ∀ i < zsl.level, ∀ x ∈ header :: levelList zsl i, zsl.span i x ≤ zsl.length
  backward : Mirrored (fun x => (zsl.node x).backward) (levelList zsl 0)
  tail : zsl.tail = (levelList zsl 0).getLast?
  length : zsl.length = (levelList zsl 0).length

/-- The rank of a node and the node of a rank determine each other. -/
structure RankBijection (zsl : Skiplist S) : Prop where
  element : ∀ rank, 0 < rank → rank ≤ zsl.length → ∃ x ∈ levelList zsl 0,
    zslGetElementByRank zsl rank = some x ∧
    zslGetRank zsl (zsl.node x).score (zsl.node x).str = rank
  rank : ∀ x ∈ levelList zsl 0, 0 < zslGetRank zsl (zsl.node x).score (zsl.node x).str ∧
    zslGetRank zsl (zsl.node x).score (zsl.node x).str ≤ zsl.length ∧
    zslGetElementByRank zsl (zslGetRank zsl (zsl.node x).score (zsl.node x).str) = some x

theorem Rep.invariant (h : Rep zsl ns) : Invariant zsl where
  sorted := by
    rw [h.shape.levelList_zero]
    exact h.sorted
  sublist i hi := by
    rw [h.shape.levelList hi, h.shape.levelList (Nat.lt_of_succ_lt hi)]
    exact monotone_filter_right ns fun x hx => tall_mono (Nat.le_succ i) hx
  span i hi x hx := h.shape.span hi hx
  span_le i hi x hx := h.shape.span_le hi hx
  backward := by
    rw [h.shape.levelList_zero]
    exact h.shape.backward
  tail := by rw [h.shape.levelList_zero, h.shape.tail]
  length := by rw [h.shape.levelList_zero, h.shape.length]

theorem Rep.rankBijection (h : Rep zsl ns) (hdistinct : (elements zsl ns).Nodup) :
    RankBijection zsl where
  element rank hpos hle := by
    rw [h.shape.length] at hle
    have hlt : rank - 1 < ns.length := by omega
    have hns : ns = ns.take (rank - 1) ++ ns[rank - 1] :: ns.drop (rank - 1 + 1) := by
      rw [← drop_eq_getElem_cons hlt, take_append_drop]
    have hlen : (ns.take (rank - 1)).length + 1 = rank := by
      rw [length_take]
      omega
    have helement := h.shape.getElementByRank hns
    have hrank := h.getRank hdistinct hns
    rw [hlen] at helement hrank
    rw [h.shape.levelList_zero]
    exact ⟨ns[rank - 1], getElem_mem hlt, helement, hrank⟩
  rank x hx := by
    rw [h.shape.levelList_zero] at hx
    obtain ⟨P, R, hns⟩ := append_of_mem hx
    have hlen := congrArg List.length hns
    rw [length_append, length_cons] at hlen
    rw [h.getRank hdistinct hns, h.shape.length]
    exact ⟨Nat.succ_pos _, by omega, h.shape.getElementByRank hns⟩

/-- In every reachable skiplist order, levels, spans, pointers backward and the length agree, and
the length is less than `2 ^ 32`; ranks and elements determine each other if no element occurs
twice. -/
theorem skiplist_invariant [Zero S] {zsl : Skiplist S} (h : Reachable zsl) :
    Invariant zsl ∧ zsl.length < 2 ^ 32 ∧
      ((elements zsl (levelList zsl 0)).Nodup → RankBijection zsl) := by
  obtain ⟨ns, hns, hlt⟩ := h.rep
  refine ⟨hns.invariant, hns.shape.length ▸ hlt, fun hdistinct => ?_⟩
  rw [hns.shape.levelList_zero] at hdistinct
  exact hns.rankBijection hdistinct

/-- Three elements, two of them with equal scores, one of them deleted again. -/
theorem skiplist_invariant_three :
    ∃ zsl : Skiplist ℤ, Reachable zsl ∧ elements zsl (levelList zsl 0) = [[99], [98]] ∧
      Invariant zsl ∧ RankBijection zsl := by
  have h₁ : Reachable (zslInsert (zslCreate : Skiplist ℤ) 2 7 [98]) :=
    .insert .create (by decide) (by decide) (by decide) (by decide)
  have h₂ : Reachable (zslInsert (zslInsert (zslCreate : Skiplist ℤ) 2 7 [98]) 1 (-5) [99]) :=
    .insert h₁ (by decide) (by decide) (by decide +kernel) (by decide +kernel)
  have h₃ : Reachable (zslInsert (zslInsert (zslInsert (zslCreate : Skiplist ℤ) 2 7 [98]) 1 (-5)
      [99]) 3 7 [97]) :=
    .insert h₂ (by decide) (by decide) (by decide +kernel) (by decide +kernel)
  have h₄ := Reachable.delete 7 [97] h₃
  obtain ⟨hinv, -, hrank⟩ := skiplist_invariant h₄
  exact ⟨_, h₄, by decide +kernel, hinv, hrank (by decide +kernel)⟩

/-- One element with two scores: the search for the second node stops at the first one, which has
the same element. -/
theorem rank_of_repeated_element : ∃ zsl : Skiplist ℤ, Reachable zsl ∧ ¬ RankBijection zsl := by
  have h₁ : Reachable (zslInsert (zslCreate : Skiplist ℤ) 2 1 [97]) :=
    .insert .create (by decide) (by decide) (by decide) (by decide)
  have h₂ : Reachable (zslInsert (zslInsert (zslCreate : Skiplist ℤ) 2 1 [97]) 1 2 [97]) :=
    .insert h₁ (by decide) (by decide) (by decide +kernel) (by decide +kernel)
  refine ⟨_, h₂, fun h => ?_⟩
  have hrank := (h.rank 2 (by decide +kernel)).2.2
  revert hrank
  decide +kernel

end ServerStack.Redis.Zset
