import ServerStack.Redis.Zset.Skiplist

/-!
# The shape of a skiplist

Every level of a skiplist is a chain with spans over the list of its nodes, and the pointers
backward and `tail` mirror that list.  The search loops find, at each level, the last node before a
place of the list; insertion and deletion there keep the shape.
-/

namespace ServerStack.Redis.Zset

open Util SpanChain List Function

variable {S : Type}

/-! ## Levels -/

namespace Skiplist

section

variable (zsl : Skiplist S)

def links (i : ℕ) : (ℕ → Option ℕ) × (ℕ → ℕ) := (zsl.forward i, zsl.span i)

theorem node_modify (x : ℕ) (f : Node S → Node S) (y : ℕ) :
    (zsl.modify x f).node y = if y = x then f (zsl.node x) else zsl.node y :=
  update_apply zsl.node x (f (zsl.node x)) y

theorem links_modify (x : ℕ) (f : Node S → Node S) (j : ℕ) :
    (zsl.modify x f).links j = (Function.update (zsl.forward j) x ((f (zsl.node x)).forward j),
      Function.update (zsl.span j) x ((f (zsl.node x)).span j)) := by
  refine Prod.ext (funext fun y => ?_) (funext fun y => ?_)
  · simp only [links, forward, node_modify, update_apply]
    split_ifs <;> rfl
  · simp only [links, span, node_modify, update_apply]
    split_ifs <;> rfl

theorem links_setForward (i x : ℕ) (v : Option ℕ) (j : ℕ) : (zsl.setForward i x v).links j =
      if j = i then (Function.update (zsl.forward i) x v, zsl.span i) else zsl.links j := by
  rw [setForward, links_modify]
  by_cases hj : j = i
  · subst hj
    rw [if_pos rfl]
    exact Prod.ext (by simp) (update_eq_self x (zsl.span j))
  · simp only [update_of_ne hj, if_neg hj]
    exact Prod.ext (update_eq_self x (zsl.forward j)) (update_eq_self x (zsl.span j))

theorem links_setSpan (i x k : ℕ) (j : ℕ) : (zsl.setSpan i x k).links j =
      if j = i then (zsl.forward i, Function.update (zsl.span i) x k) else zsl.links j := by
  rw [setSpan, links_modify]
  by_cases hj : j = i
  · subst hj
    rw [if_pos rfl]
    exact Prod.ext (update_eq_self x (zsl.forward j)) (by simp)
  · simp only [update_of_ne hj, if_neg hj]
    exact Prod.ext (update_eq_self x (zsl.forward j)) (update_eq_self x (zsl.span j))

end

structure SameData (zsl zsl' : Skiplist S) : Prop where
  score : ∀ x, (zsl'.node x).score = (zsl.node x).score
  obj : ∀ x, (zsl'.node x).obj = (zsl.node x).obj
  backward : ∀ x, (zsl'.node x).backward = (zsl.node x).backward
  height : ∀ x, (zsl'.node x).height = (zsl.node x).height
  fresh : zsl'.fresh = zsl.fresh
  tail : zsl'.tail = zsl.tail
  length : zsl'.length = zsl.length
  level : zsl'.level = zsl.level

theorem SameData.trans {zsl zsl' zsl'' : Skiplist S} (h : SameData zsl zsl')
    (h' : SameData zsl' zsl'') : SameData zsl zsl'' where
  score x := (h'.score x).trans (h.score x)
  obj x := (h'.obj x).trans (h.obj x)
  backward x := (h'.backward x).trans (h.backward x)
  height x := (h'.height x).trans (h.height x)
  fresh := h'.fresh.trans h.fresh
  tail := h'.tail.trans h.tail
  length := h'.length.trans h.length
  level := h'.level.trans h.level

theorem sameData_refl (zsl : Skiplist S) : SameData zsl zsl :=
  ⟨fun _ => rfl, fun _ => rfl, fun _ => rfl, fun _ => rfl, rfl, rfl, rfl, rfl⟩

theorem sameData_setForward (zsl : Skiplist S) (i x : ℕ) (v : Option ℕ) :
    SameData zsl (zsl.setForward i x v) := by
  constructor <;> intros <;> simp only [setForward, modify, update_apply] <;> grind

theorem sameData_setSpan (zsl : Skiplist S) (i x k : ℕ) : SameData zsl (zsl.setSpan i x k) := by
  constructor <;> intros <;> simp only [setSpan, modify, update_apply] <;> grind

/-- The skiplists differ in pointers backward and in `tail` only. -/
structure SameLinks (zsl zsl' : Skiplist S) : Prop where
  links : ∀ i, zsl'.links i = zsl.links i
  score : ∀ x, (zsl'.node x).score = (zsl.node x).score
  obj : ∀ x, (zsl'.node x).obj = (zsl.node x).obj
  height : ∀ x, (zsl'.node x).height = (zsl.node x).height
  fresh : zsl'.fresh = zsl.fresh
  length : zsl'.length = zsl.length
  level : zsl'.level = zsl.level

theorem SameLinks.trans {zsl zsl' zsl'' : Skiplist S} (h : SameLinks zsl zsl')
    (h' : SameLinks zsl' zsl'') : SameLinks zsl zsl'' where
  links i := (h'.links i).trans (h.links i)
  score x := (h'.score x).trans (h.score x)
  obj x := (h'.obj x).trans (h.obj x)
  height x := (h'.height x).trans (h.height x)
  fresh := h'.fresh.trans h.fresh
  length := h'.length.trans h.length
  level := h'.level.trans h.level

theorem sameLinks_setBackward (zsl : Skiplist S) (x : ℕ) (y : Option ℕ) :
    SameLinks zsl (zsl.setBackward x y) := by
  refine ⟨fun i => ?_, ?_, ?_, ?_, rfl, rfl, rfl⟩
  · rw [setBackward, links_modify]
    exact Prod.ext (update_eq_self x (zsl.forward i)) (update_eq_self x (zsl.span i))
  all_goals
    intro w
    simp only [setBackward, node_modify]
    split_ifs with hw <;> simp [hw]

theorem sameLinks_setTail (zsl : Skiplist S) (x : Option ℕ) :
    SameLinks zsl { zsl with tail := x } :=
  ⟨fun _ => rfl, fun _ => rfl, fun _ => rfl, fun _ => rfl, rfl, rfl, rfl⟩

theorem backward_setBackward (zsl : Skiplist S) (x : ℕ) (y : Option ℕ) (w : ℕ) :
    ((zsl.setBackward x y).node w).backward = if w = x then y else (zsl.node w).backward := by
  simp only [setBackward, node_modify]
  split_ifs <;> rfl

theorem sameData_foldl {f : Skiplist S → ℕ → Skiplist S} (hf : ∀ z i, SameData z (f z i))
    (l : List ℕ) (zsl : Skiplist S) : SameData zsl (l.foldl f zsl) := by
  induction l generalizing zsl with
  | nil => exact sameData_refl zsl
  | cons i l ih => exact (hf zsl i).trans (ih (f zsl i))

theorem links_foldl {f : Skiplist S → ℕ → Skiplist S}
    {F : ℕ → (ℕ → Option ℕ) × (ℕ → ℕ) → (ℕ → Option ℕ) × (ℕ → ℕ)}
    (hf : ∀ z i j, (f z i).links j = if j = i then F i (z.links i) else z.links j) {l : List ℕ}
    (hl : l.Nodup) (zsl : Skiplist S) (j : ℕ) :
    (l.foldl f zsl).links j = if j ∈ l then F j (zsl.links j) else zsl.links j := by
  induction l generalizing zsl with
  | nil => simp
  | cons i l ih =>
    obtain ⟨hi, hl⟩ := nodup_cons.1 hl
    rw [foldl_cons, ih hl, hf]
    by_cases hj : j = i
    · subst hj
      rw [if_neg hi, if_pos rfl, if_pos mem_cons_self]
    · simp only [mem_cons, hj, false_or, if_false]

end Skiplist

open Skiplist

/-! ## The shape -/

/-- The node reaches level `i`. -/
def tall (zsl : Skiplist S) (i x : ℕ) : Bool := decide (i < (zsl.node x).height)

theorem Skiplist.SameLinks.linked {zsl zsl' : Skiplist S} (h : SameLinks zsl zsl') {i : ℕ}
    {l : List ℕ} (hl : Linked (tall zsl i) (zsl.forward i) (zsl.span i) l) :
    Linked (tall zsl' i) (zsl'.forward i) (zsl'.span i) l := by
  refine hl.congr (fun y _ => ?_) (fun y _ => ?_) (fun y _ => ?_)
  · rw [tall, tall, h.height]
  · exact congrFun (congrArg Prod.fst (h.links i)) y
  · exact congrFun (congrArg Prod.snd (h.links i)) y

/-- The nodes of the skiplist are `ns`, in this order. -/
structure Shape (zsl : Skiplist S) (ns : List ℕ) : Prop where
  nodup : (header :: ns).Nodup
  lt_fresh : ∀ x ∈ header :: ns, x < zsl.fresh
  header_height : (zsl.node header).height = maxLevel
  header_obj : (zsl.node header).obj = none
  height : ∀ x ∈ ns, 0 < (zsl.node x).height ∧ (zsl.node x).height ≤ zsl.level
  obj : ∀ x ∈ ns, (zsl.node x).obj.isSome
  level : 0 < zsl.level ∧ zsl.level ≤ maxLevel
  /-- The levels that are not in use are empty. -/
  above : ∀ i, zsl.level ≤ i → zsl.forward i header = none
  /-- Each level is the chain of the nodes that reach it. -/
  linked : ∀ i < zsl.level, Linked (tall zsl i) (zsl.forward i) (zsl.span i) (header :: ns)
  backward : Mirrored (fun x => (zsl.node x).backward) ns
  tail : zsl.tail = ns.getLast?
  length : zsl.length = ns.length

theorem shape_zslCreate [Zero S] : Shape (zslCreate : Skiplist S) [] where
  nodup := by simp
  lt_fresh := by simp [header, zslCreate]
  header_height := rfl
  header_obj := rfl
  height := by simp
  obj := by simp
  level := ⟨Nat.zero_lt_one, by simp [zslCreate, maxLevel]⟩
  above _ _ := rfl
  linked _ _ := linked_first (by simp) rfl rfl
  backward := by
    intro P x R h
    simp at h
  tail := rfl
  length := rfl

/-! ## The search -/

section

variable {zsl : Skiplist S} {ns A B : List ℕ} {go : ℕ → Node S → Bool}

def FoundFrom (zsl : Skiplist S) (A : List ℕ) (i : ℕ) (s : Search) : Prop :=
  ∀ j, i ≤ j → j < zsl.level → LastIn (tall zsl j) A (s.update j) (s.rank j)

variable {i : ℕ}

theorem Shape.walkLevel (h : Shape zsl ns) (hsplit : header :: ns = A ++ B)
    (hcut : Cut (fun t y => go t (zsl.node y)) A B) (hi : i < zsl.level) {P R : List ℕ} {x : ℕ}
    (hA : A = P ++ x :: R) (hx : tall zsl i x = true) :
    LastIn (tall zsl i) A (Zset.walkLevel zsl go i x P.length).1
      (Zset.walkLevel zsl go i x P.length).2 := by
  have hlinked := h.linked i hi
  rw [hsplit] at hlinked
  refine hlinked.walk hcut hA hx ?_
  have hlen := congrArg List.length hsplit
  rw [hA, length_cons, length_append, length_append, length_cons] at hlen
  rw [h.length]
  omega

theorem tall_mono {j x : ℕ} (hij : i ≤ j) (h : tall zsl j x = true) : tall zsl i x = true := by
  rw [tall, decide_eq_true_iff] at h ⊢
  omega

theorem Shape.descend (h : Shape zsl ns) (hsplit : header :: ns = A ++ B)
    (hcut : Cut (fun t y => go t (zsl.node y)) A B) :
    ∀ (i : ℕ) (s : Search), i ≤ zsl.level → (0 < i → ∃ P R, A = P ++ s.x :: R ∧
      P.length = s.traversed ∧ tall zsl (i - 1) s.x = true) → FoundFrom zsl A i s →
      FoundFrom zsl A 0 (Zset.descend zsl go i s) := by
  intro i
  induction i with
  | zero => exact fun s _ _ hfound => hfound
  | succ i ih =>
    intro s hi hs hfound
    obtain ⟨P, R, hA, hP, htall⟩ := hs (Nat.succ_pos i)
    have hlast := h.walkLevel hsplit hcut hi hA htall
    rw [hP] at hlast
    refine ih (searchLevel zsl go i s) (Nat.le_of_succ_le hi) (fun _ => ?_) ?_
    · obtain ⟨P', R', hA', hP', hr, -⟩ := hlast
      exact ⟨P', R', hA', hP', tall_mono (Nat.sub_le i 1) hr⟩
    · intro j hij hj
      rcases hij.eq_or_lt with rfl | hlt
      · simpa [searchLevel] using hlast
      · have hne : j ≠ i := hlt.ne'
        simpa [searchLevel, hne] using hfound j hlt hj

theorem descend_x (zsl : Skiplist S) (go : ℕ → Node S → Bool) :
    ∀ (i : ℕ) (s : Search), 0 < i → (Zset.descend zsl go i s).x = (Zset.descend zsl go i s).update 0 ∧
      (Zset.descend zsl go i s).traversed = (Zset.descend zsl go i s).rank 0
  | 0, _, h => absurd h (Nat.lt_irrefl 0)
  | 1, s, _ => by simp [Zset.descend, searchLevel]
  | i + 2, s, _ => descend_x zsl go (i + 1) (searchLevel zsl go (i + 1) s) (Nat.succ_pos i)

variable (h : Shape zsl ns)

include h

theorem Shape.tall_header (hi : i < maxLevel) : tall zsl i header = true := by
  rw [tall, decide_eq_true_iff, h.header_height]
  exact hi

theorem Shape.search (hsplit : header :: ns = A ++ B) (hA : A ≠ [])
    (go : ℕ → Node S → Bool) (hcut : Cut (fun t y => go t (zsl.node y)) A B) :
    FoundFrom zsl A 0 (Zset.search zsl go) ∧ (Zset.search zsl go).x = (Zset.search zsl go).update 0 ∧
      (Zset.search zsl go).traversed = (Zset.search zsl go).rank 0 := by
  obtain ⟨a, A', rfl⟩ := exists_cons_of_ne_nil hA
  obtain ⟨rfl, hns⟩ := List.cons.inj hsplit
  have hlevel := h.level
  refine ⟨h.descend hsplit hcut _ _ le_rfl (fun _ => ?_) ?_, descend_x _ _ _ _ hlevel.1⟩
  · exact ⟨[], A', rfl, rfl, h.tall_header (by omega)⟩
  · intro j hij hj
    omega

/-- All nodes reach level 0, so the last one there is the last one before the place. -/
theorem Shape.lastIn_zero (hsplit : header :: ns = A ++ B) {u n : ℕ}
    (hu : LastIn (tall zsl 0) A u n) : A.getLast? = some u ∧ n + 1 = A.length := by
  obtain ⟨P, R, rfl, rfl, hpu, hR⟩ := hu
  cases R with
  | nil => simp
  | cons y R =>
    have hy : tall zsl 0 y = false := hR y mem_cons_self
    have hmem : y ∈ ns := by
      cases P with
      | nil | cons z P => simp [(List.cons.inj hsplit).2]
    have := (h.height y hmem).1
    rw [tall, decide_eq_false_iff_not] at hy
    exact absurd this hy

theorem Shape.find?_zero (hB : ∀ y ∈ B, y ∈ ns) : B.find? (tall zsl 0) = B.head? := by
  cases B with
  | nil => rfl
  | cons y B =>
    have hy : tall zsl 0 y = true := by
      rw [tall, decide_eq_true_iff]
      exact (h.height y (hB y mem_cons_self)).1
    rw [find?_cons, hy, head?_cons]

theorem Shape.forward_last (hsplit : header :: ns = A ++ B) (hA : A ≠ []) {u n : ℕ}
    (hu : LastIn (tall zsl 0) A u n) : zsl.forward 0 u = B.head? := by
  have hlinked := h.linked 0 h.level.1
  rw [hsplit] at hlinked
  obtain ⟨a, A, rfl⟩ := exists_cons_of_ne_nil hA
  have hns := (List.cons.inj hsplit).2
  rw [(hlinked.at_last hu).1, h.find?_zero fun y hy => by simp [hns, hy]]

theorem Shape.forward_header : zsl.forward 0 header = ns.head? := by
  rw [(h.linked 0 h.level.1 [] header ns rfl (h.tall_header (by decide))).1,
    h.find?_zero fun y hy => hy]

end

/-! ## Insertion -/

section

variable {zsl : Skiplist S} {ns A B : List ℕ} {s : Search} {level : ℕ}

theorem foldl_update {β : Type} (l : List ℕ) (v : β) (f : ℕ → β) (j : ℕ) :
    l.foldl (fun u i => Function.update u i v) f j = if j ∈ l then v else f j := by
  induction l generalizing f with
  | nil => rfl
  | cons i l ih =>
    rw [foldl_cons, ih]
    by_cases hj : j ∈ l
    · rw [if_pos hj, if_pos (mem_cons_of_mem i hj)]
    · by_cases hji : j = i
      · subst hji
        rw [if_neg hj, if_pos mem_cons_self, update_self]
      · rw [if_neg hj, update_of_ne hji, if_neg (by simp [hj, hji])]

theorem Shape.tall_of_level_le (h : Shape zsl ns) {i : ℕ} (hi : zsl.level ≤ i) :
    ∀ x ∈ ns, tall zsl i x = false := by
  intro x hx
  have := h.height x hx
  rw [tall, decide_eq_false_iff_not]
  omega

theorem raiseLevel_spec (h : Shape zsl ns) (hsplit : header :: ns = A ++ B) (hA : A ≠ [])
    (hfound : FoundFrom zsl A 0 s) (hlevel : level ≤ maxLevel) :
    Shape (raiseLevel zsl s level).1 ns ∧
      FoundFrom (raiseLevel zsl s level).1 A 0 (raiseLevel zsl s level).2 ∧
      level ≤ (raiseLevel zsl s level).1.level ∧
      SameData zsl { (raiseLevel zsl s level).1 with level := zsl.level } := by
  rw [raiseLevel]
  split_ifs with hraise
  · obtain ⟨new, hnew⟩ : ∃ new, new = List.range' zsl.level (level - zsl.level) := ⟨_, rfl⟩
    have hmem : ∀ j, j ∈ new ↔ zsl.level ≤ j ∧ j < level := by
      intro j
      rw [hnew, mem_range'_1]
      omega
    have hdata : SameData zsl (new.foldl (fun z i => z.setSpan i header zsl.length) zsl) :=
      sameData_foldl (fun z i => sameData_setSpan z i header zsl.length) new zsl
    have hlinks : ∀ j, (new.foldl (fun z i => z.setSpan i header zsl.length) zsl).links j =
        if j ∈ new then ((zsl.links j).1, Function.update (zsl.links j).2 header zsl.length)
        else zsl.links j := fun j =>
      links_foldl (F := fun _ l => (l.1, Function.update l.2 header zsl.length))
        (fun z i j => links_setSpan z i header zsl.length j)
        (hnew ▸ nodup_range') zsl j
    obtain ⟨mid, hmid⟩ : ∃ mid, mid = new.foldl (fun z i => z.setSpan i header zsl.length) zsl :=
      ⟨_, rfl⟩
    simp only [← hnew]
    rw [← hmid] at hdata hlinks ⊢
    have hforward : ∀ j, mid.forward j = zsl.forward j := by
      intro j
      have := congrArg Prod.fst (hlinks j)
      split_ifs at this <;> exact this
    have htall : ∀ j x, tall { mid with level := level } j x = tall zsl j x := fun j x => by
      rw [tall, tall, ← hdata.height x]
    refine ⟨?_, ?_, le_rfl, ?_⟩
    · refine ⟨h.nodup, ?_, ?_, ?_, ?_, ?_, ?_, ?_, ?_, ?_, ?_, ?_⟩
      · exact fun x hx => hdata.fresh ▸ h.lt_fresh x hx
      · exact (hdata.height header).trans h.header_height
      · exact (hdata.obj header).trans h.header_obj
      · intro x hx
        have hheight := h.height x hx
        rw [← hdata.height x] at hheight
        exact ⟨hheight.1, hheight.2.trans hraise.le⟩
      · exact fun x hx => (hdata.obj x).symm ▸ h.obj x hx
      · exact ⟨Nat.zero_lt_of_lt hraise, hlevel⟩
      · intro i hi
        have hold := (congrFun (hforward i) header).trans (h.above i (hraise.le.trans hi))
        exact hold
      · intro i hi
        rcases Nat.lt_or_ge i zsl.level with hold | hbig
        · have hnot : i ∉ new := by
            rw [hmem]
            omega
          have hlink : mid.links i = zsl.links i := by rw [hlinks, if_neg hnot]
          exact (h.linked i hold).congr (fun y _ => htall i y)
            (fun y _ => congrFun (congrArg Prod.fst hlink) y)
            (fun y _ => congrFun (congrArg Prod.snd hlink) y)
        · -- a new level: only the header is on it
          have hin : i ∈ new := (hmem i).2 ⟨hbig, hi⟩
          have hnone : ∀ y ∈ ns, tall { mid with level := level } i y = false := fun y hy =>
            (htall i y).trans (h.tall_of_level_le hbig y hy)
          have hspan : mid.span i header = zsl.length := by
            have hsnd := congrArg Prod.snd ((hlinks i).trans (if_pos hin))
            exact (congrFun hsnd header).trans (by simp)
          exact linked_first hnone ((congrFun (hforward i) header).trans (h.above i hbig))
            (hspan.trans h.length)
      · exact fun P x R hns => (hdata.backward x).trans (h.backward P x R hns)
      · exact hdata.tail.trans h.tail
      · exact hdata.length.trans h.length
    · intro j _ hj
      rcases Nat.lt_or_ge j zsl.level with hold | hbig
      · have hnot : j ∉ new := by
          rw [hmem]
          omega
        simp only [foldl_update, if_neg hnot]
        exact (hfound j (Nat.zero_le j) hold).congr fun y _ => htall j y
      · have hin : j ∈ new := (hmem j).2 ⟨hbig, hj⟩
        obtain ⟨a, A', rfl⟩ := exists_cons_of_ne_nil hA
        obtain ⟨rfl, hns⟩ := List.cons.inj hsplit
        simp only [foldl_update, if_pos hin]
        refine ⟨[], A', rfl, rfl, ?_, fun y hy => ?_⟩
        · rw [htall]
          exact h.tall_header (lt_of_lt_of_le hj hlevel)
        · rw [htall]
          exact h.tall_of_level_le hbig y (by simp [hns, hy])
    · exact ⟨hdata.score, hdata.obj, hdata.backward, hdata.height, hdata.fresh, hdata.tail,
        hdata.length, rfl⟩
  · exact ⟨h, hfound, Nat.le_of_not_lt hraise, sameData_refl zsl⟩

/-- The links of a level with `x` after `u`, when `k` nodes are between them. -/
def linkLinks (x u k : ℕ) (l : (ℕ → Option ℕ) × (ℕ → ℕ)) : (ℕ → Option ℕ) × (ℕ → ℕ) :=
  (Function.update (Function.update l.1 x (l.1 u)) u (some x),
    Function.update (Function.update l.2 x (l.2 u - k)) u (k + 1))

def bumpLinks (u : ℕ) (l : (ℕ → Option ℕ) × (ℕ → ℕ)) : (ℕ → Option ℕ) × (ℕ → ℕ) :=
  (l.1, Function.update l.2 u (l.2 u + 1))

theorem links_linkLevel (x : ℕ) (s : Search) (z : Skiplist S) (i j : ℕ) :
    (linkLevel x s z i).links j =
      if j = i then linkLinks x (s.update i) (s.rank 0 - s.rank i) (z.links i) else z.links j := by
  have hforward : ∀ (z : Skiplist S) i, z.forward i = (z.links i).1 := fun _ _ => rfl
  have hspan : ∀ (z : Skiplist S) i, z.span i = (z.links i).2 := fun _ _ => rfl
  simp only [linkLevel, links_setSpan, links_setForward, hforward, hspan, if_true]
  split_ifs <;> rfl

theorem links_bumpSpan (s : Search) (z : Skiplist S) (i j : ℕ) :
    (bumpSpan s z i).links j = if j = i then bumpLinks (s.update i) (z.links i) else z.links j :=
  links_setSpan z i (s.update i) _ j

theorem sameData_linkLevel (x : ℕ) (s : Search) (z : Skiplist S) (i : ℕ) :
    SameData z (linkLevel x s z i) :=
  (sameData_setForward ..).trans <| (sameData_setForward ..).trans <|
    (sameData_setSpan ..).trans (sameData_setSpan ..)

theorem sameLinks_linkBackward (z : Skiplist S) (x u : ℕ) : SameLinks z (linkBackward z x u) := by
  rw [linkBackward]
  split
  · exact (sameLinks_setBackward ..).trans (sameLinks_setBackward ..)
  · exact (sameLinks_setBackward ..).trans (sameLinks_setTail ..)

theorem linkBackward_spec (z : Skiplist S) (x u : ℕ) :
    (∀ y, ((linkBackward z x u).node y).backward =
      if z.forward 0 x = some y then some x
      else if y = x then (if u = header then none else some u) else (z.node y).backward) ∧
    (linkBackward z x u).tail = if z.forward 0 x = none then some x else z.tail := by
  have hforward : (z.setBackward x (if u = header then none else some u)).forward 0 x =
      z.forward 0 x :=
    congrFun (congrArg Prod.fst ((sameLinks_setBackward z x _).links 0)) x
  rw [linkBackward]
  simp only [hforward]
  cases hy : z.forward 0 x with
  | none => simp [backward_setBackward]
  | some w =>
    refine ⟨fun y => ?_, by simp [Skiplist.setBackward, Skiplist.modify]⟩
    simp only [backward_setBackward, Option.some.injEq, eq_comm]

section

variable (zsl : Skiplist S)

def linkForward (s : Search) (level : ℕ) (score : S) (obj : Bytes) : Skiplist S :=
  (List.range' level (zsl.level - level)).foldl (bumpSpan s)
    ((List.range level).foldl (linkLevel zsl.fresh s)
      (zsl.alloc (zslCreateNode level score (some obj))))

theorem insertNode_eq (s : Search) (level : ℕ) (score : S) (obj : Bytes) :
    insertNode zsl s level score obj =
      { linkBackward (linkForward zsl s level score obj) zsl.fresh (s.update 0) with
        length := (linkBackward (linkForward zsl s level score obj) zsl.fresh (s.update 0)).length
          + 1 } := by
  have hdata := sameData_foldl (sameData_linkLevel zsl.fresh s) (List.range level)
    (zsl.alloc (zslCreateNode level score (some obj)))
  rw [insertNode]
  simp only [hdata.level]
  rfl

theorem sameData_linkForward (s : Search) (level : ℕ) (score : S) (obj : Bytes) :
    SameData (zsl.alloc (zslCreateNode level score (some obj)))
      (linkForward zsl s level score obj) :=
  (sameData_foldl (sameData_linkLevel zsl.fresh s) _ _).trans
    (sameData_foldl (fun _ _ => sameData_setSpan ..) _ _)

theorem links_linkForward (s : Search) (level : ℕ) (score : S) (obj : Bytes) (j : ℕ) :
    (linkForward zsl s level score obj).links j =
      let l := (zsl.alloc (zslCreateNode level score (some obj))).links j
      if j < level then linkLinks zsl.fresh (s.update j) (s.rank 0 - s.rank j) l
      else if j < zsl.level then bumpLinks (s.update j) l
      else l := by
  rw [linkForward, links_foldl (F := fun i l => bumpLinks (s.update i) l)
      (links_bumpSpan s) nodup_range',
    links_foldl (F := fun i l => linkLinks zsl.fresh (s.update i) (s.rank 0 - s.rank i) l)
      (links_linkLevel zsl.fresh s) nodup_range]
  simp only [mem_range, mem_range'_1]
  by_cases hj : j < level
  · rw [if_pos hj, if_pos hj, if_neg (by omega)]
  · rw [if_neg hj, if_neg hj]
    by_cases hj' : j < zsl.level
    · rw [if_pos hj', if_pos (by omega)]
    · rw [if_neg hj', if_neg (by omega)]

theorem node_alloc_of_ne (n : Node S) {y : ℕ} (hy : y ≠ zsl.fresh) :
    (zsl.alloc n).node y = zsl.node y :=
  update_of_ne hy ..

theorem node_alloc_fresh (n : Node S) : (zsl.alloc n).node zsl.fresh = n :=
  update_self ..

end

theorem Shape.ne_fresh (h : Shape zsl ns) {y : ℕ} (hy : y ∈ header :: ns) : y ≠ zsl.fresh :=
  (h.lt_fresh y hy).ne

theorem Shape.linked_linkForward (h : Shape zsl ns) (hsplit : header :: ns = A ++ B)
    (hfound : FoundFrom zsl A 0 s) {score : S} {obj : Bytes} {z : Skiplist S}
    (hz : z = linkForward zsl s level score obj) {j : ℕ} (hj : j < zsl.level) :
    Linked (tall z j) (z.forward j) (z.span j) (A ++ zsl.fresh :: B) := by
  set z₀ := zsl.alloc (zslCreateNode level score (some obj)) with hz₀
  have hne : ∀ y ∈ A ++ B, y ≠ zsl.fresh := fun y hy => h.ne_fresh (hsplit ▸ hy)
  have hdata := sameData_linkForward zsl s level score obj
  have hlinks := links_linkForward zsl s level score obj j
  rw [← hz, ← hz₀] at hdata hlinks
  have hnode : ∀ y ∈ A ++ B, z₀.node y = zsl.node y := fun y hy =>
    node_alloc_of_ne zsl _ (hne y hy)
  have htall : ∀ y ∈ A ++ B, tall z j y = tall zsl j y :=
    fun y hy => by rw [tall, tall, hdata.height, hnode y hy]
  have htallx : tall z j zsl.fresh = decide (j < level) := by
    rw [tall, hdata.height, node_alloc_fresh]
    rfl
  have hold : Linked (tall z j) (z₀.links j).1 (z₀.links j).2 (A ++ B) := by
    refine (hsplit ▸ h.linked j hj).congr htall (fun y hy => ?_) (fun y hy => ?_)
    · exact congrArg (fun n => n.forward j) (hnode y hy)
    · exact congrArg (fun n => n.span j) (hnode y hy)
  have hlast := hfound j (Nat.zero_le j) hj
  have hu : s.update j ≠ zsl.fresh := hne _ (mem_append_left B hlast.mem)
  have hrank : s.rank 0 = A.length - 1 := by
    have := (h.lastIn_zero hsplit (hfound 0 le_rfl h.level.1)).2
    omega
  have hlast' := hlast.congr fun y hy => htall y (mem_append_left B hy)
  have hforward : z.forward j = _ := congrArg Prod.fst hlinks
  have hspan : z.span j = _ := congrArg Prod.snd hlinks
  refine hold.insert (hsplit ▸ h.nodup) hlast' (fun y hy hyu => ?_) ?_ (fun hx => ?_)
  · rw [hforward, hspan]
    simp only [linkLinks, bumpLinks]
    split_ifs <;> simp [hyu, hne y hy]
  · rw [hforward, hspan, htallx, hrank]
    by_cases hjl : j < level
    · simp [hjl, linkLinks]
    · simp [hjl, hj, bumpLinks]
  · have hjl : j < level := by rwa [htallx, decide_eq_true_iff] at hx
    rw [hforward, hspan, hrank]
    simp [hjl, hu.symm, linkLinks]

structure Inserted (zsl zsl' : Skiplist S) (score : S) (obj : Bytes) : Prop where
  new : (zsl'.node zsl.fresh).score = score ∧ (zsl'.node zsl.fresh).obj = some obj
  old : ∀ y ≠ zsl.fresh, (zsl'.node y).score = (zsl.node y).score ∧
    (zsl'.node y).obj = (zsl.node y).obj

theorem insertNode_inserted (zsl : Skiplist S) (s : Search) (level : ℕ) (score : S) (obj : Bytes) :
    Inserted zsl (insertNode zsl s level score obj) score obj := by
  have hdata := sameData_linkForward zsl s level score obj
  have hback := sameLinks_linkBackward (linkForward zsl s level score obj) zsl.fresh (s.update 0)
  rw [insertNode_eq]
  constructor
  · simp only [hback.score, hback.obj, hdata.score, hdata.obj, node_alloc_fresh]
    exact ⟨rfl, rfl⟩
  · intro y hy
    simp only [hback.score, hback.obj, hdata.score, hdata.obj, node_alloc_of_ne zsl _ hy]
    exact ⟨trivial, trivial⟩

theorem Shape.insertNode {A' : List ℕ} (h : Shape zsl ns) (hns : ns = A' ++ B)
    (hfound : FoundFrom zsl (header :: A') 0 s) (hpos : 0 < level) (hlevel : level ≤ zsl.level)
    (score : S) (obj : Bytes) :
    Shape (Zset.insertNode zsl s level score obj) (A' ++ zsl.fresh :: B) := by
  have hsplit : header :: ns = (header :: A') ++ B := by rw [hns, cons_append]
  obtain ⟨z, hz⟩ : ∃ z, z = linkForward zsl s level score obj := ⟨_, rfl⟩
  have hdata := sameData_linkForward zsl s level score obj
  have hback := sameLinks_linkBackward z zsl.fresh (s.update 0)
  obtain ⟨hbackward, htail⟩ := linkBackward_spec z zsl.fresh (s.update 0)
  have hlinked : ∀ j < zsl.level, Linked (tall z j) (z.forward j) (z.span j)
      (header :: A' ++ zsl.fresh :: B) := fun j hj => h.linked_linkForward hsplit hfound hz hj
  have hne : ∀ y ∈ header :: ns, y ≠ zsl.fresh := fun y hy => h.ne_fresh hy
  rw [insertNode_eq, ← hz]
  have hlinksz := links_linkForward zsl s level score obj
  rw [← hz] at hdata hlinksz
  have hheight : ∀ y ∈ header :: ns, (z.node y).height = (zsl.node y).height := fun y hy => by
    rw [hdata.height, node_alloc_of_ne zsl _ (hne y hy)]
  have hobj : ∀ y ∈ header :: ns, (z.node y).obj = (zsl.node y).obj := fun y hy => by
    rw [hdata.obj, node_alloc_of_ne zsl _ (hne y hy)]
  have hnew : (z.node zsl.fresh).height = level ∧ (z.node zsl.fresh).obj = some obj := by
    rw [hdata.height, hdata.obj, node_alloc_fresh]
    exact ⟨rfl, rfl⟩
  have hzlevel : z.level = zsl.level := hdata.level
  have hnsB : ∀ y ∈ B, y ∈ header :: ns := fun y hy => by simp [hns, hy]
  have hnsA : ∀ y ∈ A', y ∈ header :: ns := fun y hy => by simp [hns, hy]
  have hmem : ∀ x ∈ A' ++ zsl.fresh :: B, x = zsl.fresh ∨ x ∈ ns := fun x hx => by
    simp only [mem_append, mem_cons] at hx
    simp only [hns, mem_append]
    tauto
  -- the node after the new one
  have hnext : z.forward 0 zsl.fresh = B.head? := by
    have htall : ∀ y ∈ B, tall z 0 y = true := fun y hy => by
      rw [tall, decide_eq_true_iff, hheight y (hnsB y hy)]
      exact (h.height y (by simp [hns, hy])).1
    have hfirst := (hlinked 0 h.level.1 (header :: A') zsl.fresh B rfl
      (by simp [tall, hnew.1, hpos])).1
    rw [hfirst]
    cases B with
    | nil => rfl
    | cons y B => rw [find?_cons, htall y mem_cons_self, head?_cons]
  refine ⟨?_, ?_, ?_, ?_, ?_, ?_, ?_, ?_, ?_, ?_, ?_, ?_⟩
  · have hnd := h.nodup
    rw [hsplit] at hnd
    rw [← cons_append, nodup_middle]
    exact nodup_cons.2 ⟨fun hmem => hne _ (hsplit ▸ hmem) rfl, hnd⟩
  · intro x hx
    have hlt : x < z.fresh := by
      rw [hdata.fresh]
      rcases mem_cons.1 hx with rfl | hx
      · exact Nat.lt_succ_of_lt (h.lt_fresh _ mem_cons_self)
      · rcases hmem x hx with rfl | hx
        · exact Nat.lt_succ_self _
        · exact Nat.lt_succ_of_lt (h.lt_fresh x (mem_cons_of_mem _ hx))
    exact hback.fresh ▸ hlt
  · exact (hback.height header).trans ((hheight header mem_cons_self).trans h.header_height)
  · exact (hback.obj header).trans ((hobj header mem_cons_self).trans h.header_obj)
  · intro x hx
    have hx' : 0 < (z.node x).height ∧ (z.node x).height ≤ z.level := by
      rw [hzlevel]
      rcases hmem x hx with rfl | hx
      · rw [hnew.1]
        exact ⟨hpos, hlevel⟩
      · rw [hheight x (mem_cons_of_mem _ hx)]
        exact h.height x hx
    rw [← hback.height x, ← hback.level] at hx'
    exact hx'
  · intro x hx
    have hx' : (z.node x).obj.isSome := by
      rcases hmem x hx with rfl | hx
      · rw [hnew.2]
        rfl
      · rw [hobj x (mem_cons_of_mem _ hx)]
        exact h.obj x hx
    rw [← hback.obj x] at hx'
    exact hx'
  · exact ⟨hback.level.trans hzlevel ▸ h.level.1, hback.level.trans hzlevel ▸ h.level.2⟩
  · intro i hi
    have hi' : zsl.level ≤ i := (hback.level.trans hzlevel) ▸ hi
    have hlink : z.links i = (zsl.alloc (zslCreateNode level score (some obj))).links i := by
      rw [hlinksz]
      rw [if_neg (by omega), if_neg (by omega)]
    have hforward : z.forward i header = zsl.forward i header :=
      (congrFun (congrArg Prod.fst hlink) header).trans
        (congrArg (fun n => n.forward i) (node_alloc_of_ne zsl _ (hne header mem_cons_self)))
    exact (congrFun (congrArg Prod.fst (hback.links i)) header).trans
      (hforward.trans (h.above i hi'))
  · exact fun i hi => hback.linked (hlinked i ((hback.level.trans hzlevel) ▸ hi))
  · have hold : ∀ y ∈ header :: ns, (z.node y).backward = (zsl.node y).backward := fun y hy => by
      rw [hdata.backward, node_alloc_of_ne zsl _ (hne y hy)]
    have hnd : (A' ++ B).Nodup := hns ▸ (nodup_cons.1 h.nodup).2
    have hmirror : Mirrored (fun x => (zsl.node x).backward) (A' ++ B) := hns ▸ h.backward
    refine hmirror.insert (fun y hy => ?_) ?_ (fun y hy => ?_) (fun y hy => ?_)
    · have hhead : B.head? ≠ some y := fun hb =>
        (nodup_append.1 hnd).2.2 y hy y (mem_of_mem_head? hb) rfl
      have := hbackward y
      rw [hnext, if_neg hhead, if_neg (hne y (hnsA y hy)), hold y (hnsA y hy)] at this
      exact this
    · have hhead : B.head? ≠ some zsl.fresh := fun hb =>
        hne _ (hnsB _ (mem_of_mem_head? hb)) rfl
      have hlast := (h.lastIn_zero hsplit (hfound 0 le_rfl h.level.1)).1
      have := hbackward zsl.fresh
      rw [hnext, if_neg hhead, if_pos rfl] at this
      refine this.trans ?_
      rw [getLast?_cons, Option.some.injEq] at hlast
      cases hA' : A'.getLast? with
      | none =>
        rw [hA', Option.getD_none] at hlast
        rw [if_pos hlast.symm]
      | some w =>
        rw [hA', Option.getD_some] at hlast
        have hw : w ∈ ns := by simp [hns, mem_of_mem_getLast? hA']
        have hwh : w ≠ header := fun heq => (nodup_cons.1 h.nodup).1 (heq ▸ hw)
        rw [← hlast, if_neg hwh]
    · have := hbackward y
      rw [hnext, if_pos hy] at this
      exact this
    · have hyB : y ∈ B := mem_of_mem_tail hy
      have hhead : B.head? ≠ some y := by
        intro hb
        obtain ⟨b, B, rfl⟩ := exists_cons_of_ne_nil (ne_nil_of_mem hyB)
        obtain rfl : b = y := Option.some.inj hb
        exact (nodup_cons.1 (nodup_append.1 hnd).2.1).1 hy
      have := hbackward y
      rw [hnext, if_neg hhead, if_neg (hne y (hnsB y hyB)), hold y (hnsB y hyB)] at this
      exact this
  · have hold : z.tail = ns.getLast? := hdata.tail.trans h.tail
    refine htail.trans ?_
    rw [hnext, getLast?_append_cons, hold, hns]
    cases B with
    | nil => rfl
    | cons b B => rw [if_neg (by simp), getLast?_append_cons, getLast?_cons_cons]
  · have hlength : z.length = zsl.length := hdata.length
    simp [hback.length, hlength, h.length, hns]
    omega

end

/-! ## Deletion -/

variable {zsl : Skiplist S} {ns A' B : List ℕ} {s : Search} {x : ℕ}

/-- The links of a level without `x`, when `u` is the last node before it. -/
def unlinkLinks (x u : ℕ) (l : (ℕ → Option ℕ) × (ℕ → ℕ)) : (ℕ → Option ℕ) × (ℕ → ℕ) :=
  if l.1 u = some x then
    (Function.update l.1 u (l.1 x), Function.update l.2 u (l.2 u + l.2 x - 1))
  else (l.1, Function.update l.2 u (l.2 u - 1))

theorem links_unlinkLevel (x : ℕ) (update : ℕ → ℕ) (z : Skiplist S) (i j : ℕ) :
    (unlinkLevel x update z i).links j =
      if j = i then unlinkLinks x (update i) (z.links i) else z.links j := by
  have hforward : ∀ (z : Skiplist S) i, z.forward i = (z.links i).1 := fun _ _ => rfl
  have hspan : ∀ (z : Skiplist S) i, z.span i = (z.links i).2 := fun _ _ => rfl
  rw [unlinkLevel, unlinkLinks]
  simp only [hforward, hspan]
  split_ifs with hx hj hj
  · simp only [links_setForward, links_setSpan, hforward, hspan, if_pos hj, if_true]
  · simp only [links_setForward, links_setSpan, if_neg hj]
  · simp only [links_setSpan, hforward, hspan, if_pos hj]
  · simp only [links_setSpan, if_neg hj]

theorem sameData_unlinkLevel (x : ℕ) (update : ℕ → ℕ) (z : Skiplist S) (i : ℕ) :
    SameData z (unlinkLevel x update z i) := by
  rw [unlinkLevel]
  split_ifs
  · exact (sameData_setSpan ..).trans (sameData_setForward ..)
  · exact sameData_setSpan ..

theorem sameLinks_unlinkBackward (z : Skiplist S) (x : ℕ) : SameLinks z (unlinkBackward z x) := by
  rw [unlinkBackward]
  split
  · exact sameLinks_setBackward ..
  · exact sameLinks_setTail ..

theorem unlinkBackward_spec (z : Skiplist S) (x : ℕ) :
    (∀ y, ((unlinkBackward z x).node y).backward =
      if z.forward 0 x = some y then (z.node x).backward else (z.node y).backward) ∧
    (unlinkBackward z x).tail = if z.forward 0 x = none then (z.node x).backward else z.tail := by
  rw [unlinkBackward]
  cases hy : z.forward 0 x with
  | none => simp
  | some w =>
    refine ⟨fun y => ?_, by simp [Skiplist.setBackward, Skiplist.modify]⟩
    simp only [backward_setBackward, Option.some.injEq, eq_comm]

theorem lowerLevel_spec (z : Skiplist S) : ∀ n, 0 < n → 0 < lowerLevel z n ∧ lowerLevel z n ≤ n ∧
      ∀ i, lowerLevel z n ≤ i → i < n → z.forward i header = none
  | 0, h => absurd h (Nat.lt_irrefl 0)
  | 1, _ => ⟨Nat.zero_lt_one, le_rfl, fun i h1 h2 => by rw [lowerLevel] at h1; omega⟩
  | n + 2, _ => by
      obtain ⟨hpos, hle, hnone⟩ := lowerLevel_spec z (n + 1) (Nat.succ_pos n)
      rw [lowerLevel]
      split_ifs with htop
      · refine ⟨hpos, by omega, fun i h1 h2 => ?_⟩
        rcases Nat.lt_succ_iff_lt_or_eq.1 h2 with hlt | rfl
        · exact hnone i h1 hlt
        · exact htop
      · exact ⟨Nat.succ_pos _, le_rfl, fun i h1 h2 => by omega⟩

def unlinkForward (zsl : Skiplist S) (x : ℕ) (update : ℕ → ℕ) : Skiplist S :=
  (List.range zsl.level).foldl (unlinkLevel x update) zsl

theorem sameData_unlinkForward (zsl : Skiplist S) (x : ℕ) (update : ℕ → ℕ) :
    SameData zsl (unlinkForward zsl x update) :=
  sameData_foldl (sameData_unlinkLevel x update) _ _

theorem links_unlinkForward (zsl : Skiplist S) (x : ℕ) (update : ℕ → ℕ) (j : ℕ) :
    (unlinkForward zsl x update).links j =
      if j < zsl.level then unlinkLinks x (update j) (zsl.links j) else zsl.links j := by
  rw [unlinkForward, links_foldl (F := fun i l => unlinkLinks x (update i) l)
    (links_unlinkLevel x update) nodup_range]
  simp only [mem_range]

theorem Shape.linked_unlinkForward (h : Shape zsl ns) (hns : ns = A' ++ x :: B)
    (hfound : FoundFrom zsl (header :: A') 0 s) {z : Skiplist S}
    (hz : z = unlinkForward zsl x s.update) {j : ℕ} (hj : j < zsl.level) :
    Linked (tall z j) (z.forward j) (z.span j) (header :: A' ++ B) ∧
      z.forward j x = zsl.forward j x := by
  have hsplit : header :: ns = (header :: A') ++ x :: B := by rw [hns, cons_append]
  have hdata := sameData_unlinkForward zsl x s.update
  have hlinks := links_unlinkForward zsl x s.update j
  rw [← hz] at hdata hlinks
  rw [if_pos hj] at hlinks
  have htall : ∀ y, tall z j y = tall zsl j y := fun y => by rw [tall, tall, hdata.height]
  have hold : Linked (tall z j) (zsl.forward j) (zsl.span j) (header :: A' ++ x :: B) :=
    (hsplit ▸ h.linked j hj).congr (fun y _ => htall y) (fun _ _ => rfl) (fun _ _ => rfl)
  have hlast := (hfound j (Nat.zero_le j) hj).congr fun y _ => htall y
  have hnd : (header :: A' ++ x :: B).Nodup := hsplit ▸ h.nodup
  have hux : x ≠ s.update j := fun heq =>
    (nodup_append.1 hnd).2.2 _ hlast.mem x mem_cons_self heq.symm
  by_cases hnext : zsl.forward j (s.update j) = some x
  · have hlinks' := hlinks.trans (if_pos hnext)
    have hforward : z.forward j =
        Function.update (zsl.forward j) (s.update j) (zsl.forward j x) := congrArg Prod.fst hlinks'
    have hspan : z.span j = Function.update (zsl.span j) (s.update j)
        (zsl.span j (s.update j) + zsl.span j x - 1) := congrArg Prod.snd hlinks'
    rw [hforward, hspan]
    refine ⟨hold.remove hnd hlast (fun y _ hyu => ?_) ?_, update_of_ne hux ..⟩
    · exact ⟨update_of_ne hyu .., update_of_ne hyu ..⟩
    · rw [if_pos hnext, if_pos hnext]
      exact ⟨update_self .., update_self ..⟩
  · have hlinks' := hlinks.trans (if_neg hnext)
    have hforward : z.forward j = zsl.forward j := congrArg Prod.fst hlinks'
    have hspan : z.span j = Function.update (zsl.span j) (s.update j)
        (zsl.span j (s.update j) - 1) := congrArg Prod.snd hlinks'
    rw [hforward, hspan]
    refine ⟨hold.remove hnd hlast (fun y _ hyu => ⟨rfl, update_of_ne hyu ..⟩) ?_, rfl⟩
    rw [if_neg hnext, if_neg hnext]
    exact ⟨rfl, update_self ..⟩

theorem zslDeleteNode_eq (zsl : Skiplist S) (x : ℕ) (update : ℕ → ℕ) : zslDeleteNode zsl x update =
      { unlinkBackward (unlinkForward zsl x update) x with
        level := lowerLevel (unlinkBackward (unlinkForward zsl x update) x) zsl.level
        length := zsl.length - 1 } := by
  have hdata := sameData_unlinkForward zsl x update
  have hback := sameLinks_unlinkBackward (unlinkForward zsl x update) x
  rw [← hdata.level, ← hdata.length, ← hback.level, ← hback.length]
  rfl

theorem zslDeleteNode_node (zsl : Skiplist S) (x : ℕ) (update : ℕ → ℕ) (y : ℕ) :
    ((zslDeleteNode zsl x update).node y).score = (zsl.node y).score ∧
      ((zslDeleteNode zsl x update).node y).obj = (zsl.node y).obj ∧
      ((zslDeleteNode zsl x update).node y).height = (zsl.node y).height := by
  have hdata := sameData_unlinkForward zsl x update
  have hback := sameLinks_unlinkBackward (unlinkForward zsl x update) x
  exact ⟨(hback.score y).trans (hdata.score y), (hback.obj y).trans (hdata.obj y),
    (hback.height y).trans (hdata.height y)⟩

theorem Shape.deleteNode (h : Shape zsl ns) (hns : ns = A' ++ x :: B)
    (hfound : FoundFrom zsl (header :: A') 0 s) :
    Shape (zslDeleteNode zsl x s.update) (A' ++ B) ∧
      FoundFrom (zslDeleteNode zsl x s.update) (header :: A') 0 s := by
  have hsplit : header :: ns = (header :: A') ++ x :: B := by rw [hns, cons_append]
  have hsub : ∀ y ∈ A' ++ B, y ∈ ns := fun y hy => by
    rw [hns]
    simp only [mem_append, mem_cons] at hy ⊢
    tauto
  have hx : x ∈ ns := by simp [hns]
  have hxtall : tall zsl 0 x = true := by
    rw [tall, decide_eq_true_iff]
    exact (h.height x hx).1
  obtain ⟨z, hz⟩ : ∃ z, z = unlinkForward zsl x s.update := ⟨_, rfl⟩
  have hdata := sameData_unlinkForward zsl x s.update
  have hlinked := fun j hj => h.linked_unlinkForward hns hfound hz (j := j) hj
  have hback := sameLinks_unlinkBackward z x
  obtain ⟨hbackward, htail⟩ := unlinkBackward_spec z x
  rw [zslDeleteNode_eq]
  rw [← hz] at hdata ⊢
  obtain ⟨hlpos, hlle, hlnone⟩ := lowerLevel_spec (unlinkBackward z x) zsl.level h.level.1
  have hnext : z.forward 0 x = B.head? :=
    (hlinked 0 h.level.1).2.trans (h.forward_last (A := header :: A' ++ [x]) (by simp [hns])
      (by simp) ⟨header :: A', [], rfl, rfl, hxtall, by simp⟩)
  have hforward : ∀ i, (unlinkBackward z x).forward i = z.forward i := fun i =>
    congrArg Prod.fst (hback.links i)
  have htall : ∀ i y, tall (unlinkBackward z x) i y = tall zsl i y := fun i y => by
    rw [tall, tall, hback.height, hdata.height]
  refine ⟨⟨?_, ?_, ?_, ?_, ?_, ?_, ?_, ?_, ?_, ?_, ?_, ?_⟩, ?_⟩
  · have hnd := h.nodup
    rw [hsplit, nodup_middle] at hnd
    exact (nodup_cons.1 hnd).2
  · intro y hy
    have hlt : y < zsl.fresh := h.lt_fresh y (by
      rcases mem_cons.1 hy with rfl | hy
      · exact mem_cons_self
      · exact mem_cons_of_mem _ (hsub y hy))
    rw [← hdata.fresh, ← hback.fresh] at hlt
    exact hlt
  · exact (hback.height header).trans ((hdata.height header).trans h.header_height)
  · exact (hback.obj header).trans ((hdata.obj header).trans h.header_obj)
  · intro y hy
    have hheight := (hback.height y).trans (hdata.height y)
    have hy' := h.height y (hsub y hy)
    rw [← hheight] at hy'
    refine ⟨hy'.1, ?_⟩
    -- a node above the lowered level would be seen from the header
    by_contra hbig
    have hbig' : lowerLevel (unlinkBackward z x) zsl.level <
        ((unlinkBackward z x).node y).height := Nat.lt_of_not_le hbig
    obtain ⟨i, hi⟩ : ∃ i, ((unlinkBackward z x).node y).height = i + 1 :=
      ⟨_, (Nat.succ_pred_eq_of_pos hy'.1).symm⟩
    have hnone := hlnone i (by omega) (by omega)
    have hchain := ((hlinked i (by omega)).1 [] header (A' ++ B) rfl (by
      have := h.tall_header (i := i) (by have := h.level.2; omega)
      rwa [← htall, tall, hback.height] at this)).1
    rw [hforward, hchain, find?_eq_none] at hnone
    exact hnone y hy (by
      rw [tall, decide_eq_true_iff, ← hback.height, hi]
      omega)
  · intro y hy
    have hy' := h.obj y (hsub y hy)
    rw [← hdata.obj, ← hback.obj] at hy'
    exact hy'
  · exact ⟨hlpos, hlle.trans h.level.2⟩
  · intro i hi
    rcases Nat.lt_or_ge i zsl.level with hlt | hge
    · exact hlnone i hi hlt
    · have hsame : z.links i = zsl.links i := by
        rw [hz, links_unlinkForward, if_neg (Nat.not_lt.2 hge)]
      exact (congrFun ((hforward i).trans (congrArg Prod.fst hsame)) header).trans (h.above i hge)
  · exact fun i hi => hback.linked (hlinked i (lt_of_lt_of_le hi hlle)).1
  · have hmirror : Mirrored (fun y => (zsl.node y).backward) (A' ++ x :: B) := hns ▸ h.backward
    have hnd : (A' ++ x :: B).Nodup := hns ▸ (nodup_cons.1 h.nodup).2
    have hkeep : ∀ y, B.head? ≠ some y →
        ((unlinkBackward z x).node y).backward = (zsl.node y).backward := fun y hy => by
      rw [hbackward, hnext, if_neg hy, hdata.backward]
    refine hmirror.remove (fun y hy => hkeep y fun hb => ?_) (fun y hy => ?_)
      (fun y hy => hkeep y fun hb => ?_)
    · exact (nodup_append.1 hnd).2.2 y hy y (mem_cons_of_mem x (mem_of_mem_head? hb)) rfl
    · have hy' := hbackward y
      rw [hnext, if_pos hy, hdata.backward] at hy'
      exact hy'
    · obtain ⟨b, B, rfl⟩ := exists_cons_of_ne_nil (ne_nil_of_mem (mem_of_mem_tail hy))
      obtain rfl : b = y := Option.some.inj hb
      exact (nodup_cons.1 (nodup_cons.1 (nodup_append.1 hnd).2.1).2).1 hy
  · refine htail.trans ?_
    have hxback : (zsl.node x).backward = A'.getLast? := h.backward A' x B hns
    rw [hnext, hdata.backward, hdata.tail, h.tail, hxback, hns, getLast?_append_cons]
    cases B with
    | nil => simp
    | cons b B => rw [if_neg (by simp), getLast?_append_cons, getLast?_cons_cons]
  · simp [h.length, hns]
  · intro j hj hjl
    exact (hfound j hj (lt_of_lt_of_le hjl hlle)).congr fun y _ => htall j y

end ServerStack.Redis.Zset
