import ServerStack.Redis.Zset.Order
import ServerStack.Redis.Zset.Shape

/-!
# The skiplist is a sorted set

In every skiplist reached from `zslCreate` the nodes have the shape of a skiplist and are in
strictly increasing order; each operation does to the list of entries what the operation on sorted
lists does.
-/

namespace ServerStack.Redis.Zset

open Util SpanChain List Option

variable {S : Type}

def entries (zsl : Skiplist S) (ns : List ℕ) : List (Entry S) := ns.map fun x => (zsl.node x).entry

theorem entries_append (zsl : Skiplist S) (ns ns' : List ℕ) :
    entries zsl (ns ++ ns') = entries zsl ns ++ entries zsl ns' := map_append

theorem entries_congr {zsl zsl' : Skiplist S} {ns : List ℕ}
    (h : ∀ x ∈ ns, (zsl'.node x).score = (zsl.node x).score ∧ (zsl'.node x).obj = (zsl.node x).obj) :
    entries zsl' ns = entries zsl ns := by
  refine map_congr_left fun x hx => ?_
  rw [Node.entry, Node.entry, Node.str, Node.str, (h x hx).1, (h x hx).2]

theorem entries_zslDeleteNode (zsl : Skiplist S) (x : ℕ) (update : ℕ → ℕ) (ns : List ℕ) :
    entries (zslDeleteNode zsl x update) ns = entries zsl ns :=
  entries_congr fun y _ =>
    ⟨(zslDeleteNode_node zsl x update y).1, (zslDeleteNode_node zsl x update y).2.1⟩

variable [LinearOrder S]

/-- The skiplist has the nodes `ns`, in increasing order. -/
structure Rep (zsl : Skiplist S) (ns : List ℕ) : Prop where
  shape : Shape zsl ns
  sorted : Sorted (entries zsl ns)

theorem rep_zslCreate [Zero S] : Rep (zslCreate : Skiplist S) [] :=
  ⟨shape_zslCreate, List.Pairwise.nil⟩

variable {ns : List ℕ} {zsl : Skiplist S}

theorem Rep.pairwise (h : Rep zsl ns) :
    ns.Pairwise fun x y => key (zsl.node x).entry < key (zsl.node y).entry := by
  have hsorted : (ns.map fun x => (zsl.node x).entry).Pairwise fun a b => key a < key b := h.sorted
  rwa [pairwise_map] at hsorted

theorem Rep.search (h : Rep zsl ns) {test : Entry S → Bool} (htest : Downward test)
    (go : Node S → Bool) (hgo : ∀ n, go n = test n.entry) :
    ∃ A B, ns = A ++ B ∧ entries zsl A = (entries zsl ns).filter test ∧
      entries zsl B = (entries zsl ns).filter (fun a => !test a) ∧
      FoundFrom zsl (header :: A) 0 (Zset.search zsl fun _ => go) ∧
      zsl.forward 0 (Zset.search zsl fun _ => go).x = B.head? := by
  obtain ⟨A, hA⟩ : ∃ A, A = ns.takeWhile fun x => go (zsl.node x) := ⟨_, rfl⟩
  obtain ⟨B, hB⟩ : ∃ B, B = ns.dropWhile fun x => go (zsl.node x) := ⟨_, rfl⟩
  have hns : ns = A ++ B := by rw [hA, hB, takeWhile_append_dropWhile]
  have hcomp : (fun x => go (zsl.node x)) = test ∘ fun x => (zsl.node x).entry :=
    funext fun x => hgo (zsl.node x)
  obtain ⟨htake, hdrop⟩ := h.sorted.takeWhile_dropWhile htest
  have hcut : Cut (fun _ y => go (zsl.node y)) (header :: A) B := by
    rw [hA, hB]
    refine cut_takeWhile header (h.pairwise.imp fun hlt hy => ?_)
    rw [hgo] at hy ⊢
    exact htest _ _ hlt hy
  have hsplit : header :: ns = (header :: A) ++ B := by rw [hns, cons_append]
  obtain ⟨hfound, hx, -⟩ := h.shape.search hsplit (cons_ne_nil _ _) _ hcut
  refine ⟨A, B, hns, ?_, ?_, hfound, ?_⟩
  · rw [← htake, hA, hcomp, entries, entries, takeWhile_map]
  · rw [← hdrop, hB, hcomp, entries, entries, dropWhile_map]
  · rw [hx]
    exact h.shape.forward_last hsplit (cons_ne_nil _ _) (hfound 0 le_rfl h.shape.level.1)

/-! ## Insertion -/

theorem Rep.insert {zsl : Skiplist S} {ns : List ℕ} (h : Rep zsl ns) {level : ℕ} (hpos : 0 < level)
    (hlevel : level ≤ maxLevel) {score : S} {obj : Bytes} (hnew : (score, obj) ∉ entries zsl ns) :
    ∃ ns', Rep (zslInsert zsl level score obj) ns' ∧
      entries (zslInsert zsl level score obj) ns' = insertEntry (score, obj) (entries zsl ns) := by
  obtain ⟨A, B, hns, hA, hB, hfound, -⟩ := h.search (downward_lt (score, obj))
    (nodeBefore score obj)
    fun n => by rw [Bool.eq_iff_iff, nodeBefore_iff, decide_eq_true_iff]
  have hsplit : header :: ns = (header :: A) ++ B := by rw [hns, cons_append]
  obtain ⟨hshape, hfound', hle, hdata⟩ :=
    raiseLevel_spec h.shape hsplit (cons_ne_nil _ _) hfound hlevel
  obtain ⟨r, hr⟩ : ∃ r, r = raiseLevel zsl (Zset.search zsl fun _ => nodeBefore score obj) level :=
    ⟨_, rfl⟩
  rw [← hr] at hshape hfound' hle hdata
  have hinsert : zslInsert zsl level score obj = insertNode r.1 r.2 level score obj := by
    rw [hr]
    rfl
  have hshape' := hshape.insertNode hns hfound' hpos hle score obj
  have hins := insertNode_inserted r.1 r.2 level score obj
  rw [← hinsert] at hshape' hins
  have hold : ∀ l : List ℕ, (∀ x ∈ l, x ∈ ns) →
      entries (zslInsert zsl level score obj) l = entries zsl l := fun l hl =>
    entries_congr fun x hx => by
      have hne : x ≠ r.1.fresh := hshape.ne_fresh (mem_cons_of_mem _ (hl x hx))
      exact ⟨(hins.old x hne).1.trans (hdata.score x), (hins.old x hne).2.trans (hdata.obj x)⟩
  have hentry : ((zslInsert zsl level score obj).node r.1.fresh).entry = (score, obj) := by
    rw [Node.entry, Node.str, hins.new.1, hins.new.2, getD_some]
  have hentries : entries (zslInsert zsl level score obj) (A ++ r.1.fresh :: B) =
      insertEntry (score, obj) (entries zsl ns) := by
    rw [insertEntry, ← hA, ← hB, ← hold A fun x hx => by simp [hns, hx],
      ← hold B fun x hx => by simp [hns, hx], ← hentry, entries, map_append]
    rfl
  exact ⟨_, ⟨hshape', hentries ▸ h.sorted.insertEntry hnew⟩, hentries⟩

/-! ## Deletion -/

theorem Rep.deleteNode {A B : List ℕ} {x : ℕ} {s : Search} (h : Rep zsl (A ++ x :: B))
    (hfound : FoundFrom zsl (header :: A) 0 s) :
    Rep (zslDeleteNode zsl x s.update) (A ++ B) ∧
      FoundFrom (zslDeleteNode zsl x s.update) (header :: A) 0 s := by
  obtain ⟨hshape, hfound'⟩ := h.shape.deleteNode rfl hfound
  refine ⟨⟨hshape, ?_⟩, hfound'⟩
  rw [entries_zslDeleteNode]
  exact h.sorted.sublist (((sublist_cons_self x B).append_left A).map _)

theorem Rep.delete {zsl : Skiplist S} {ns : List ℕ} (h : Rep zsl ns) (score : S) (obj : Bytes) :
    ∃ ns', Rep (zslDelete zsl score obj).1 ns' ∧
      entries (zslDelete zsl score obj).1 ns' = deleteEntry (score, obj) (entries zsl ns) ∧
      (zslDelete zsl score obj).2 = decide ((score, obj) ∈ entries zsl ns) := by
  obtain ⟨A, B, rfl, hA, hB, hfound, hnext⟩ := h.search (downward_lt (score, obj))
    (nodeBefore score obj)
    fun n => by rw [Bool.eq_iff_iff, nodeBefore_iff, decide_eq_true_iff]
  have hle : ∀ a ∈ entries zsl B, key (score, obj) ≤ key a := fun a ha => by
    rw [hB, mem_filter] at ha
    simpa using ha.2
  have hmem : (score, obj) ∈ entries zsl (A ++ B) ↔ (score, obj) ∈ entries zsl B := by
    rw [hB]
    simp
  have hsame : (score, obj) ∉ entries zsl B → ∃ ns', Rep zsl ns' ∧
      entries zsl ns' = deleteEntry (score, obj) (entries zsl (A ++ B)) ∧
      false = decide ((score, obj) ∈ entries zsl (A ++ B)) := by
    intro hnot
    rw [← hmem] at hnot
    exact ⟨A ++ B, h, (deleteEntry_of_not_mem hnot).symm, by simp [hnot]⟩
  rw [zslDelete]
  simp only [hnext]
  cases B with
  | nil => exact hsame (by simp [entries])
  | cons b B =>
    simp only [head?_cons]
    have hentry : (score = (zsl.node b).score ∧ equalStringObjects (zsl.node b).str obj = true) ↔
        (zsl.node b).entry = (score, obj) := by
      rw [equalStringObjects_iff, Node.entry, Prod.mk.injEq, eq_comm]
    have hsorted := h.sorted
    simp only [entries, map_append, map_cons] at hsorted
    split_ifs with hfind
    · rw [hentry] at hfind
      refine ⟨A ++ B, (h.deleteNode hfound).1, ?_, ?_⟩
      · rw [entries_zslDeleteNode]
        simp only [entries, map_append, map_cons]
        rw [hfind] at hsorted ⊢
        exact hsorted.deleteEntry_middle.symm
      · rw [eq_comm, decide_eq_true_iff, hmem, entries, map_cons, hfind]
        exact mem_cons_self
    · rw [hentry] at hfind
      refine hsame fun hin => ?_
      -- all entries from `b` on come after the one looked for
      have hlt : key (score, obj) < key (zsl.node b).entry :=
        lt_of_le_of_ne (hle _ (by simp [entries])) fun heq => hfind (key_injective heq).symm
      rw [entries, map_cons, mem_cons] at hin
      rcases hin with hin | hin
      · exact hfind hin.symm
      · have hafter := (pairwise_cons.1 (pairwise_append.1 hsorted).2.1).1 _ hin
        exact lt_asymm hlt hafter

theorem Rep.deleteLoop (test : ℕ → S → Bool) {s : Search} {A D : List ℕ} :
    ∀ (C : List ℕ) (zsl : Skiplist S) (removed : List Bytes) (fuel : ℕ), Rep zsl (A ++ (C ++ D)) →
      FoundFrom zsl (header :: A) 0 s →
      (∀ C₁ c C₂, C = C₁ ++ c :: C₂ → test (removed.length + C₁.length) (zsl.node c).score = true) →
      (∀ d, D.head? = some d → test (removed.length + C.length) (zsl.node d).score = false) →
      C.length ≤ fuel →
      Rep (Zset.deleteLoop test s.update fuel zsl (C ++ D).head? removed).1 (A ++ D) ∧
        entries (Zset.deleteLoop test s.update fuel zsl (C ++ D).head? removed).1 (A ++ D) =
          entries zsl (A ++ D) ∧
        (Zset.deleteLoop test s.update fuel zsl (C ++ D).head? removed).2 =
          removed ++ (entries zsl C).map Prod.snd
  | [], zsl, removed, fuel, h, _, _, hD, _ => by
      have hstop : Zset.deleteLoop test s.update fuel zsl ([] ++ D).head? removed =
          (zsl, removed) := by
        cases fuel with
        | zero => rfl
        | succ fuel =>
          cases D with
          | nil => rfl
          | cons d D =>
            have hd := hD d rfl
            rw [length_nil, Nat.add_zero] at hd
            rw [nil_append, head?_cons, Zset.deleteLoop, hd, if_neg (by simp)]
      rw [hstop]
      exact ⟨h, rfl, by simp [entries]⟩
  | c :: C, zsl, removed, 0, _, _, _, _, hfuel => absurd hfuel (by simp)
  | c :: C, zsl, removed, fuel + 1, h, hfound, hC, hD, hfuel => by
      have hc : test removed.length (zsl.node c).score = true := hC [] c C rfl
      have htall : tall zsl 0 c = true := by
        rw [tall, decide_eq_true_iff]
        exact (h.shape.height c (by simp)).1
      have hnext : zsl.forward 0 c = (C ++ D).head? :=
        h.shape.forward_last (A := header :: A ++ [c]) (by simp) (by simp)
          ⟨header :: A, [], rfl, rfl, htall, by simp⟩
      obtain ⟨hrep, hfound'⟩ := Rep.deleteNode (B := C ++ D) h hfound
      have hnode := fun y => (zslDeleteNode_node zsl c s.update y).1
      have hlen : ∀ k, (removed ++ [(zsl.node c).str]).length + k = removed.length + (k + 1) := by
        intro k
        rw [length_append, length_singleton]
        omega
      have ih := Rep.deleteLoop test C (zslDeleteNode zsl c s.update)
        (removed ++ [(zsl.node c).str]) fuel hrep hfound'
        (fun C₁ d C₂ hsplit => by
          rw [hnode, hlen]
          exact hC (c :: C₁) d C₂ (by rw [hsplit, cons_append]))
        (fun d hd => by
          rw [hnode, hlen]
          exact hD d hd)
        (Nat.le_of_succ_le_succ hfuel)
      rw [entries_zslDeleteNode, entries_zslDeleteNode] at ih
      rw [cons_append, head?_cons, Zset.deleteLoop, hc, hnext]
      refine ⟨ih.1, ih.2.1, ih.2.2.trans ?_⟩
      simp [entries, Node.entry]

variable (h : Rep zsl ns)

include h

variable (range : RangeSpec S)

theorem Rep.deleteRangeByScore : ∃ ns', Rep (zslDeleteRangeByScore zsl range).1 ns' ∧
      entries (zslDeleteRangeByScore zsl range).1 ns' = deleteRange range (entries zsl ns) ∧
      (zslDeleteRangeByScore zsl range).2 =
        ((entries zsl ns).filter fun a => range.contains a.1).map Prod.snd := by
  obtain ⟨A, B, rfl, hA, hB, hfound, hnext⟩ := h.search (downward_not_gteMin range)
    (fun n => if range.minex then decide (n.score ≤ range.min) else decide (n.score < range.min))
    fun n => not_gteMin range n.score
  have hlow : ∀ a ∈ entries zsl A, zslValueGteMin a.1 range = false := fun a ha => by
    rw [hA, mem_filter] at ha
    simpa using ha.2
  have hhigh : ∀ a ∈ entries zsl B, zslValueGteMin a.1 range = true := fun a ha => by
    rw [hB, mem_filter] at ha
    simpa using ha.2
  obtain ⟨htake, hdrop⟩ := Sorted.takeWhile_dropWhile (l := entries zsl B)
    (h.sorted.sublist (by rw [entries_append]; exact sublist_append_right _ _))
    (downward_lteMax range)
  obtain ⟨C, hC⟩ : ∃ C, C = B.takeWhile fun x => zslValueLteMax (zsl.node x).score range := ⟨_, rfl⟩
  obtain ⟨D, hD⟩ : ∃ D, D = B.dropWhile fun x => zslValueLteMax (zsl.node x).score range := ⟨_, rfl⟩
  have hBCD : B = C ++ D := by rw [hC, hD, takeWhile_append_dropWhile]
  have hCe : entries zsl C = (entries zsl B).filter fun a => zslValueLteMax a.1 range := by
    rw [← htake, hC, entries, entries, takeWhile_map]
    rfl
  have hDe : entries zsl D = (entries zsl B).filter fun a => !zslValueLteMax a.1 range := by
    rw [← hdrop, hD, entries, entries, dropWhile_map]
    rfl
  have hloop := Rep.deleteLoop (fun _ value => zslValueLteMax value range) (A := A) (D := D) C zsl []
    zsl.length (by rwa [← hBCD]) hfound (fun C₁ c C₂ hsplit => ?_) (fun d hd => ?_) ?_
  · have hnone : (entries zsl A).filter (fun a => range.contains a.1) = [] :=
      filter_eq_nil_iff.2 fun a ha => by simp [RangeSpec.contains, hlow a ha]
    have hall : (entries zsl A).filter (fun a => !range.contains a.1) = entries zsl A :=
      filter_eq_self.2 fun a ha => by simp [RangeSpec.contains, hlow a ha]
    rw [← hBCD, ← hnext] at hloop
    refine ⟨A ++ D, hloop.1, hloop.2.1.trans ?_, hloop.2.2.trans ?_⟩
    · rw [entries_append, entries_append, deleteRange, filter_append, hDe, hall]
      congr 1
      exact filter_congr fun a ha => by simp [RangeSpec.contains, hhigh a ha]
    · rw [entries_append, filter_append, nil_append, hCe, hnone]
      congr 1
      exact filter_congr fun a ha => by simp [RangeSpec.contains, hhigh a ha]
  · have hc : c ∈ B.takeWhile fun x => zslValueLteMax (zsl.node x).score range := by
      rw [← hC, hsplit]
      simp
    have htrue := mem_takeWhile_imp hc
    exact htrue
  · have hd' := head?_dropWhile_not (fun x => zslValueLteMax (zsl.node x).score range) B
    rw [← hD, hd] at hd'
    simpa using hd'
  · rw [h.shape.length, hBCD, length_append, length_append]
    omega

theorem Rep.deleteRangeByRank (start stop : ℕ) :
    ∃ ns', Rep (zslDeleteRangeByRank zsl start stop).1 ns' ∧
      entries (zslDeleteRangeByRank zsl start stop).1 ns' =
        deleteRanks start stop (entries zsl ns) ∧
      (zslDeleteRangeByRank zsl start stop).2 = (((entries zsl ns).drop (start - 1)).take
          (stop - ((entries zsl ns).take (start - 1)).length)).map Prod.snd := by
  obtain ⟨A, hA⟩ : ∃ A, A = ns.take (start - 1) := ⟨_, rfl⟩
  obtain ⟨B, hB⟩ : ∃ B, B = ns.drop (start - 1) := ⟨_, rfl⟩
  have hns : ns = A ++ B := by rw [hA, hB, take_append_drop]
  have hsplit : header :: ns = (header :: A) ++ B := by rw [hns, cons_append]
  have hcut : Cut (fun t _ => decide (t < start)) (header :: A) B := by
    rw [hA, hB]
    refine cut_take header fun n hn => ?_
    rw [decide_eq_true_iff]
    omega
  obtain ⟨hfound, hx, htraversed⟩ := h.shape.search hsplit (cons_ne_nil _ _)
      (fun t _ => decide (t < start)) hcut
  obtain ⟨s, hs⟩ : ∃ s, s = Zset.search zsl fun t _ => decide (t < start) := ⟨_, rfl⟩
  rw [← hs] at hfound hx htraversed
  have hzero := hfound 0 le_rfl h.shape.level.1
  have hrank : s.traversed = A.length := by
    have := (h.shape.lastIn_zero hsplit hzero).2
    rw [length_cons] at this
    omega
  have hnext : zsl.forward 0 s.x = B.head? :=
    hx ▸ h.shape.forward_last hsplit (cons_ne_nil _ _) hzero
  obtain ⟨k, hk⟩ : ∃ k, k = stop - A.length := ⟨_, rfl⟩
  have hloop := Rep.deleteLoop (fun removed (_ : S) => decide (s.traversed + 1 + removed ≤ stop))
    (A := A) (D := B.drop k) (B.take k) zsl [] zsl.length
    (by rwa [take_append_drop, ← hns]) hfound (fun C₁ c C₂ hC => ?_) (fun d hd => ?_) ?_
  · have hentries : ∀ m, entries zsl (ns.take m) = (entries zsl ns).take m ∧
        entries zsl (ns.drop m) = (entries zsl ns).drop m := fun m =>
      ⟨map_take, map_drop⟩
    have hlen : ((entries zsl ns).take (start - 1)).length = A.length := by
      rw [← (hentries _).1, ← hA, entries, length_map]
    have hBe : (entries zsl ns).drop (start - 1) = entries zsl B := by rw [hB, (hentries _).2]
    rw [take_append_drop, ← hnext, hs] at hloop
    refine ⟨_, hloop.1, hloop.2.1.trans ?_, hloop.2.2.trans ?_⟩
    · rw [deleteRanks, hlen, ← hk, hBe, ← (hentries _).1, ← hA, entries_append, entries, entries,
        entries, map_drop]
    · rw [hlen, ← hk, hBe, nil_append, entries, entries, map_take]
  · have hlen := congrArg List.length hC
    rw [length_take, length_append, length_cons] at hlen
    simp only [length_nil, decide_eq_true_eq]
    omega
  · have hpos : 0 < (B.drop k).length := length_pos_iff.2 fun hnil => by simp [hnil] at hd
    rw [length_drop] at hpos
    simp only [length_nil, length_take, decide_eq_false_iff_not]
    omega
  · rw [h.shape.length, hns, length_append, length_take]
    omega

/-! ## Ranges of scores -/

theorem Rep.isInRange : zslIsInRange zsl range = Zset.isInRange range (entries zsl ns) := by
  rw [zslIsInRange, Zset.isInRange, h.shape.tail, h.shape.forward_header, entries, getLast?_map,
    head?_map]
  split_ifs with hempty htail hhead
  · rw [decide_eq_true hempty]
    rfl
  · have hnone : (ns.getLast?.map fun x => (zsl.node x).entry).any
        (fun a => zslValueGteMin a.1 range) = false := by
      cases hlast : ns.getLast? with
      | none => rfl
      | some x => simpa [hlast, Node.entry] using htail
    rw [hnone, Bool.and_false, Bool.false_and]
  · have hnone : (ns.head?.map fun x => (zsl.node x).entry).any
        (fun a => zslValueLteMax a.1 range) = false := by
      cases hfirst : ns.head? with
      | none => rfl
      | some x => simpa [hfirst, Node.entry] using hhead
    rw [hnone, Bool.and_false]
  · cases hlast : ns.getLast? with
    | none => simp [hlast] at htail
    | some z =>
      cases hfirst : ns.head? with
      | none => simp [hfirst] at hhead
      | some x =>
        simp only [hlast, all_some, Bool.not_eq_true', Bool.not_eq_false] at htail
        simp only [hfirst, all_some, Bool.not_eq_true', Bool.not_eq_false] at hhead
        rw [decide_eq_false hempty]
        simp [Node.entry, htail, hhead]

theorem Rep.firstInRange : ∃ r, zslFirstInRange zsl range = some r ∧
      r.map (fun x => (zsl.node x).entry) = Zset.firstInRange range (entries zsl ns) := by
  rw [zslFirstInRange, h.isInRange]
  by_cases hin : Zset.isInRange range (entries zsl ns) = true
  · obtain ⟨A, B, hns, hA, hB, hfound, hnext⟩ := h.search (downward_not_gteMin range)
      (fun n => !zslValueGteMin n.score range) fun n => rfl
    simp only [Bool.not_not] at hB
    rw [if_pos hin, hnext, h.sorted.firstInRange_eq, ← hB]
    cases B with
    | nil =>
      -- the last node would be below the range
      have hlast : (entries zsl ns).getLast?.any (fun a => zslValueGteMin a.1 range) = true := by
        rw [Zset.isInRange, Bool.and_eq_true, Bool.and_eq_true] at hin
        exact hin.1.2
      obtain ⟨z, hz, hgte⟩ := (any_eq_true _ _).1 hlast
      have hmem : z ∈ (entries zsl ns).filter fun a => zslValueGteMin a.1 range :=
        mem_filter.2 ⟨mem_of_getLast? hz, hgte⟩
      rw [← hB] at hmem
      cases hmem
    | cons b B =>
      refine ⟨_, rfl, ?_⟩
      simp only [head?_cons, entries, map_cons, filter_some]
      cases hlte : zslValueLteMax (zsl.node b).score range with
      | true | false => simp [Node.entry, hlte]
  · refine ⟨none, if_neg hin, ?_⟩
    rw [Zset.firstInRange, filter_eq_nil_iff.2 fun a ha hc =>
      hin (h.sorted.isInRange_of_contains ha hc)]
    rfl

theorem Rep.lastInRange : (zslLastInRange zsl range).map (fun x => (zsl.node x).entry) =
      Zset.lastInRange range (entries zsl ns) := by
  rw [zslLastInRange, h.isInRange]
  by_cases hin : Zset.isInRange range (entries zsl ns) = true
  · obtain ⟨A, B, hns, hA, hB, hfound, hnext⟩ := h.search (downward_lteMax range)
      (fun n => zslValueLteMax n.score range) fun n => rfl
    obtain ⟨s, hs⟩ : ∃ s, s = Zset.search zsl fun _ n => zslValueLteMax n.score range := ⟨_, rfl⟩
    have hx : s.x = s.update 0 := by
      rw [hs]
      exact (descend_x zsl _ _ _ h.shape.level.1).1
    rw [← hs] at hfound
    have hlast := (h.shape.lastIn_zero (A := header :: A) (B := B) (by rw [hns, cons_append])
      (hfound 0 le_rfl h.shape.level.1)).1
    rw [if_pos hin, h.sorted.lastInRange_eq, ← hA, ← hs, hx]
    rcases eq_nil_or_concat A with rfl | ⟨A', z, rfl⟩
    · -- the first node would be above the range
      have hhead : (entries zsl ns).head?.any (fun a => zslValueLteMax a.1 range) = true := by
        rw [Zset.isInRange, Bool.and_eq_true] at hin
        exact hin.2
      obtain ⟨a, ha, hlte⟩ := (any_eq_true _ _).1 hhead
      have hmem : a ∈ (entries zsl ns).filter fun a => zslValueLteMax a.1 range :=
        mem_filter.2 ⟨mem_of_head? ha, hlte⟩
      rw [← hA] at hmem
      cases hmem
    · rw [concat_eq_append, ← cons_append, getLast?_concat] at hlast
      cases hlast
      rw [concat_eq_append, entries, map_append, map_singleton, getLast?_concat, filter_some]
      cases hgte : zslValueGteMin (zsl.node (s.update 0)).score range with
      | true | false => simp [hgte, Node.entry]
  · rw [if_neg hin, Zset.lastInRange, filter_eq_nil_iff.2 fun a ha hc =>
      hin (h.sorted.isInRange_of_contains ha hc)]
    rfl

end ServerStack.Redis.Zset
