import ServerStack.Fastdfs.AvlTreeSpec

/-!
# An AVL tree as a set of data

What the users of a tree need: which data are in it after an operation, also after one of them was
changed through its pointer.
-/

namespace ServerStack.Fastdfs

open OrderedList List

variable {α : Type*} {compare : α → α → ℤ}

namespace AvlTree

variable {target : α} {f : α → α}

theorem height_modifyLoop (t : AvlTree α) : (modifyLoop compare target f t).height = t.height := by
  induction t with
  | nil => rfl
  | node d l r b ihl ihr =>
    unfold modifyLoop
    split_ifs
    · rw [height_node, height_node, ihl]
    · rw [height_node, height_node, ihr]
    · rfl

variable {t : AvlTree α}

theorem wf_modifyLoop (h : t.Wf) : (modifyLoop compare target f t).Wf := by
  induction t with
  | nil => exact h
  | node d l r b ihl ihr =>
    obtain ⟨hb, hlo, hhi, hl, hr⟩ := h
    unfold modifyLoop
    split_ifs
    · refine ⟨?_, hlo, hhi, ihl hl, hr⟩
      rw [height_modifyLoop]
      exact hb
    · refine ⟨?_, hlo, hhi, hl, ihr hr⟩
      rw [height_modifyLoop]
      exact hb
    · exact ⟨hb, hlo, hhi, hl, hr⟩

theorem toList_modifyLoop (hcompare : TotalCompare compare) (h : Sorted compare t.toList) :
    (modifyLoop compare target f t).toList =
      t.toList.map fun d => if compare d target = 0 then f d else d := by
  have hsame : ∀ l : List α, (∀ d ∈ l, compare d target ≠ 0) →
      l.map (fun d => if compare d target = 0 then f d else d) = l := by
    intro l hl
    conv_rhs => rw [← map_id l]
    exact map_congr_left fun d hd => if_neg (hl d hd)
  induction t with
  | nil => rfl
  | node d l r b ihl ihr =>
    obtain ⟨hl, hr, hld, hdr, -⟩ := sorted_append.1 h
    have hsorted : Sorted compare (d :: r.toList) := pairwise_cons.2 ⟨hdr, hr⟩
    unfold modifyLoop
    rw [toList_node, map_append, map_cons]
    split_ifs with hpos hzero hneg hzero hzero
    · omega
    · rw [toList_node, ihl hl, hsame r.toList fun a ha =>
        (hsorted.pos_of_nonneg hcompare hpos.le a ha).ne']
    · omega
    · rw [toList_node, ihr hr, hsame l.toList fun a ha =>
        (hcompare.lt_of_lt_of_le (hld a ha) hneg.le).ne]
    · rw [toList_node, hsame l.toList fun a ha =>
        (hcompare.lt_of_lt_of_le (hld a ha) (not_lt.1 hpos)).ne, hsame r.toList fun a ha =>
        (hsorted.pos_of_nonneg hcompare (not_lt.1 hneg) a ha).ne']
    · omega

theorem success_putLoop (equal : α → α) (h : Sorted compare t.toList)
    (hnew : ∀ e ∈ t.toList, compare e target ≠ 0) :
    (putLoop compare true equal target t).success = 1 := by
  induction t with
  | nil => rfl
  | node d l r b ihl ihr =>
    obtain ⟨hl, hr, -⟩ := sorted_append.1 h
    unfold putLoop
    split_ifs with hpos hneg
    · exact ihl hl fun e he => hnew e (mem_append_left _ he)
    · exact ihr hr fun e he => hnew e (mem_append_right _ (mem_cons_of_mem _ he))
    · have := hnew d (mem_append_right _ mem_cons_self)
      omega

theorem result_deleteLoop :
    (deleteLoop compare target t).result = if (deleteLoop compare target t).found.isSome then 1
      else 0 := by
  induction t with
  | nil => rfl
  | node d l r b ihl ihr =>
    unfold deleteLoop
    by_cases hpos : 0 < compare d target
    · rw [if_pos hpos]
      exact ihl
    · rw [if_neg hpos]
      by_cases hneg : compare d target < 0
      · rw [if_pos hneg]
        exact ihr
      · rw [if_neg hneg]
        rfl

theorem putLoop_congr {compare' : α → α → ℤ} (malloc : Bool) (equal : α → α)
    (h : ∀ d ∈ t.toList, compare d target = compare' d target) :
    putLoop compare malloc equal target t = putLoop compare' malloc equal target t := by
  induction t with
  | nil => rfl
  | node d l r b ihl ihr =>
    rw [putLoop, putLoop, h d (mem_append_right _ mem_cons_self),
      ihl fun e he => h e (mem_append_left _ he),
      ihr fun e he => h e (mem_append_right _ (mem_cons_of_mem _ he))]

theorem deleteLoop_congr {compare' : α → α → ℤ}
    (h : ∀ d ∈ t.toList, compare d target = compare' d target) :
    deleteLoop compare target t = deleteLoop compare' target t := by
  induction t with
  | nil => rfl
  | node d l r b ihl ihr =>
    rw [deleteLoop, deleteLoop, h d (mem_append_right _ mem_cons_self),
      ihl fun e he => h e (mem_append_left _ he),
      ihr fun e he => h e (mem_append_right _ (mem_cons_of_mem _ he))]

end AvlTree

namespace AvlTreeInfo

def toList (tree : AvlTreeInfo α) : List α := tree.root.toList

/-- The tree is balanced, and its data are in the order of the comparison function. -/
structure Ordered (compare : α → α → ℤ) (tree : AvlTreeInfo α) : Prop where
  compare_eq : tree.compare = compare
  wf : tree.root.Wf
  sorted : Sorted compare tree.toList

variable {tree : AvlTreeInfo α}

theorem ordered_init (freesData : Bool) (compare : α → α → ℤ) :
    Ordered compare (init freesData compare) := ⟨rfl, trivial, List.Pairwise.nil⟩

theorem Ordered.represents (h : Ordered compare tree) :
    Represents tree.freesData compare (tree, []) (tree.toList, []) :=
  ⟨h.compare_eq, rfl, h.wf, h.sorted, .refl _, by split_ifs <;> rfl⟩

variable (hcompare : TotalCompare compare) (h : Ordered compare tree)

include hcompare h

theorem Ordered.find_iff
    (target d : α) : tree.find target = some d ↔ d ∈ tree.toList ∧ compare d target = 0 :=
  h.represents.find_iff hcompare target d

theorem Ordered.find_eq_none
    (target : α) : tree.find target = none ↔ ∀ d ∈ tree.toList, compare d target ≠ 0 := by
  rw [Option.eq_none_iff_forall_ne_some]
  refine forall_congr' fun d => ?_
  rw [ne_eq, h.find_iff hcompare, not_and]

theorem Ordered.findGe (target : α) :
    (∀ d, tree.findGe target = some d → AvlTree.LeastGe compare target tree.toList d) ∧
      (tree.findGe target = none → ∀ e ∈ tree.toList, compare e target < 0) :=
  h.represents.findGe hcompare target

theorem Ordered.eq_of_zero {d e : α}
    (hd : d ∈ tree.toList) (he : e ∈ tree.toList) (hzero : compare d e = 0) : d = e :=
  h.sorted.eq_of_zero hcompare hd he hzero

theorem Ordered.insert {d : α} (hnew : ∀ e ∈ tree.toList, compare e d ≠ 0) :
    Ordered compare (tree.insert true d).1 ∧ (tree.insert true d).2 = 1 ∧
      ∀ e, e ∈ (tree.insert true d).1.toList ↔ e = d ∨ e ∈ tree.toList := by
  have hins := h.represents.insert hcompare d
  have hsuccess : (tree.insert true d).2 = 1 := by
    unfold AvlTreeInfo.insert
    rw [h.compare_eq]
    exact AvlTree.success_putLoop id h.sorted hnew
  refine ⟨⟨hins.compare_eq, hins.wf, hins.sorted⟩, hsuccess, fun e => ?_⟩
  have hmem : e ∈ (tree.insert true d).1.toList ↔ e ∈ insertAbs compare tree.toList d :=
    hins.perm.mem_iff
  have habs : insertAbs compare tree.toList d = d :: tree.toList := by
    unfold insertAbs
    rw [if_neg]
    intro hany
    obtain ⟨e, he, hzero⟩ := any_eq_true.1 hany
    exact hnew e he (of_decide_eq_true hzero)
  rw [hmem, habs, mem_cons]

theorem Ordered.delete (d : α) : Ordered compare (tree.delete d).1.1 ∧
      ((∃ e ∈ tree.toList, compare e d = 0) → (tree.delete d).1.2 = 1) ∧
      ∀ e, e ∈ (tree.delete d).1.1.toList ↔ e ∈ tree.toList ∧ compare e d ≠ 0 := by
  have hdel := h.represents.delete hcompare d
  refine ⟨⟨hdel.compare_eq, hdel.wf, hdel.sorted⟩, ?_, fun e => ?_⟩
  · rintro ⟨e, he, hzero⟩
    have hfound := @AvlTree.findLoop_eq α compare d tree.root hcompare h.sorted
    have hmem : e ∈ equalAbs compare tree.root.toList d :=
      mem_filter.2 ⟨he, decide_eq_true hzero⟩
    unfold AvlTreeInfo.delete
    rw [h.compare_eq]
    dsimp only
    rw [AvlTree.result_deleteLoop, AvlTree.found_deleteLoop, if_pos]
    rw [← hfound] at hmem
    exact Option.isSome_iff_exists.2 ⟨e, Option.mem_toList.1 hmem⟩
  · have hmem : e ∈ (tree.delete d).1.1.toList ↔ e ∈ deleteAbs compare tree.toList d :=
      hdel.perm.mem_iff
    rw [hmem]
    unfold deleteAbs
    rw [mem_filter, decide_eq_true_eq]

theorem Ordered.modify (target : α)
    (f : α → α) (hf : ∀ d ∈ tree.toList, compare d target = 0 → compare (f d) d = 0) :
    Ordered compare (tree.modify target f) ∧ ∀ e, e ∈ (tree.modify target f).toList ↔
        (∃ d ∈ tree.toList, compare d target = 0 ∧ e = f d) ∨
          e ∈ tree.toList ∧ compare e target ≠ 0 := by
  have hlist : (tree.modify target f).toList =
      tree.toList.map fun d => if compare d target = 0 then f d else d := by
    unfold AvlTreeInfo.modify AvlTreeInfo.toList
    rw [h.compare_eq]
    exact AvlTree.toList_modifyLoop hcompare h.sorted
  have hg : ∀ d ∈ tree.toList, compare (if compare d target = 0 then f d else d) d = 0 := by
    intro d hd
    split_ifs with hzero
    · exact hf d hd hzero
    · exact hcompare.refl d
  refine ⟨⟨h.compare_eq, AvlTree.wf_modifyLoop h.wf, ?_⟩, fun e => ?_⟩
  · rw [hlist]
    refine pairwise_map.2 (h.sorted.imp_of_mem fun {a b} ha hb hab => ?_)
    have hzero := hcompare.eq_zero_comm.1 (hg b hb)
    exact hcompare.lt_of_lt_of_le ((hcompare.congr_left (hg a ha)).1.2 hab) hzero.le
  · rw [hlist, mem_map]
    constructor
    · rintro ⟨d, hd, rfl⟩
      by_cases hzero : compare d target = 0
      · exact .inl ⟨d, hd, hzero, if_pos hzero⟩
      · rw [if_neg hzero]
        exact .inr ⟨hd, hzero⟩
    · rintro (⟨d, hd, hzero, rfl⟩ | ⟨he, hzero⟩)
      · exact ⟨d, hd, if_pos hzero⟩
      · exact ⟨e, he, if_neg hzero⟩

end AvlTreeInfo

end ServerStack.Fastdfs
