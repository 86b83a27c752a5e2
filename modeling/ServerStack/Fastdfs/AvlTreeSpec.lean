import ServerStack.Fastdfs.AvlTree
import ServerStack.Lib.OrderedList

/-!
# The AVL tree is an ordered map

The data of a tree in order (`toList`) do not change in a rotation, and an operation does to them what
it does to a sorted list.  A tree is well formed (`Wf`) when every balance field is the difference of
the heights; the flags of the recursion say how the height changed.
-/

namespace ServerStack.Fastdfs

open List AvlTree

namespace AvlTree

open OrderedList

variable {α : Type*}

def toList : AvlTree α → List α
  | nil => []
  | node d l r _ => l.toList ++ d :: r.toList

def height : AvlTree α → ℕ
  | nil => 0
  | node _ l r _ => max l.height r.height + 1

/-- Every balance field is right height minus left height and lies between -1 and 1. -/
def Wf : AvlTree α → Prop
  | nil => True
  | node _ l r b => b = (r.height : ℤ) - l.height ∧ -1 ≤ b ∧ b ≤ 1 ∧ l.Wf ∧ r.Wf

def balanceField : AvlTree α → ℤ
  | nil => 0
  | node _ _ _ b => b

/-! ## Rotations -/

section

@[simp] theorem toList_node (d : α) (l r : AvlTree α) (b : ℤ) :
    (node d l r b).toList = l.toList ++ d :: r.toList := rfl

variable (t : AvlTree α)

@[simp] theorem toList_rotateLeft : t.rotateLeft.toList = t.toList := by
  unfold rotateLeft
  split
  · simp
  · rfl

@[simp] theorem toList_rotateRight : t.rotateRight.toList = t.toList := by
  unfold rotateRight
  split
  · simp
  · rfl

@[simp] theorem toList_leftRight : t.leftRight.toList = t.toList := by
  unfold leftRight
  split
  · simp
  · rfl

@[simp] theorem toList_rightLeft : t.rightLeft.toList = t.toList := by
  unfold rightLeft
  split
  · simp
  · rfl

@[simp] theorem toList_leftBalanceWhenInsert : t.leftBalanceWhenInsert.1.toList = t.toList := by
  unfold leftBalanceWhenInsert
  split
  · split_ifs <;> simp
  · rfl

@[simp] theorem toList_rightBalanceWhenInsert : t.rightBalanceWhenInsert.1.toList = t.toList := by
  unfold rightBalanceWhenInsert
  split
  · split_ifs <;> simp
  · rfl

@[simp] theorem toList_leftBalanceWhenDelete : t.leftBalanceWhenDelete.1.toList = t.toList := by
  unfold leftBalanceWhenDelete
  split
  · split_ifs <;> simp
  · rfl

@[simp] theorem toList_rightBalanceWhenDelete : t.rightBalanceWhenDelete.1.toList = t.toList := by
  unfold rightBalanceWhenDelete
  split
  · split_ifs <;> simp
  · rfl

variable (d : α) (l r : AvlTree α) (b : ℤ) (flag : Bool)

theorem toList_tallerLeft : (tallerLeft d l r b flag).1.toList = l.toList ++ d :: r.toList := by
  unfold tallerLeft
  split_ifs <;> simp

theorem toList_tallerRight : (tallerRight d l r b flag).1.toList = l.toList ++ d :: r.toList := by
  unfold tallerRight
  split_ifs <;> simp

theorem toList_shorterLeft : (shorterLeft d l r b flag).1.toList = l.toList ++ d :: r.toList := by
  unfold shorterLeft
  split_ifs <;> simp

theorem toList_shorterRight : (shorterRight d l r b flag).1.toList = l.toList ++ d :: r.toList := by
  unfold shorterRight
  split_ifs <;> simp

end

/-! ## Mirror images -/

section

def mirror : AvlTree α → AvlTree α
  | nil => nil
  | node d l r b => node d r.mirror l.mirror (-b)

variable (t : AvlTree α)

@[simp] theorem mirror_mirror : t.mirror.mirror = t := by
  induction t with
  | nil => rfl
  | node d l r b ihl ihr => simp [mirror, ihl, ihr]

@[simp] theorem height_mirror : t.mirror.height = t.height := by
  induction t with
  | nil => rfl
  | node d l r b ihl ihr => simp [mirror, height, ihl, ihr, max_comm]

theorem Wf.mirror {t : AvlTree α} (h : t.Wf) : t.mirror.Wf := by
  induction t with
  | nil => trivial
  | node d l r b ihl ihr =>
    obtain ⟨hb, hlo, hhi, hl, hr⟩ := h
    simp only [AvlTree.mirror, Wf, height_mirror, ihl hl, ihr hr, and_true]
    omega

theorem rightLeft_mirror : t.mirror.rightLeft = t.leftRight.mirror := by
  rcases t with _ | ⟨d, _ | ⟨ld, ll, _ | ⟨rd, rl, rr, rb⟩, lb⟩, r, b⟩
  · rfl
  · rfl
  · rfl
  · simp only [leftRight, rightLeft, mirror, neg_eq_iff_eq_neg, neg_neg, neg_zero]
    split_ifs <;> simp [mirror, rotateLeft, rotateRight]

theorem rightBalanceWhenInsert_mirror : t.mirror.rightBalanceWhenInsert =
    (t.leftBalanceWhenInsert.1.mirror, t.leftBalanceWhenInsert.2) := by
  rcases t with _ | ⟨d, _ | ⟨ld, ll, lr, lb⟩, r, b⟩
  · rfl
  · rfl
  · have h := rightLeft_mirror (node d (node ld ll lr lb) r b)
    simp only [leftBalanceWhenInsert, rightBalanceWhenInsert, mirror, neg_eq_iff_eq_neg,
      neg_neg] at h ⊢
    split_ifs <;> simp [mirror, rotateLeft, rotateRight, h]

theorem rightBalanceWhenDelete_mirror : t.mirror.rightBalanceWhenDelete =
    (t.leftBalanceWhenDelete.1.mirror, t.leftBalanceWhenDelete.2) := by
  rcases t with _ | ⟨d, _ | ⟨ld, ll, lr, lb⟩, r, b⟩
  · rfl
  · rfl
  · have h := rightLeft_mirror (node d (node ld ll lr lb) r b)
    simp only [leftBalanceWhenDelete, rightBalanceWhenDelete, mirror, neg_eq_iff_eq_neg,
      neg_neg, neg_zero] at h ⊢
    split_ifs <;> simp [mirror, rotateLeft, rotateRight, h]

variable (d : α) (l r : AvlTree α) (b : ℤ) (flag : Bool)

theorem tallerRight_eq_mirror : tallerRight d l r b flag =
    ((tallerLeft d r.mirror l.mirror (-b) flag).1.mirror,
      (tallerLeft d r.mirror l.mirror (-b) flag).2) := by
  have h := rightBalanceWhenInsert_mirror (node d r.mirror l.mirror (-b))
  simp only [mirror, mirror_mirror, neg_neg] at h
  unfold tallerLeft tallerRight
  split_ifs <;> first | omega | simp [mirror]

theorem shorterLeft_eq_mirror : shorterLeft d l r b flag =
    ((shorterRight d r.mirror l.mirror (-b) flag).1.mirror,
      (shorterRight d r.mirror l.mirror (-b) flag).2) := by
  have h := rightBalanceWhenDelete_mirror (node d r.mirror l.mirror (-b))
  simp only [mirror, mirror_mirror, neg_neg] at h
  unfold shorterLeft shorterRight
  split_ifs <;> first | omega | simp [mirror]

end

/-! ## Heights -/

section

variable {d : α} {l r : AvlTree α} {b : ℤ}

theorem wf_node : (node d l r b).Wf ↔
    b = (r.height : ℤ) - l.height ∧ -1 ≤ b ∧ b ≤ 1 ∧ l.Wf ∧ r.Wf := Iff.rfl

theorem height_node : (node d l r b).height = max l.height r.height + 1 := rfl

theorem wf_leftRight {ld : α} {ll lr : AvlTree α} (hl : (node ld ll lr 1).Wf) (hr : r.Wf)
    (hheight : (node ld ll lr 1).height = r.height + 2) :
    (node d (node ld ll lr 1) r b).leftRight.Wf ∧
      (node d (node ld ll lr 1) r b).leftRight.height = r.height + 2 := by
  rw [wf_node] at hl
  rw [height_node] at hheight
  cases lr with
  | nil =>
    unfold height at hl
    omega
  | node rd rl rr rb =>
    obtain ⟨hb, -, -, hll, hrb, hlo, hhi, hrl, hrr⟩ := hl
    rw [height_node] at hb hheight
    have hcases : rb = -1 ∨ rb = 0 ∨ rb = 1 := by omega
    rcases hcases with rfl | rfl | rfl
    all_goals
      simp only [leftRight, rotateLeft, rotateRight, wf_node, height_node, hll, hr, hrl, hrr, and_true]
      norm_num
      omega

/-- What `taller` says about a subtree that had the height `old`. -/
structure Grown (old : ℕ) (t : AvlTree α × Bool) : Prop where
  wf : t.1.Wf
  height : t.1.height = old + (if t.2 then 1 else 0)
  leans : t.2 = true → t.1.balanceField ≠ 0 ∨ t.1.height = 1

/-- What `shorter` says about a subtree that had the height `old`. -/
structure Shrunk (old : ℕ) (t : AvlTree α × Bool) : Prop where
  wf : t.1.Wf
  height : t.1.height + (if t.2 then 1 else 0) = old

theorem grown_leftBalanceWhenInsert (hl : l.Wf) (hr : r.Wf) (hheight : l.height = r.height + 2)
    (hleans : l.balanceField ≠ 0) : Grown (r.height + 2) (node d l r b).leftBalanceWhenInsert := by
  cases l with
  | nil => exact absurd rfl hleans
  | node ld ll lr lb =>
    have hlb := hl
    rw [wf_node] at hlb
    change lb ≠ 0 at hleans
    have hcases : lb = -1 ∨ lb = 1 := by omega
    rcases hcases with rfl | rfl
    · rw [height_node] at hheight
      change Grown _ (node ld ll (node d lr r 0) 0, false)
      refine ⟨?_, ?_, (nomatch ·)⟩ <;> simp only [wf_node, height_node, hlb, hr, and_true] <;>
        simp <;> omega
    · obtain ⟨hwf, hh⟩ := wf_leftRight hl hr hheight
      exact ⟨hwf, hh, (nomatch ·)⟩

theorem shrunk_leftBalanceWhenDelete (hl : l.Wf) (hr : r.Wf) (hheight : l.height = r.height + 2) :
    Shrunk (r.height + 3) (node d l r (-1)).leftBalanceWhenDelete := by
  cases l with
  | nil =>
    unfold height at hheight
    omega
  | node ld ll lr lb =>
    have hlb := hl
    rw [wf_node] at hlb
    have hcases : lb = -1 ∨ lb = 0 ∨ lb = 1 := by omega
    rcases hcases with rfl | rfl | rfl
    · rw [height_node] at hheight
      change Shrunk _ (node ld ll (node d lr r 0) 0, true)
      constructor <;> simp only [wf_node, height_node, hlb, hr, and_true] <;> simp <;> omega
    · rw [height_node] at hheight
      change Shrunk _ (node ld ll (node d lr r (-1)) 1, false)
      constructor <;> simp only [wf_node, height_node, hlb, hr, and_true] <;> simp <;> omega
    · obtain ⟨hwf, hh⟩ := wf_leftRight hl hr hheight
      exact ⟨hwf, congrArg (· + 1) hh⟩

variable {n : ℕ} {flag : Bool}

theorem Grown.tallerLeft (h : Grown n (l, flag)) (hr : r.Wf) (hb : b = (r.height : ℤ) - n)
    (hlo : -1 ≤ b) (hhi : b ≤ 1) : Grown (max n r.height + 1) (tallerLeft d l r b flag) := by
  obtain ⟨hwf, hheight, hleans⟩ := h
  dsimp only at hwf hheight hleans
  unfold AvlTree.tallerLeft
  cases flag with
  | false => exact ⟨⟨by simp_all, hlo, hhi, hwf, hr⟩, by simp_all [height_node], (nomatch ·)⟩
  | true =>
    have hcases : b = -1 ∨ b = 0 ∨ b = 1 := by omega
    rw [if_pos rfl] at hheight ⊢
    rcases hcases with rfl | rfl | rfl
    · have hfield : l.balanceField ≠ 0 := by
        rcases hleans rfl with hleans | hleans
        · exact hleans
        · omega
      have hmax : max n r.height + 1 = r.height + 2 := by omega
      rw [hmax]
      exact grown_leftBalanceWhenInsert hwf hr (by omega) hfield
    · rw [if_neg (by decide), if_pos rfl]
      refine ⟨⟨by omega, by decide, by decide, hwf, hr⟩, ?_,
        fun _ => .inl (show (-1 : ℤ) ≠ 0 by decide)⟩
      rw [height_node, if_pos rfl]
      omega
    · rw [if_neg (by decide), if_neg (by decide), if_pos rfl]
      refine ⟨⟨by omega, by decide, by decide, hwf, hr⟩, ?_, (nomatch ·)⟩
      simp only [height_node, Bool.false_eq_true, if_false]
      omega

theorem Grown.mirror {t : AvlTree α × Bool} (h : Grown n t) : Grown n (t.1.mirror, t.2) where
  wf := h.wf.mirror
  height := (height_mirror t.1).trans h.height
  leans := by
    intro htaller
    refine (h.leans htaller).imp ?_ (height_mirror t.1).trans
    cases t.1 <;> simp [AvlTree.mirror, balanceField]

theorem Grown.tallerRight (h : Grown n (r, flag)) (hl : l.Wf) (hb : b = (n : ℤ) - l.height)
    (hlo : -1 ≤ b) (hhi : b ≤ 1) : Grown (max l.height n + 1) (tallerRight d l r b flag) := by
  have hleft : Grown (max n l.mirror.height + 1)
      (AvlTree.tallerLeft d r.mirror l.mirror (-b) flag) := by
    apply h.mirror.tallerLeft hl.mirror
    · rw [height_mirror]
      omega
    · omega
    · omega
  rw [height_mirror, max_comm] at hleft
  rw [tallerRight_eq_mirror]
  exact hleft.mirror

theorem Shrunk.shorterRight (h : Shrunk n (r, flag)) (hl : l.Wf) (hb : b = (n : ℤ) - l.height)
    (hlo : -1 ≤ b) (hhi : b ≤ 1) : Shrunk (max l.height n + 1) (shorterRight d l r b flag) := by
  obtain ⟨hwf, hheight⟩ := h
  dsimp only at hwf hheight
  unfold AvlTree.shorterRight
  cases flag with
  | false => exact ⟨⟨by simp_all, hlo, hhi, hl, hwf⟩, by simp_all [height_node]⟩
  | true =>
    have hcases : b = -1 ∨ b = 0 ∨ b = 1 := by omega
    rw [if_pos rfl] at hheight ⊢
    rcases hcases with rfl | rfl | rfl
    · have hmax : max l.height n + 1 = r.height + 3 := by omega
      rw [hmax]
      exact shrunk_leftBalanceWhenDelete hl hwf (by omega)
    · rw [if_neg (by decide), if_pos rfl]
      refine ⟨⟨by omega, by decide, by decide, hl, hwf⟩, ?_⟩
      simp only [height_node, Bool.false_eq_true, if_false]
      omega
    · rw [if_neg (by decide), if_neg (by decide), if_pos rfl]
      refine ⟨⟨by omega, by decide, by decide, hl, hwf⟩, ?_⟩
      rw [height_node, if_pos rfl]
      omega

theorem Shrunk.mirror {t : AvlTree α × Bool} (h : Shrunk n t) : Shrunk n (t.1.mirror, t.2) where
  wf := h.wf.mirror
  height := by
    rw [height_mirror]
    exact h.height

theorem Shrunk.shorterLeft (h : Shrunk n (l, flag)) (hr : r.Wf) (hb : b = (r.height : ℤ) - n)
    (hlo : -1 ≤ b) (hhi : b ≤ 1) : Shrunk (max n r.height + 1) (shorterLeft d l r b flag) := by
  have hright : Shrunk (max r.mirror.height n + 1)
      (AvlTree.shorterRight d r.mirror l.mirror (-b) flag) := by
    apply h.mirror.shorterRight hr.mirror
    · rw [height_mirror]
      omega
    · omega
    · omega
  rw [height_mirror, max_comm] at hright
  rw [shorterLeft_eq_mirror]
  exact hright.mirror

end

/-! ## The operations -/

variable {compare : α → α → ℤ} {target : α} {t : AvlTree α}

theorem grown_putLoop (equal : α → α) (h : t.Wf) :
    Grown t.height ((putLoop compare true equal target t).tree,
      (putLoop compare true equal target t).taller) := by
  induction t with
  | nil =>
    exact ⟨⟨rfl, by decide, by decide, trivial, trivial⟩, rfl, fun _ => .inr rfl⟩
  | node d l r b ihl ihr =>
    obtain ⟨hb, hlo, hhi, hl, hr⟩ := h
    unfold putLoop
    split_ifs
    · exact (ihl hl).tallerLeft hr hb hlo hhi
    · exact (ihr hr).tallerRight hl hb hlo hhi
    · exact ⟨⟨hb, hlo, hhi, hl, hr⟩, rfl, (nomatch ·)⟩

theorem toList_putLoop (hcompare : TotalCompare compare) (equal : α → α)
    (h : Sorted compare t.toList) :
    (putLoop compare true equal target t).tree.toList =
      OrderedList.put equal target compare t.toList := by
  induction t with
  | nil => rfl
  | node d l r b ihl ihr =>
    obtain ⟨hl, hr, hld, hdr, -⟩ := sorted_append.1 h
    have hsmaller : ¬ 0 < compare d target → ∀ a ∈ l.toList, compare a target < 0 :=
      fun hd a ha => hcompare.lt_of_lt_of_le (hld a ha) (not_lt.1 hd)
    unfold putLoop
    rw [toList_node]
    split_ifs with hpos hneg
    · rw [toList_tallerLeft, ihl hl, put_append_of_pos hpos]
    · rw [toList_tallerRight, ihr hr, put_append_of_neg (hsmaller hpos), OrderedList.put,
        if_neg hpos, if_pos hneg]
    · rw [put_append_of_neg (hsmaller hpos), OrderedList.put, if_neg hpos, if_neg hneg]
      rfl

theorem equalAbs_append (hcompare : TotalCompare compare) {l r : List α} {d : α}
    (h : Sorted compare (l ++ d :: r)) :
    equalAbs compare (l ++ d :: r) target =
      if 0 < compare d target then equalAbs compare l target
      else if compare d target < 0 then equalAbs compare r target
      else [d] := by
  obtain ⟨-, hr, hld, hdr, -⟩ := sorted_append.1 h
  have hsorted : Sorted compare (d :: r) := pairwise_cons.2 ⟨hdr, hr⟩
  have happend : equalAbs compare (l ++ d :: r) target =
      equalAbs compare l target ++ equalAbs compare (d :: r) target := filter_append _ _
  rw [happend]
  split_ifs with hpos hneg
  · have hright : ∀ a ∈ d :: r, compare a target ≠ 0 := by
      intro a ha
      rcases mem_cons.1 ha with rfl | ha
      · exact hpos.ne'
      · exact (hsorted.pos_of_nonneg hcompare hpos.le a ha).ne'
    rw [equalAbs_of_ne_zero hright, append_nil]
  · have hleft : ∀ a ∈ l, compare a target ≠ 0 := fun a ha =>
      (hcompare.lt_of_lt_of_le (hld a ha) hneg.le).ne
    rw [equalAbs_of_ne_zero hleft, nil_append]
    exact filter_cons_of_neg (by simpa using hneg.ne)
  · have hleft : ∀ a ∈ l, compare a target ≠ 0 := fun a ha =>
      (hcompare.lt_of_lt_of_le (hld a ha) (not_lt.1 hpos)).ne
    have hright := equalAbs_of_ne_zero fun a ha =>
      (hsorted.pos_of_nonneg hcompare (not_lt.1 hneg) a ha).ne'
    rw [equalAbs_of_ne_zero hleft]
    refine (filter_cons_of_pos ?_).trans (congrArg (d :: ·) hright)
    exact decide_eq_true (le_antisymm (not_lt.1 hpos) (not_lt.1 hneg))

theorem found_putLoop (equal : α → α) (t : AvlTree α) :
    (putLoop compare true equal target t).found = findLoop compare target t := by
  induction t with
  | nil => rfl
  | node d l r b ihl ihr =>
    unfold putLoop findLoop
    split_ifs
    · exact ihl
    · exact ihr
    · rfl

theorem deleteRightmost_spec (ht : t ≠ nil) :
    (∃ m, t.deleteRightmost.2 = some m ∧ t.toList = t.deleteRightmost.1.1.toList ++ [m]) ∧
      (t.Wf → Shrunk t.height t.deleteRightmost.1) := by
  induction t using deleteRightmost.induct with
  | case1 => exact absurd rfl ht
  | case2 d l b =>
    refine ⟨⟨d, rfl, rfl⟩, fun hwf => ⟨hwf.2.2.2.1, ?_⟩⟩
    rw [deleteRightmost, height_node, if_pos rfl]
    unfold height
    rw [Nat.max_zero]
  | case3 d l rd rl rr rb b ih =>
    obtain ⟨⟨m, hm, hlist⟩, hshrunk⟩ := ih (by simp)
    unfold deleteRightmost
    refine ⟨⟨m, hm, ?_⟩, fun hwf => ?_⟩
    · rw [toList_node, hlist]
      rw [toList_shorterRight, append_assoc, cons_append]
    · obtain ⟨hb, hlo, hhi, hl, hr⟩ := hwf
      exact (hshrunk hr).shorterRight hl hb hlo hhi

theorem toList_deleteNode (d : α) (l r : AvlTree α) (b : ℤ) :
    (deleteNode d l r b).1.toList = l.toList ++ r.toList := by
  unfold deleteNode
  split
  · rfl
  · simp [toList]
  · rename_i hl hr
    obtain ⟨⟨m, hm, hlist⟩, -⟩ := deleteRightmost_spec (t := l) hl
    rw [toList_shorterLeft, hm, hlist, append_assoc]
    rfl

theorem shrunk_deleteNode {d : α} {l r : AvlTree α} {b : ℤ} (h : (node d l r b).Wf) :
    Shrunk (node d l r b).height (deleteNode d l r b) := by
  obtain ⟨hb, hlo, hhi, hl, hr⟩ := h
  unfold deleteNode
  split
  · refine ⟨hr, ?_⟩
    rw [height_node, if_pos rfl]
    unfold height
    rw [Nat.zero_max]
  · refine ⟨hl, ?_⟩
    rw [height_node, if_pos rfl]
    unfold height
    rw [Nat.max_zero]
  · rename_i hne _
    exact ((deleteRightmost_spec hne).2 hl).shorterLeft hr hb hlo hhi

theorem shrunk_deleteLoop (h : t.Wf) :
    Shrunk t.height ((deleteLoop compare target t).tree, (deleteLoop compare target t).shorter) := by
  induction t with
  | nil => exact ⟨trivial, rfl⟩
  | node d l r b ihl ihr =>
    have hnode := shrunk_deleteNode h
    obtain ⟨hb, hlo, hhi, hl, hr⟩ := h
    unfold deleteLoop
    split_ifs
    · exact (ihl hl).shorterLeft hr hb hlo hhi
    · exact (ihr hr).shorterRight hl hb hlo hhi
    · exact hnode

theorem toList_deleteLoop (hcompare : TotalCompare compare) (h : Sorted compare t.toList) :
    (deleteLoop compare target t).tree.toList = remove compare target t.toList := by
  induction t with
  | nil => rfl
  | node d l r b ihl ihr =>
    obtain ⟨hl, hr, hld, hdr, -⟩ := sorted_append.1 h
    have hsmaller : ¬ 0 < compare d target → ∀ a ∈ l.toList, compare a target < 0 :=
      fun hd a ha => hcompare.lt_of_lt_of_le (hld a ha) (not_lt.1 hd)
    unfold deleteLoop
    rw [toList_node]
    split_ifs with hpos hneg
    · rw [toList_shorterLeft, ihl hl, remove_append_of_pos hpos]
    · rw [toList_shorterRight, ihr hr, remove_append_of_neg (hsmaller hpos), remove, if_neg hpos,
        if_pos hneg]
    · rw [toList_deleteNode, remove_append_of_neg (hsmaller hpos), remove, if_neg hpos, if_neg hneg]

theorem found_deleteLoop (t : AvlTree α) :
    (deleteLoop compare target t).found = findLoop compare target t := by
  induction t with
  | nil => rfl
  | node d l r b ihl ihr =>
    unfold deleteLoop findLoop
    split_ifs
    · exact ihl
    · exact ihr
    · rfl

/-! ## The queries -/

theorem findLoop_eq (hcompare : TotalCompare compare) (h : Sorted compare t.toList) :
    (findLoop compare target t).toList = equalAbs compare t.toList target := by
  induction t with
  | nil => rfl
  | node d l r b ihl ihr =>
    obtain ⟨hl, hr, -⟩ := sorted_append.1 h
    rw [toList_node, equalAbs_append hcompare h]
    unfold findLoop
    split_ifs
    · exact ihl hl
    · exact ihr hr
    · rfl

def LeastGe (compare : α → α → ℤ) (target : α) (l : List α) (d : α) : Prop :=
  d ∈ l ∧ 0 ≤ compare d target ∧ ∀ e ∈ l, 0 ≤ compare e target → compare d e ≤ 0

theorem findGeLoop_eq (hcompare : TotalCompare compare) (h : Sorted compare t.toList) :
    findGeLoop compare target t = t.toList.find? fun d => 0 ≤ compare d target := by
  induction t with
  | nil => rfl
  | node d l r b ihl ihr =>
    obtain ⟨hl, hr, hld, -⟩ := sorted_append.1 h
    have hnone : ¬ 0 < compare d target → l.toList.find? (fun d => 0 ≤ compare d target) = none := by
      intro hd
      refine find?_eq_none.2 fun e he => ?_
      simpa using hcompare.lt_of_lt_of_le (hld e he) (not_lt.1 hd)
    rw [toList_node, find?_append]
    unfold findGeLoop
    split_ifs with hpos hneg
    · rw [ihl hl, find?_cons_of_pos (by simpa using hpos.le)]
    · rw [ihr hr, hnone hpos, find?_cons_of_neg (by simpa using hneg), Option.none_or]
    · rw [hnone hpos, find?_cons_of_pos (by simpa using hneg), Option.none_or]

theorem leastGe_of_find? (hcompare : TotalCompare compare) {l : List α} (h : Sorted compare l) {d : α}
    (hd : l.find? (fun d => 0 ≤ compare d target) = some d) : LeastGe compare target l d := by
  obtain ⟨hge, smaller, larger, rfl, hsmaller⟩ := find?_eq_some_iff_append.1 hd
  refine ⟨mem_append_right _ mem_cons_self, by simpa using hge, fun e he hge' => ?_⟩
  rcases mem_append.1 he with he | he
  · have := hsmaller e he
    simp [hge'] at this
  · rcases mem_cons.1 he with rfl | he
    · exact (hcompare.refl e).le
    · exact ((sorted_append.1 h).2.2.2.1 e he).le

def walkList {σ : Type*} (op : α → σ → σ × ℤ) : List α → σ → σ × ℤ
  | [], args => (args, 0)
  | d :: l, args => if (op d args).2 ≠ 0 then op d args else walkList op l (op d args).1

theorem walkList_append {σ : Type*} (op : α → σ → σ × ℤ) (l r : List α) (args : σ) :
    walkList op (l ++ r) args =
      if (walkList op l args).2 ≠ 0 then walkList op l args
      else walkList op r (walkList op l args).1 := by
  induction l generalizing args with
  | nil => rfl
  | cons d l ih =>
    rw [cons_append, walkList, walkList, ih]
    by_cases hd : (op d args).2 ≠ 0
    · rw [if_pos hd, if_pos hd, if_pos hd]
    · rw [if_neg hd, if_neg hd]

theorem walkLoop_eq {σ : Type*} (op : α → σ → σ × ℤ) (t : AvlTree α) (args : σ) :
    t.walkLoop op args = walkList op t.toList args := by
  induction t generalizing args with
  | nil => rfl
  | node d l r b ihl ihr =>
    rw [toList_node, walkList_append, walkList, ← ihl, ← ihr]
    rfl

theorem countLoop_eq (t : AvlTree α) (count : ℤ) :
    (t.countLoop (count.bmod (2 ^ 32))) = (count + t.toList.length).bmod (2 ^ 32) := by
  induction t generalizing count with
  | nil => rw [toList, length_nil, Nat.cast_zero, add_zero, countLoop]
  | node d l r b ihl ihr =>
    have hsucc : ((count + (l.toList.length : ℤ)).bmod (2 ^ 32) + 1).bmod (2 ^ 32) =
        (count + l.toList.length + 1).bmod (2 ^ 32) := Int.bmod_add_bmod
    rw [countLoop, ihl, hsucc, ihr, toList_node]
    congr 1
    simp only [length_append, length_cons, Nat.cast_add, Nat.cast_one]
    ring

theorem depthLoop_eq (h : t.Wf) : t.depthLoop = t.height := by
  induction t with
  | nil => rfl
  | node d l r b ihl ihr =>
    obtain ⟨hb, hlo, hhi, hl, hr⟩ := h
    unfold depthLoop
    rw [height_node, ihl hl, ihr hr]
    split_ifs <;> omega

end AvlTree

/-! ## Runs -/

namespace AvlTreeInfo

open OrderedList

variable {α : Type*}

inductive Op (α : Type*) where
  | insert (data : α)
  | replace (data : α)
  | delete (data : α)

/-- The tree and the calls of `free_data_func` after one more operation, without memory failure. -/
def apply (st : AvlTreeInfo α × List α) : Op α → AvlTreeInfo α × List α
  | .insert data => ((st.1.insert true data).1, st.2)
  | .replace data => ((st.1.replace true data).1.1, st.2 ++ (st.1.replace true data).2)
  | .delete data => ((st.1.delete data).1.1, st.2 ++ (st.1.delete data).2)

/-- The data after one more operation, with those that were removed or replaced. -/
def applyAbs (compare : α → α → ℤ) (st : List α × List α) : Op α → List α × List α
  | .insert data => (insertAbs compare st.1 data, st.2)
  | .replace data => (replaceAbs compare st.1 data, st.2 ++ equalAbs compare st.1 data)
  | .delete data => (deleteAbs compare st.1 data, st.2 ++ equalAbs compare st.1 data)

structure Represents (freesData : Bool) (compare : α → α → ℤ) (st : AvlTreeInfo α × List α)
    (abs : List α × List α) : Prop where
  compare_eq : st.1.compare = compare
  frees_eq : st.1.freesData = freesData
  wf : st.1.root.Wf
  sorted : Sorted compare st.1.root.toList
  perm : st.1.root.toList.Perm abs.1
  freed : st.2 = if freesData then abs.2 else []

section

variable {freesData : Bool} {compare : α → α → ℤ} {st : AvlTreeInfo α × List α}
  {abs : List α × List α}

/-- At most one datum compares equal, so that it is the same in every order. -/
theorem equalAbs_perm (hcompare : TotalCompare compare) {l l' : List α} (hl : Sorted compare l)
    (hperm : l.Perm l') (target : α) : equalAbs compare l target = equalAbs compare l' target := by
  have hfilter : (equalAbs compare l target).Perm (equalAbs compare l' target) := hperm.filter _
  have hsorted : Sorted compare (equalAbs compare l target) := hl.filter _
  have hzero : ∀ a ∈ equalAbs compare l target, compare a target = 0 := fun a ha =>
    of_decide_eq_true (mem_filter.1 ha).2
  match h : equalAbs compare l target with
  | [] =>
    rw [h] at hfilter
    exact hfilter.nil_eq
  | [a] =>
    rw [h] at hfilter
    exact (singleton_perm.1 hfilter)
  | a :: b :: rest =>
    rw [h] at hsorted hzero
    have hlt := (pairwise_cons.1 hsorted).1 b mem_cons_self
    have hb := hcompare.eq_zero_comm.1 (hzero b (mem_cons_of_mem _ mem_cons_self))
    have heq := (hcompare.congr_left (hzero a mem_cons_self)).2.2 hb
    omega

theorem represents_init (freesData : Bool) (compare : α → α → ℤ) :
    Represents freesData compare (init freesData compare, []) ([], []) where
  compare_eq := rfl
  frees_eq := rfl
  wf := trivial
  sorted := List.Pairwise.nil
  perm := List.Perm.nil
  freed := by split_ifs <;> rfl

variable (hcompare : TotalCompare compare)

include hcompare

section

variable (h : Represents freesData compare st abs)

include h

theorem Represents.insert (data : α) :
    Represents freesData compare (apply st (.insert data)) (applyAbs compare abs (.insert data)) := by
  obtain ⟨⟨root, frees, cmp⟩, freed⟩ := st
  obtain ⟨rfl, rfl, hwf, hsorted, hperm, hfreed⟩ := h
  have hlist : (insertLoop cmp true data root).tree.toList = _ :=
    toList_putLoop hcompare id hsorted
  refine ⟨rfl, rfl, (grown_putLoop id hwf).wf, ?_, ?_, hfreed⟩
  · exact hlist ▸ hsorted.put hcompare fun _ => id
  · refine (List.Perm.of_eq hlist).trans ((put_perm_insertAbs hcompare hsorted).trans ?_)
    exact insertAbs_perm hperm

theorem Represents.replace (data : α) : Represents freesData compare (apply st (.replace data))
      (applyAbs compare abs (.replace data)) := by
  obtain ⟨⟨root, frees, cmp⟩, freed⟩ := st
  obtain ⟨rfl, rfl, hwf, hsorted, hperm, hfreed⟩ := h
  have hlist : (replaceLoop cmp true data root).tree.toList = _ :=
    toList_putLoop hcompare (fun _ => data) hsorted
  have hfound : (replaceLoop cmp true data root).found = _ :=
    found_putLoop (fun _ => data) root
  refine ⟨rfl, rfl, (grown_putLoop _ hwf).wf, ?_, ?_, ?_⟩
  · exact hlist ▸ hsorted.put hcompare fun _ _ => hcompare.refl data
  · refine (List.Perm.of_eq hlist).trans ((put_perm_replaceAbs hcompare hsorted).trans ?_)
    exact (hperm.filter _).cons data
  · dsimp only [apply, applyAbs, AvlTreeInfo.replace, AvlTreeInfo.freed] at hfreed ⊢
    rw [hfreed, hfound, findLoop_eq hcompare hsorted, equalAbs_perm hcompare hsorted hperm]
    split_ifs <;> rfl

theorem Represents.delete (data : α) :
    Represents freesData compare (apply st (.delete data)) (applyAbs compare abs (.delete data)) := by
  obtain ⟨⟨root, frees, cmp⟩, freed⟩ := st
  obtain ⟨rfl, rfl, hwf, hsorted, hperm, hfreed⟩ := h
  have hlist : (deleteLoop cmp data root).tree.toList = deleteAbs cmp root.toList data :=
    (toList_deleteLoop hcompare hsorted).trans (remove_eq_deleteAbs hcompare hsorted)
  have hfound : (deleteLoop cmp data root).found = _ := found_deleteLoop root
  refine ⟨rfl, rfl, (shrunk_deleteLoop hwf).wf, ?_, ?_, ?_⟩
  · exact hlist ▸ hsorted.filter _
  · exact (List.Perm.of_eq hlist).trans (hperm.filter _)
  · dsimp only [apply, applyAbs, AvlTreeInfo.delete, AvlTreeInfo.freed] at hfreed ⊢
    rw [hfreed, hfound, findLoop_eq hcompare hsorted, equalAbs_perm hcompare hsorted hperm]
    split_ifs <;> rfl

end

theorem represents_run (ops : List (Op α)) (h : Represents freesData compare st abs) :
    Represents freesData compare (ops.foldl apply st) (ops.foldl (applyAbs compare) abs) := by
  induction ops generalizing st abs with
  | nil => exact h
  | cons op ops ih =>
    apply ih
    cases op with
    | insert data => exact h.insert hcompare data
    | replace data => exact h.replace hcompare data
    | delete data => exact h.delete hcompare data

theorem Represents.find_iff (h : Represents freesData compare st abs)
    (target d : α) : st.1.find target = some d ↔ d ∈ abs.1 ∧ compare d target = 0 := by
  have hfind : (st.1.find target).toList = equalAbs compare abs.1 target := by
    unfold AvlTreeInfo.find
    rw [h.compare_eq, findLoop_eq hcompare h.sorted]
    exact equalAbs_perm hcompare h.sorted h.perm target
  have hmem : d ∈ (st.1.find target).toList ↔ d ∈ abs.1 ∧ compare d target = 0 := by
    rw [hfind]
    unfold equalAbs
    rw [mem_filter, decide_eq_true_eq]
  rwa [Option.mem_toList] at hmem

theorem Represents.findGe (h : Represents freesData compare st abs) (target : α) :
    (∀ d, st.1.findGe target = some d → AvlTree.LeastGe compare target abs.1 d) ∧
      (st.1.findGe target = none → ∀ e ∈ abs.1, compare e target < 0) := by
  unfold AvlTreeInfo.findGe
  rw [h.compare_eq, findGeLoop_eq hcompare h.sorted]
  constructor
  · intro d hd
    obtain ⟨hmem, hge, hleast⟩ := leastGe_of_find? hcompare h.sorted hd
    exact ⟨h.perm.mem_iff.1 hmem, hge, fun e he => hleast e (h.perm.mem_iff.2 he)⟩
  · intro hnone e he
    simpa using find?_eq_none.1 hnone e (h.perm.mem_iff.2 he)

omit hcompare in
theorem Represents.count_eq (h : Represents freesData compare st abs) :
    st.1.count = (abs.1.length : ℤ).bmod (2 ^ 32) := by
  have hcount := countLoop_eq st.1.root 0
  rwa [zero_add, h.perm.length_eq] at hcount

end

/-- The tree is a correct ordered map of the data, and each datum that was removed or replaced was
given to `free_data_func` once. -/
structure OrderedMap (freesData : Bool) (compare : α → α → ℤ) (st : AvlTreeInfo α × List α)
    (abs : List α × List α) : Prop where
  searchTree : Sorted compare st.1.root.toList
  balance : st.1.root.Wf
  data : st.1.root.toList.Perm abs.1
  find : ∀ target d, st.1.find target = some d ↔ d ∈ abs.1 ∧ compare d target = 0
  findGe : ∀ target d, st.1.findGe target = some d → AvlTree.LeastGe compare target abs.1 d
  findGe_none : ∀ target, st.1.findGe target = none → ∀ e ∈ abs.1, compare e target < 0
  walk : ∀ {σ : Type} (op : α → σ → σ × ℤ) (args : σ),
    st.1.walk op args = walkList op st.1.root.toList args
  count : abs.1.length < 2 ^ 31 → st.1.count = abs.1.length
  depth : st.1.depth = st.1.root.height
  freed : st.2 = if freesData then abs.2 else []

/-- Every sequence of `avl_tree_insert`, `avl_tree_replace` and `avl_tree_delete` from the empty tree
leaves an ordered map. -/
theorem avlTree_orderedMap (compare : α → α → ℤ) (hcompare : TotalCompare compare)
    (freesData : Bool) (ops : List (Op α)) :
    OrderedMap freesData compare (ops.foldl apply (init freesData compare, []))
      (ops.foldl (applyAbs compare) ([], [])) := by
  have h := represents_run hcompare ops (represents_init freesData compare)
  constructor
  · exact h.sorted
  · exact h.wf
  · exact h.perm
  · exact h.find_iff hcompare
  · exact fun target => (h.findGe hcompare target).1
  · exact fun target => (h.findGe hcompare target).2
  · exact fun op args => walkLoop_eq op _ args
  · intro hlen
    rw [h.count_eq]
    apply Int.bmod_eq_of_le <;> omega
  · exact depthLoop_eq h.wf
  · exact h.freed

theorem totalCompare_sub : TotalCompare fun a b : ℤ => a - b where
  swap a b := by omega
  trans := by
    intro a b c
    omega

/-- A double rotation on the way in, and a node with two subtrees on the way out. -/
theorem avlTree_orderedMap_six : OrderedMap true (fun a b : ℤ => a - b)
    ([.insert 5, .insert 1, .insert 3, .insert 9, .replace 3, .delete 3].foldl apply
      (init true fun a b => a - b, []))
    ([Op.insert (5 : ℤ), .insert 1, .insert 3, .insert 9, .replace 3, .delete 3].foldl
      (applyAbs fun a b => a - b) ([], [])) :=
  avlTree_orderedMap _ totalCompare_sub true _

def inserts (n : ℕ) : List (Op ℤ) := (range n).map fun i : ℕ => .insert i

theorem applyAbs_inserts (n : ℕ) :
    (inserts n).foldl (applyAbs fun a b => a - b) ([], []) =
      (((range n).map Nat.cast).reverse, []) := by
  induction n with
  | zero => rfl
  | succ n ih =>
    have hnew : ¬ ∃ x < n, (x : ℤ) - n = 0 := by
      rintro ⟨x, hx, hzero⟩
      omega
    rw [inserts, range_succ, map_append, foldl_append, ← inserts, ih, map_append]
    simp [applyAbs, insertAbs, hnew]

/-- The counter is an `int`: with `2 ^ 31` data it is negative. -/
theorem count_inserts :
    ((inserts (2 ^ 31)).foldl apply (init true fun a b => a - b, [])).1.count = -2 ^ 31 ∧
    ((inserts (2 ^ 31)).foldl (applyAbs fun a b => a - b) ([], [])).1.length = 2 ^ 31 := by
  have h := represents_run totalCompare_sub (inserts (2 ^ 31)) (represents_init true _)
  rw [h.count_eq, applyAbs_inserts, length_reverse, length_map, length_range]
  exact ⟨rfl, rfl⟩

end AvlTreeInfo

end ServerStack.Fastdfs
