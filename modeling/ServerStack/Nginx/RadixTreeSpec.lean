import ServerStack.Nginx.RadixTree
import ServerStack.Lib.Outcome

/-!
# Radix trees are longest-prefix maps

A tree is described by the place of each prefix: the address of its node.  Three changes happen to
the places: a value is written, a node is attached below another, a leaf is detached.  Each keeps the
description, and the loops are made of them.
-/

namespace ServerStack.Nginx.RadixTree

open Outcome List Function Option

variable (n : Node)

/-! ## Maps from prefixes -/

abbrev Map := List Bool → Option UInt64

def longest (m : Map) (key : List Bool) : Option UInt64 := key.inits.reverse.findSome? m

theorem longest_nil (m : Map) : longest m [] = m [] := by
  simp [longest]

theorem longest_cons (m : Map) (b : Bool) (key : List Bool) :
    longest m (b :: key) = (longest (fun p => m (b :: p)) key).or (m []) := by
  simp [longest, findSome?_append, findSome?_map, ← map_reverse, Function.comp_def]

theorem longest_eq_none {m : Map} {key : List Bool} (h : ∀ p, m p = none) :
    longest m key = none := by
  simp [longest, h]

/-! ## The description -/

def Node.stored : Option UInt64 := if n.value = noValue then none else some n.value

def Linked (mem : ℕ → Node) : Option ℕ → List ℕ → Prop
  | a, [] => a = none
  | a, b :: idle => a = some b ∧ Linked mem (mem b).right idle

theorem Linked.congr {mem mem' : ℕ → Node} {a : Option ℕ} {idle : List ℕ} (h : Linked mem a idle)
    (hmem : ∀ b ∈ idle, mem' b = mem b) : Linked mem' a idle := by
  induction idle generalizing a with
  | nil => exact h
  | cons b idle ih =>
    refine ⟨h.1, ?_⟩
    rw [hmem b mem_cons_self]
    exact ih h.2 fun x hx => hmem x (mem_cons_of_mem b hx)

/-- The nodes of a tree of a given width, and the free nodes. -/
structure Layout (width : ℕ) (t : Tree) (place : List Bool → Option ℕ) (idle : List ℕ) : Prop where
  root : place [] = some t.root
  above : ∀ p b, place p = none → place (p ++ [b]) = none
  inj : ∀ p q a, place p = some a → place q = some a → p = q
  child : ∀ p a b, place p = some a → (t.mem a).child b = place (p ++ [b])
  parent_root : (t.mem t.root).parent = none
  parent : ∀ p b a, place (p ++ [b]) = some a → (t.mem a).parent = place p
  short : ∀ p a, place p = some a → p.length ≤ width
  linked : Linked t.mem t.free idle
  nodup : idle.Nodup
  unused : ∀ p a, place p = some a → a ∉ idle
  idle_lt : ∀ a ∈ idle, a < t.start
  place_lt : ∀ p a, place p = some a → a < t.start
  page : t.start + t.size ≤ (t.pages + 1) * pageSize

def contents (t : Tree) (place : List Bool → Option ℕ) : Map :=
  fun p => (place p).bind fun a => (t.mem a).stored

def Stores (width : ℕ) (t : Tree) (m : Map) : Prop :=
  ∃ place idle, Layout width t place idle ∧ contents t place = m

theorem Node.child_setChild (b : Bool) (a : Option ℕ) : (n.setChild b a).child b = a := by
  cases b <;> rfl

theorem Node.child_setChild_of_ne {b c : Bool} (h : c ≠ b) (a : Option ℕ) :
    (n.setChild b a).child c = n.child c := by
  cases b <;> cases c <;> first | rfl | exact absurd rfl h

@[simp] theorem Node.parent_setChild (b : Bool) (a : Option ℕ) :
    (n.setChild b a).parent = n.parent := by
  cases b <;> rfl

@[simp] theorem Node.stored_setChild (b : Bool) (a : Option ℕ) :
    (n.setChild b a).stored = n.stored := by
  cases b <;> rfl

namespace Layout

variable {width : ℕ} {t : Tree} {place : List Bool → Option ℕ} {idle : List ℕ}
variable {p : List Bool} {b : Bool}

section

variable (h : Layout width t place idle)

include h

theorem none_append (hp : place p = none) (q : List Bool) : place (p ++ q) = none := by
  induction q using List.reverseRecOn with
  | nil => rwa [append_nil]
  | append_singleton q b ih =>
    rw [← append_assoc]
    exact h.above _ b ih

theorem setValue {a : ℕ} (ha : place p = some a) (v : UInt64) :
    Layout width (t.modify a ({ · with value := v })) place idle := by
  have hmem : ∀ x, ∃ w,
      (t.modify a ({ · with value := v })).mem x = { t.mem x with value := w } := by
    intro x
    by_cases hx : x = a
    · subst hx
      exact ⟨v, by simp [Tree.modify]⟩
    · exact ⟨(t.mem x).value, by simp [Tree.modify, hx]⟩
  exact { h with
      child := by
        intro q x b hx
        obtain ⟨w, hw⟩ := hmem x
        rw [hw, ← h.child q x b hx]
        rfl
      parent_root := by
        obtain ⟨w, hw⟩ := hmem t.root
        exact (congrArg Node.parent hw).trans h.parent_root
      parent := by
        intro q b x hx
        obtain ⟨w, hw⟩ := hmem x
        rw [hw, ← h.parent q b x hx]
      linked := by
        apply h.linked.congr
        intro b hb
        have hne : b ≠ a := fun hba => h.unused p a ha (hba ▸ hb)
        simp [Tree.modify, hne] }

theorem alloc : ∃ next t' idle', radixAlloc t = (next, t') ∧
    Layout width t' place idle' ∧ t'.mem = t.mem ∧ (∀ p, place p ≠ some next) ∧ next ∉ idle' ∧
    next < t'.start := by
  cases hfree : t.free with
  | some a =>
    have hlinked := h.linked
    rw [hfree] at hlinked
    cases idle with
    | nil => cases hlinked
    | cons b idle =>
      obtain ⟨hab, hlinked⟩ := hlinked
      cases hab
      refine ⟨a, { t with free := (t.mem a).right }, idle, by simp [radixAlloc, hfree], { h with
          linked := hlinked
          nodup := h.nodup.of_cons
          unused := fun p x hx hmem => h.unused p x hx (mem_cons_of_mem a hmem)
          idle_lt := fun x hx => h.idle_lt x (mem_cons_of_mem a hx) }, rfl, ?_,
        (nodup_cons.1 h.nodup).1, h.idle_lt a mem_cons_self⟩
      intro p hp
      exact h.unused p a hp mem_cons_self
  | none =>
    have hidle : idle = [] := by
      have hlinked := h.linked
      cases idle with
      | nil => rfl
      | cons b idle => simp [hfree, Linked] at hlinked
    subst hidle
    -- the first free byte, of a new page if need be
    obtain ⟨start, size, pages, halloc, hle, hpage, hsize⟩ : ∃ start size pages,
        radixAlloc t = (start, { t with
          start := start + nodeSize, size := size - nodeSize, pages := pages }) ∧
        t.start ≤ start ∧ start + size ≤ (pages + 1) * pageSize ∧ nodeSize ≤ size := by
      have hpage := h.page
      by_cases hsmall : t.size < nodeSize
      · refine ⟨(t.pages + 1) * pageSize, pageSize, t.pages + 1,
          by simp [radixAlloc, hfree, hsmall], by omega, ?_, by decide⟩
        rw [Nat.add_mul (t.pages + 1) 1, Nat.one_mul]
      · exact ⟨t.start, t.size, t.pages, by simp [radixAlloc, hfree, hsmall], le_rfl,
          hpage, by omega⟩
    have hnode : 0 < nodeSize := by decide
    refine ⟨start, _, [], halloc, { h with
        idle_lt := by simp
        place_lt := ?_
        page := by dsimp only; omega }, rfl, ?_, by simp, by dsimp only; omega⟩
    · intro p a ha
      have := h.place_lt p a ha
      dsimp only
      omega
    · intro p hp
      have := h.place_lt p start hp
      omega

end

theorem append_singleton_ne (p : List Bool) (b : Bool) : p ++ [b] ≠ p := by
  simp

theorem append_singleton_inj {q : List Bool} {c : Bool} : q ++ [c] = p ++ [b] ↔ q = p ∧ c = b := by
  constructor
  · intro h
    obtain ⟨hp, hb⟩ := append_inj' h rfl
    exact ⟨hp, singleton_inj.1 hb⟩
  · rintro ⟨rfl, rfl⟩
    rfl

variable (h : Layout width t place idle)

include h

theorem relink {t' : Tree} {idle' : List ℕ} {parent : ℕ}
    {o : Option ℕ} (hparent : place p = some parent) (hleaf : ∀ c, place (p ++ [b] ++ [c]) = none)
    (hroot : t'.root = t.root) (hmem_parent : t'.mem parent = (t.mem parent).setChild b o)
    (hold : ∀ q x, q ≠ p ++ [b] → place q = some x → x ≠ parent → t'.mem x = t.mem x)
    (hnew : ∀ a, o = some a → (∀ q, place q ≠ some a) ∧
      t'.mem a = ⟨none, none, some parent, noValue⟩ ∧ p.length < width)
    (hlinked : Linked t'.mem t'.free idle') (hnodup : idle'.Nodup)
    (hidle : ∀ a ∈ idle', a < t'.start) (hnew_idle : ∀ a, o = some a → a ∉ idle' ∧ a < t'.start)
    (hold_idle : ∀ q a, q ≠ p ++ [b] → place q = some a → a ∉ idle' ∧ a < t'.start)
    (hpage : t'.start + t'.size ≤ (t'.pages + 1) * pageSize) :
    Layout width t' (update place (p ++ [b]) o) idle' := by
  -- a place is the new one or an old one
  have hcases : ∀ q a, update place (p ++ [b]) o q = some a →
      q = p ++ [b] ∧ o = some a ∨ q ≠ p ++ [b] ∧ place q = some a := by
    intro q a ha
    by_cases hq : q = p ++ [b]
    · rw [hq, update_self] at ha
      exact .inl ⟨hq, ha⟩
    · rw [update_of_ne hq] at ha
      exact .inr ⟨hq, ha⟩
  have hmem : ∀ q a, q ≠ p ++ [b] → place q = some a → (t'.mem a).parent = (t.mem a).parent := by
    intro q a hq ha
    by_cases hap : a = parent
    · rw [hap, hmem_parent, Node.parent_setChild]
    · rw [hold q a hq ha hap]
  have hp : update place (p ++ [b]) o p = some parent := by
    rw [update_of_ne (append_singleton_ne p b).symm, hparent]
  refine {
      root := by rw [update_of_ne (by simp), hroot]; exact h.root
      above := ?_
      inj := ?_
      child := ?_
      parent_root := by rw [hroot, hmem [] _ (by simp) h.root]; exact h.parent_root
      parent := ?_
      short := ?_
      linked := hlinked
      nodup := hnodup
      unused := ?_
      idle_lt := hidle
      place_lt := ?_
      page := hpage }
  · intro q c hq
    by_cases hqp : q ++ [c] = p ++ [b]
    · obtain ⟨rfl, rfl⟩ := append_singleton_inj.1 hqp
      rw [hp] at hq
      cases hq
    · rw [update_of_ne hqp]
      by_cases hq' : q = p ++ [b]
      · rw [hq', hleaf c]
      · rw [update_of_ne hq'] at hq
        exact h.above q c hq
  · intro q q' a hq hq'
    rcases hcases q a hq with ⟨rfl, ho⟩ | ⟨-, hqa⟩
    · rcases hcases q' a hq' with ⟨rfl, -⟩ | ⟨-, hqa'⟩
      · rfl
      · exact absurd hqa' ((hnew a ho).1 q')
    · rcases hcases q' a hq' with ⟨-, ho⟩ | ⟨-, hqa'⟩
      · exact absurd hqa ((hnew a ho).1 q)
      · exact h.inj q q' a hqa hqa'
  · intro q a c hq
    rcases hcases q a hq with ⟨rfl, ho⟩ | ⟨hqp, hqa⟩
    · rw [(hnew a ho).2.1, update_of_ne (append_singleton_ne _ c), hleaf c]
      cases c <;> rfl
    · by_cases ha : a = parent
      · subst ha
        obtain rfl := h.inj q p a hqa hparent
        rw [hmem_parent]
        by_cases hc : c = b
        · rw [hc, Node.child_setChild, update_self]
        · rw [Node.child_setChild_of_ne _ hc, update_of_ne fun he =>
            hc (append_singleton_inj.1 he).2]
          exact h.child q a c hqa
      · rw [hold q a hqp hqa ha, update_of_ne, h.child q a c hqa]
        intro he
        obtain ⟨rfl, -⟩ := append_singleton_inj.1 he
        exact ha (some.inj (hqa.symm.trans hparent))
  · intro q c a hq
    rcases hcases (q ++ [c]) a hq with ⟨hqp, ho⟩ | ⟨hqp, hqa⟩
    · obtain ⟨rfl, rfl⟩ := append_singleton_inj.1 hqp
      rw [(hnew a ho).2.1, hp]
    · rw [hmem _ a hqp hqa, h.parent q c a hqa, update_of_ne]
      rintro rfl
      rw [hleaf c] at hqa
      cases hqa
  · intro q a hq
    rcases hcases q a hq with ⟨rfl, ho⟩ | ⟨-, hqa⟩
    · simpa using (hnew a ho).2.2
    · exact h.short q a hqa
  · intro q a hq
    rcases hcases q a hq with ⟨-, ho⟩ | ⟨hqp, hqa⟩
    · exact (hnew_idle a ho).1
    · exact (hold_idle q a hqp hqa).1
  · intro q a hq
    rcases hcases q a hq with ⟨-, ho⟩ | ⟨hqp, hqa⟩
    · exact (hnew_idle a ho).2
    · exact (hold_idle q a hqp hqa).2

theorem attach {node next : ℕ} (hnode : place p = some node)
    (hnone : place (p ++ [b]) = none) (hp : p.length < width) (hplace : ∀ q, place q ≠ some next)
    (hidle : next ∉ idle) (hlt : next < t.start) :
    Layout width (attach t node next b) (update place (p ++ [b]) (some next)) idle := by
  have hne : node ≠ next := fun he => hplace p (he ▸ hnode)
  have hold : ∀ x, x ≠ next → x ≠ node → (RadixTree.attach t node next b).mem x = t.mem x := by
    intro x hx hx'
    simp [RadixTree.attach, Tree.modify, hx, hx']
  apply h.relink hnode fun c => h.above _ c hnone
  · rfl
  · simp [RadixTree.attach, Tree.modify, hne]
  · intro q x _ hx hxn
    exact hold x (fun he => hplace q (he ▸ hx)) hxn
  · rintro a ⟨⟩
    exact ⟨hplace, by simp [RadixTree.attach, Tree.modify, hne.symm], hp⟩
  · apply h.linked.congr
    intro x hx
    exact hold x (fun he => hidle (he ▸ hx)) fun he => h.unused p node hnode (he ▸ hx)
  · exact h.nodup
  · exact h.idle_lt
  · rintro a ⟨⟩
    exact ⟨hidle, hlt⟩
  · exact fun q a _ ha => ⟨h.unused q a ha, h.place_lt q a ha⟩
  · exact h.page

theorem detach {node parent : ℕ}
    (hnode : place (p ++ [b]) = some node) (hparent : place p = some parent)
    (hleaf : ∀ c, place (p ++ [b] ++ [c]) = none) :
    Layout width (detach t node parent) (update place (p ++ [b]) none) (node :: idle) := by
  have hne : node ≠ parent := fun he =>
    append_singleton_ne p b (h.inj _ _ node hnode (he ▸ hparent))
  have hside : decide ((t.mem parent).right = some node) = b := by
    have hchild : (t.mem parent).right = place (p ++ [true]) := h.child p parent true hparent
    rw [hchild]
    cases b with
    | true => exact decide_eq_true hnode
    | false =>
      apply decide_eq_false
      intro htrue
      exact absurd (append_singleton_inj.1 (h.inj _ _ node htrue hnode)).2 (by decide)
  have hold : ∀ x, x ≠ node → x ≠ parent → (RadixTree.detach t node parent).mem x = t.mem x := by
    intro x hx hx'
    simp [RadixTree.detach, Tree.modify, hx, hx']
  have hother : ∀ q x, q ≠ p ++ [b] → place q = some x → x ≠ node := fun q x hq hx he =>
    hq (h.inj _ _ node (he ▸ hx) hnode)
  apply h.relink hparent hleaf
  · rfl
  · simp [RadixTree.detach, Tree.modify, hne.symm, hside]
  · exact fun q x hq hx hxp => hold x (hother q x hq hx) hxp
  · exact fun a ha => nomatch ha
  · have hmem_node : (RadixTree.detach t node parent).mem node =
        { t.mem node with right := t.free } := by
      simp [RadixTree.detach, Tree.modify, hne]
    refine ⟨rfl, ?_⟩
    rw [hmem_node]
    apply h.linked.congr
    intro x hx
    exact hold x (fun he => h.unused _ node hnode (he ▸ hx)) fun he =>
      h.unused p parent hparent (he ▸ hx)
  · exact nodup_cons.2 ⟨h.unused _ node hnode, h.nodup⟩
  · exact forall_mem_cons.2 ⟨h.place_lt _ node hnode, h.idle_lt⟩
  · exact fun a ha => nomatch ha
  · intro q a hq ha
    rw [mem_cons, not_or]
    exact ⟨⟨hother q a hq ha, h.unused q a ha⟩, h.place_lt q a ha⟩
  · exact h.page

end Layout

/-! ## What is stored after a change -/

section

variable {width : ℕ} {t : Tree} {place : List Bool → Option ℕ} {idle : List ℕ} {p : List Bool}
  {node next parent : ℕ} {b : Bool}

theorem contents_setValue (h : Layout width t place idle) (hnode : place p = some node)
    (v : UInt64) : contents (t.modify node ({ · with value := v })) place =
      update (contents t place) p (if v = noValue then none else some v) := by
  funext q
  unfold contents
  by_cases hq : q = p
  · subst hq
    simp [hnode, Tree.modify, Node.stored]
  · rw [update_of_ne hq]
    cases hqa : place q with
    | none => rfl
    | some a =>
      have hne : a ≠ node := fun he => hq (h.inj q p node (he ▸ hqa) hnode)
      simp [Tree.modify, hne]

theorem contents_attach (hnode : place p = some node) (hnone : place (p ++ [b]) = none)
    (hplace : ∀ q, place q ≠ some next) :
    contents (attach t node next b) (update place (p ++ [b]) (some next)) =
      contents t place := by
  have hne : next ≠ node := fun he => hplace p (he ▸ hnode)
  funext q
  unfold contents
  by_cases hq : q = p ++ [b]
  · subst hq
    simp [hnone, attach, Tree.modify, hne, Node.stored]
  · rw [update_of_ne hq]
    cases hqa : place q with
    | none => rfl
    | some a =>
      have hane : a ≠ next := fun he => hplace q (he ▸ hqa)
      by_cases ha : a = node
      · subst ha
        simp [attach, Tree.modify, hane]
      · simp [attach, Tree.modify, hane, ha]

theorem contents_detach (h : Layout width t place idle) (hnode : place (p ++ [b]) = some node) :
    contents (detach t node parent) (update place (p ++ [b]) none) =
      update (contents t place) (p ++ [b]) none := by
  funext q
  unfold contents
  by_cases hq : q = p ++ [b]
  · subst hq
    simp
  · rw [update_of_ne hq, update_of_ne hq]
    cases hqa : place q with
    | none => rfl
    | some a =>
      have hane : a ≠ node := fun he => hq (h.inj _ _ node (he ▸ hqa) hnode)
      by_cases ha : a = parent
      · subst ha
        simp [detach, Tree.modify, hane]
      · simp [detach, Tree.modify, hane, ha]

end

/-! ## The loops -/

/-- The cursor runs through the bits of a prefix and then stops. -/
inductive Spells {P : Type} (c : Cursor P) : P → List Bool → Prop
  | stop {bit : P} (hmore : c.more bit = false) : Spells c bit []
  | step {bit : P} {b : Bool} {bs : List Bool} (hmore : c.more bit = true)
      (hright : c.right bit = .ok b) (hrest : Spells c (c.next bit) bs) : Spells c bit (b :: bs)

variable {P : Type} {c : Cursor P} {width : ℕ} {t : Tree} {place : List Bool → Option ℕ}
  {idle : List ℕ} {m : Map}

variable {bit : P} {bs p : List Bool} {fuel node : ℕ}

theorem descend_spec (h : Layout width t place idle) (hbits : Spells c bit bs)
    (hnode : place p = some node) (hfuel : bs.length < fuel) : ∃ node' next bit' q bs',
      descend c t.mem fuel node (some node) bit = .ok (node', next, bit') ∧ bs = q ++ bs' ∧
      place (p ++ q) = some node' ∧ Spells c bit' bs' ∧ (next = none ↔ bs' ≠ []) ∧
      ∀ b ∈ bs'.head?, place (p ++ q ++ [b]) = none := by
  induction hbits generalizing p node fuel with
  | @stop bit hmore =>
    obtain ⟨fuel, rfl⟩ := Nat.exists_eq_succ_of_ne_zero (by omega : fuel ≠ 0)
    refine ⟨node, some node, bit, [], [], ?_, rfl, by simpa, .stop hmore, by simp, by simp⟩
    simp [descend, hmore, pure, Except.pure]
  | @step bit b bs hmore hright hrest ih =>
    obtain ⟨fuel, rfl⟩ := Nat.exists_eq_succ_of_ne_zero (by omega : fuel ≠ 0)
    have hchild := h.child p node b hnode
    cases hb : place (p ++ [b]) with
    | none =>
      rw [hb] at hchild
      refine ⟨node, none, bit, [], b :: bs, ?_, rfl, by simpa, .step hmore hright hrest, by simp,
        by simpa using hb⟩
      simp [descend, hmore, hright, hchild, bind, Except.bind, pure, Except.pure]
    | some next =>
      rw [hb] at hchild
      obtain ⟨node', next', bit', q, bs', hrun, rfl, hplace, hspells, hnext, hhead⟩ :=
        ih hb (by simp at hfuel; omega : bs.length < fuel)
      refine ⟨node', next', bit', b :: q, bs', ?_, rfl, ?_, hspells, hnext, ?_⟩
      · rw [← hrun]
        simp [descend, hmore, hright, hchild, bind, Except.bind]
      · simpa using hplace
      · simpa using hhead

theorem extend_spec (hbits : Spells c bit bs) (h : Layout width t place idle)
    (hnode : place p = some node) (hnone : ∀ b ∈ bs.head?, place (p ++ [b]) = none)
    (hwidth : (p ++ bs).length ≤ width) (hfuel : bs.length < fuel) : ∃ t' node' place' idle',
      extend c fuel t node bit = .ok (t', node') ∧ Layout width t' place' idle' ∧
      place' (p ++ bs) = some node' ∧ contents t' place' = contents t place := by
  induction hbits generalizing p node t place idle fuel with
  | @stop bit hmore =>
    obtain ⟨fuel, rfl⟩ := Nat.exists_eq_succ_of_ne_zero (by omega : fuel ≠ 0)
    exact ⟨t, node, place, idle, by simp [extend, hmore, pure, Except.pure], h, by simpa, rfl⟩
  | @step bit b bs hmore hright hrest ih =>
    obtain ⟨fuel, rfl⟩ := Nat.exists_eq_succ_of_ne_zero (by omega : fuel ≠ 0)
    have hb : place (p ++ [b]) = none := hnone b rfl
    obtain ⟨next, t₁, idle₁, halloc, h₁, hmem, hfresh, hidle, hlt⟩ := h.alloc
    simp only [length_append, length_cons] at hwidth hfuel
    have h₂ := h₁.attach hnode hb (by omega) hfresh hidle hlt
    have hchildren : ∀ d ∈ bs.head?,
        update place (p ++ [b]) (some next) (p ++ [b] ++ [d]) = none := by
      intro d _
      rw [update_of_ne (Layout.append_singleton_ne _ d)]
      exact h.above _ d hb
    obtain ⟨t', node', place', idle', hrun, h', hplace, hcontents⟩ :=
      ih h₂ (update_self _ _ _) hchildren (by simp; omega) (by omega : bs.length < fuel)
    refine ⟨t', node', place', idle', ?_, h', by simpa using hplace, ?_⟩
    · rw [← hrun]
      simp [extend, hmore, hright, halloc, bind, Except.bind]
    · rw [hcontents, contents_attach hnode hb hfresh]
      funext q
      simp [contents, hmem]

theorem insert_spec (h : Stores width t m) (hbits : Spells c c.first p) (hwidth : p.length ≤ width)
    (hfuel : p.length < fuel) (v : UInt64) : ∃ t',
      insert c fuel t v = .ok (t', if m p = none then .ok else .busy) ∧
        Stores width t' (if m p = none then update m p (if v = noValue then none else some v)
          else m) := by
  obtain ⟨place, idle, h, rfl⟩ := h
  obtain ⟨node, next, bit, q, bs, hrun, rfl, hnode, hrest, hnext, hhead⟩ :=
    descend_spec h hbits h.root hfuel
  rw [nil_append] at hnode hhead
  cases bs with
  | nil =>
    rw [append_nil]
    obtain ⟨a, rfl⟩ : ∃ a, next = some a := ne_none_iff_exists'.1 (by simp [hnext])
    have hcontents : contents t place q = (t.mem node).stored := by simp [contents, hnode]
    by_cases hv : (t.mem node).value = noValue
    · have hnone : contents t place q = none := by simp [hcontents, Node.stored, hv]
      refine ⟨_, by simp [insert, hrun, hv, hnone, bind, Except.bind, pure, Except.pure],
        place, idle, h.setValue hnode v, ?_⟩
      rw [if_pos hnone, contents_setValue h hnode]
    · have hsome : contents t place q ≠ none := by simp [hcontents, Node.stored, hv]
      refine ⟨t, by simp [insert, hrun, hv, hsome, bind, Except.bind, pure, Except.pure],
        place, idle, h, (if_neg hsome).symm⟩
  | cons b bs =>
    have hnext' : next = none := by simp [hnext]
    have hnone : contents t place (q ++ b :: bs) = none := by
      have := h.none_append (hhead b rfl) bs
      rw [append_assoc, singleton_append] at this
      simp [contents, this]
    obtain ⟨t', node', place', idle', hextend, h', hnode', hcontents⟩ :=
      extend_spec hrest h hnode hhead hwidth (by simp at hfuel ⊢; omega : (b :: bs).length < fuel)
    refine ⟨_, by simp [insert, hrun, hnext', hextend, hnone, bind, Except.bind, pure, Except.pure],
      place', idle', h'.setValue hnode' v, ?_⟩
    rw [if_pos hnone, contents_setValue h' hnode', hcontents]

theorem locate_spec (h : Layout width t place idle) (hbits : Spells c bit bs) (p : List Bool)
    (hfuel : bs.length < fuel) : locate c t.mem fuel (place p) bit = .ok (place (p ++ bs)) := by
  induction hbits generalizing p fuel with
  | @stop bit hmore =>
    obtain ⟨fuel, rfl⟩ := Nat.exists_eq_succ_of_ne_zero (by omega : fuel ≠ 0)
    rw [append_nil]
    cases place p <;> simp [locate, hmore, pure, Except.pure]
  | @step bit b bs hmore hright hrest ih =>
    obtain ⟨fuel, rfl⟩ := Nat.exists_eq_succ_of_ne_zero (by omega : fuel ≠ 0)
    cases hp : place p with
    | none => simp [locate, h.none_append hp, pure, Except.pure]
    | some a =>
      have := ih (p ++ [b]) (by simp at hfuel; omega : bs.length < fuel)
      simp [locate, hmore, hright, h.child p a b hp, this, bind, Except.bind]

theorem prune_spec (hp : p ≠ []) (h : Layout width t place idle) (hnode : place p = some node)
    (hleaf : ∀ b, place (p ++ [b]) = none) (hfuel : p.length ≤ fuel) :
    ∃ t', prune fuel t node = .ok t' ∧
      Stores width t' (update (contents t place) p none) := by
  induction p using List.reverseRecOn generalizing t node place idle fuel with
  | nil => exact absurd rfl hp
  | append_singleton p b ih =>
    rw [length_append, length_singleton] at hfuel
    obtain ⟨fuel, rfl⟩ := Nat.exists_eq_succ_of_ne_zero (by omega : fuel ≠ 0)
    obtain ⟨parent, hparent⟩ : ∃ a, place p = some a := by
      apply ne_none_iff_exists'.1
      intro hnone
      rw [h.above p b hnone] at hnode
      cases hnode
    have h' := h.detach hnode hparent hleaf
    have hcontents : contents (detach t node parent) (update place (p ++ [b]) none) = _ :=
      contents_detach h hnode
    have hup := (h.parent p b node hnode).trans hparent
    have hstores : Stores width (detach t node parent)
        (update (contents t place) (p ++ [b]) none) := ⟨_, _, h', hcontents⟩
    have hplace : update place (p ++ [b]) none p = some parent := by
      rw [update_of_ne (Layout.append_singleton_ne p b).symm, hparent]
    by_cases hstop : ((detach t node parent).mem parent).right = none ∧
        ((detach t node parent).mem parent).left = none ∧
        ((detach t node parent).mem parent).value = noValue ∧
        ((detach t node parent).mem parent).parent ≠ none
    · obtain ⟨hright, hleft, hvalue, htop⟩ := hstop
      have hp' : p ≠ [] := by
        rintro rfl
        rw [h'.root] at hplace
        exact htop ((some.inj hplace) ▸ h'.parent_root)
      have hbare : contents (detach t node parent) (update place (p ++ [b]) none) p =
          none := by
        unfold contents
        rw [hplace]
        simp [Node.stored, hvalue]
      obtain ⟨t', hrun, ht'⟩ := ih hp' h' hplace (by
        intro d
        rw [← h'.child p parent d hplace]
        cases d
        · exact hleft
        · exact hright) (by omega : p.length ≤ fuel)
      refine ⟨t', ?_, ?_⟩
      · rw [← hrun]
        simp [prune, hup, hright, hleft, hvalue, isNone_iff_eq_none, htop]
      · rwa [update_eq_self_iff.2 hbare.symm, hcontents] at ht'
    · refine ⟨_, ?_, hstores⟩
      simp only [prune, hup]
      split_ifs with hchild hvalue htop
      · rfl
      · rfl
      · rfl
      · simp only [Bool.or_eq_true, not_or, Bool.not_eq_true, isSome_eq_false_iff,
          isNone_iff_eq_none] at hchild htop
        exact absurd ⟨hchild.1, hchild.2, not_not.1 hvalue, htop⟩ hstop

def nodeAt (mem : ℕ → Node) : Option ℕ → List Bool → Option ℕ
  | none, _ => none
  | some a, [] => some a
  | some a, b :: p => nodeAt mem ((mem a).child b) p

theorem nodeAt_eq (h : Layout width t place idle) (p q : List Bool) :
    nodeAt t.mem (place p) q = place (p ++ q) := by
  induction q generalizing p with
  | nil =>
    rw [append_nil]
    cases place p <;> rfl
  | cons b q ih =>
    cases hp : place p with
    | none => simp [nodeAt, h.none_append hp]
    | some a => simp [nodeAt, h.child p a b hp, ih]

/-- The prefix can be deleted: its node is no leaf, or a leaf other than the root, with a value. -/
def Deletable (t : Tree) (p : List Bool) : Prop :=
  ∀ a ∈ nodeAt t.mem (some t.root) p, (t.mem a).right = none → (t.mem a).left = none →
    p ≠ [] ∧ (t.mem a).value ≠ noValue

theorem delete_spec (h : Stores width t m) (hbits : Spells c c.first p) (hdeletable : Deletable t p)
    (hfuel : p.length < fuel) : ∃ t',
      delete c fuel t = .ok (t', if m p = none then .error else .ok) ∧
        Stores width t' (update m p none) := by
  obtain ⟨place, idle, h, rfl⟩ := h
  have hlocate := locate_spec h hbits [] hfuel
  rw [h.root] at hlocate
  cases hp : place p with
  | none =>
    have hnone : contents t place p = none := by simp [contents, hp]
    refine ⟨t, by simp [delete, hlocate, hp, hnone, bind, Except.bind, pure, Except.pure],
      place, idle, h, ?_⟩
    exact (update_eq_self_iff.2 hnone.symm).symm
  | some node =>
    have hcontents : contents t place p = (t.mem node).stored := by simp [contents, hp]
    by_cases hleaf : (t.mem node).right = none ∧ (t.mem node).left = none
    · have hnode : nodeAt t.mem (some t.root) p = some node := by
        rw [← h.root, nodeAt_eq h, nil_append, hp]
      obtain ⟨hne, hvalue⟩ := hdeletable node hnode hleaf.1 hleaf.2
      have hsome : contents t place p ≠ none := by simp [hcontents, Node.stored, hvalue]
      obtain ⟨t', hrun, ht'⟩ := prune_spec hne h hp (by
        intro b
        rw [← h.child p node b hp]
        cases b
        · exact hleaf.2
        · exact hleaf.1) hfuel.le
      refine ⟨t', ?_, ht'⟩
      simp [delete, hlocate, hp, hleaf, hrun, hsome, bind, Except.bind, pure, Except.pure]
    · have hchild : (t.mem node).right.isSome = true ∨ (t.mem node).left.isSome = true := by
        rwa [not_and_or, ← ne_eq, ← ne_eq, ← isSome_iff_ne_none, ← isSome_iff_ne_none] at hleaf
      by_cases hv : (t.mem node).value = noValue
      · have hnone : contents t place p = none := by simp [hcontents, Node.stored, hv]
        refine ⟨t, ?_, place, idle, h, (update_eq_self_iff.2 hnone.symm).symm⟩
        simp [delete, hlocate, hp, hchild, hv, hnone, bind, Except.bind, pure, Except.pure]
      · have hsome : contents t place p ≠ none := by simp [hcontents, Node.stored, hv]
        refine ⟨_, ?_, place, idle, h.setValue hp noValue, ?_⟩
        · simp [delete, hlocate, hp, if_pos hchild, hv, hsome, bind, Except.bind, pure, Except.pure]
        · rw [contents_setValue h hp, if_pos rfl]

inductive Leads (c : Cursor P) : P → List Bool → P → Prop
  | nil (bit : P) : Leads c bit [] bit
  | cons {bit last : P} {b : Bool} {bs : List Bool} (hright : c.right bit = .ok b)
      (hrest : Leads c (c.next bit) bs last) : Leads c bit (b :: bs) last

theorem findLoop_spec (h : Layout width t place idle) {last : P} (hbits : Leads c bit bs last)
    (hwidth : (p ++ bs).length = width) (hlast : place (p ++ bs) ≠ none → ∃ b, c.right last = .ok b)
    (hfuel : bs.length + 1 < fuel) (v : UInt64) :
    findLoop c t.mem fuel (place p) bit v =
      .ok ((longest (fun q => contents t place (p ++ q)) bs).getD v) := by
  induction hbits generalizing p fuel v with
  | nil bit =>
    obtain ⟨fuel, rfl⟩ := Nat.exists_eq_add_of_le' (by omega : 2 ≤ fuel)
    rw [append_nil] at hwidth hlast
    cases hp : place p with
    | none => simp [findLoop, longest_nil, contents, hp, pure, Except.pure]
    | some a =>
      obtain ⟨b, hb⟩ := hlast (by simp [hp])
      have hchild : (t.mem a).child b = none := by
        rw [h.child p a b hp]
        by_contra hne
        obtain ⟨x, hx⟩ := ne_none_iff_exists'.1 hne
        have := h.short _ x hx
        simp at this
        omega
      have hstored : contents t place p = (t.mem a).stored := by simp [contents, hp]
      by_cases hv : (t.mem a).value = noValue <;>
        simp [findLoop, hb, hchild, longest_nil, hstored, Node.stored, hv, bind, Except.bind,
          pure, Except.pure]
  | @cons bit last b bs hright hrest ih =>
    obtain ⟨fuel, rfl⟩ := Nat.exists_eq_succ_of_ne_zero (by omega : fuel ≠ 0)
    cases hp : place p with
    | none =>
      rw [longest_eq_none (by simp [contents, h.none_append hp])]
      simp [findLoop, pure, Except.pure]
    | some a =>
      have hstored : contents t place p = (t.mem a).stored := by simp [contents, hp]
      rw [append_cons] at hwidth hlast
      have hloop := ih hwidth hlast (by simp at hfuel; omega : bs.length + 1 < fuel)
      rw [longest_cons, append_nil, hstored]
      by_cases hv : (t.mem a).value = noValue <;>
        cases hq : longest (fun q => contents t place (p ++ b :: q)) bs <;>
          simp [findLoop, hright, h.child p a b hp, hloop, Node.stored, hv, hq, bind, Except.bind]

theorem find_spec (h : Stores width t m) {key : List Bool} (hwidth : key.length = width) {last : P}
    (hbits : Leads c c.first key last)
    (hlast : nodeAt t.mem (some t.root) key ≠ none → ∃ b, c.right last = .ok b) :
    find c (width + 2) t = .ok ((longest m key).getD noValue) := by
  obtain ⟨place, idle, h, rfl⟩ := h
  rw [← h.root, nodeAt_eq h] at hlast
  have := findLoop_spec h hbits (by simpa using hwidth) hlast (by omega : _ < width + 2) noValue
  rw [h.root] at this
  exact this

end ServerStack.Nginx.RadixTree
