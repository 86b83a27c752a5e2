import Mathlib

/-!
# Reading from sources of decreasing age

Items have a key and a stamp, and a reader of a key sees the items of that key up to a stamp.  The
items are spread over sources that are asked one after another.  When every source holds newer items
of a key than the sources after it, the first answer is the newest item of all.
-/

namespace ServerStack.ReadOrder

variable {ι κ : Type} {key : ι → κ} {stamp : ι → ℕ}

variable (key stamp) in
def Visible (k : κ) (s : ℕ) (e : ι) : Prop := key e = k ∧ stamp e ≤ s

variable (key stamp) in
/-- What a source may answer: a visible item with the largest stamp, or that it has none. -/
def Answers (k : κ) (s : ℕ) (src : Set ι) : Option ι → Prop
  | some e => e ∈ src ∧ Visible key stamp k s e ∧
      ∀ e' ∈ src, Visible key stamp k s e' → stamp e' ≤ stamp e
  | none => ∀ e ∈ src, ¬ Visible key stamp k s e

variable (key stamp) in
/-- The items of the first source are newer than those of the second with the same key. -/
def Newer (a b : Set ι) : Prop := ∀ e ∈ a, ∀ e' ∈ b, key e = key e' → stamp e' < stamp e

variable {k : κ} {s : ℕ}

theorem Answers.union_some {a b : Set ι} {e : ι} (hnewer : Newer key stamp a b)
    (h : Answers key stamp k s a (some e)) : Answers key stamp k s (a ∪ b) (some e) := by
  obtain ⟨hmem, hvisible, hmax⟩ := h
  refine ⟨.inl hmem, hvisible, ?_⟩
  rintro e' (he' | he') hvisible'
  · exact hmax e' he' hvisible'
  · exact (hnewer e hmem e' he' (hvisible.1.trans hvisible'.1.symm)).le

theorem Answers.union_none {a b : Set ι} {r : Option ι} (ha : Answers key stamp k s a none)
    (hb : Answers key stamp k s b r) : Answers key stamp k s (a ∪ b) r := by
  cases r with
  | none =>
    rintro e (he | he)
    · exact ha e he
    · exact hb e he
  | some e =>
    obtain ⟨hmem, hvisible, hmax⟩ := hb
    refine ⟨.inr hmem, hvisible, ?_⟩
    rintro e' (he' | he') hvisible'
    · exact absurd hvisible' (ha e' he')
    · exact hmax e' he' hvisible'

theorem answers_findSome {α : Type} {items : α → Set ι} {answer : α → Option ι} {srcs : List α}
    (hordered : srcs.Pairwise fun a b => Newer key stamp (items a) (items b))
    (hanswer : ∀ a ∈ srcs, Answers key stamp k s (items a) (answer a)) :
    Answers key stamp k s {e | ∃ a ∈ srcs, e ∈ items a} (srcs.findSome? answer) := by
  induction srcs with
  | nil =>
    rintro e ⟨a, ha, -⟩
    cases ha
  | cons a srcs ih =>
    obtain ⟨hfirst, hrest⟩ := List.pairwise_cons.1 hordered
    have hsplit : {e | ∃ b ∈ a :: srcs, e ∈ items b} = items a ∪ {e | ∃ b ∈ srcs, e ∈ items b} := by
      ext e
      simp
    have hhead := hanswer a List.mem_cons_self
    have htail := ih hrest fun b hb => hanswer b (List.mem_cons_of_mem _ hb)
    rw [hsplit, List.findSome?_cons]
    cases hr : answer a with
    | none =>
      rw [hr] at hhead
      exact hhead.union_none htail
    | some e =>
      rw [hr] at hhead
      refine hhead.union_some ?_
      rintro e he e' ⟨b, hb, he'⟩ hkey
      exact hfirst b hb e he e' he' hkey

end ServerStack.ReadOrder
