import Mathlib

/-!
# Hash tables with chains

A table is a function from bucket numbers to chains, of which the first `n` are in use.  An entry is
in the bucket to which its key leads, and no key occurs twice, so that a lookup depends on the
entries alone and not on where they are.
-/

namespace ServerStack.ChainTable

open List Function

variable {ε κ : Type*}

/-- The entries of the first `n` buckets. -/
def entries (n : ℕ) (buckets : ℕ → List ε) : Multiset ε :=
  ∑ i ∈ Finset.range n, (buckets i : Multiset ε)

/-- The entries are where their keys lead, and their keys are different. -/
structure Valid (keyOf : ε → κ) (place : κ → ℕ) (n : ℕ) (buckets : ℕ → List ε) : Prop where
  placed : ∀ i, ∀ e ∈ buckets i, place (keyOf e) = i
  nodup : ((entries n buckets).map keyOf).Nodup

section

variable {n i : ℕ} {buckets : ℕ → List ε} {e : ε}

theorem mem_entries : e ∈ entries n buckets ↔ ∃ i < n, e ∈ buckets i := by
  unfold entries
  rw [Multiset.mem_sum]
  simp only [Finset.mem_range, Multiset.mem_coe]

theorem entries_update (hi : i < n) (chain : List ε) :
    entries n (update buckets i chain) + buckets i = entries n buckets + chain := by
  have hmem : i ∈ Finset.range n := Finset.mem_range.2 hi
  have hrest : ∑ j ∈ (Finset.range n).erase i, (update buckets i chain j : Multiset ε) =
      ∑ j ∈ (Finset.range n).erase i, (buckets j : Multiset ε) :=
    Finset.sum_congr rfl fun j hj => by rw [update_of_ne (Finset.ne_of_mem_erase hj)]
  unfold entries
  rw [← Finset.add_sum_erase _ _ hmem, ← Finset.add_sum_erase _
    (fun j => (buckets j : Multiset ε)) hmem,
    hrest, update_self]
  abel

theorem entries_cons (hi : i < n) (e : ε) :
    entries n (update buckets i (e :: buckets i)) = e ::ₘ entries n buckets := by
  have h := @entries_update ε n i buckets hi (e :: buckets i)
  rw [← Multiset.cons_coe, Multiset.add_cons, ← Multiset.cons_add] at h
  exact add_right_cancel h

theorem entries_empty (n : ℕ) : entries n (fun _ => ([] : List ε)) = 0 :=
  Finset.sum_eq_zero fun _ _ => rfl

theorem coe_flatMap_range (n : ℕ) (buckets : ℕ → List ε) :
    (((List.range n).flatMap buckets : List ε) : Multiset ε) = entries n buckets := by
  induction n with
  | zero => rfl
  | succ n ih =>
    unfold entries at ih ⊢
    rw [range_succ, flatMap_append, ← Multiset.coe_add, ih, Finset.sum_range_succ]
    simp only [flatMap_cons, flatMap_nil, append_nil]

end

section

variable {keyOf : ε → κ} {place : κ → ℕ} {n : ℕ} {buckets : ℕ → List ε} {e : ε}

def add (keyOf : ε → κ) (place : κ → ℕ) (buckets : ℕ → List ε) (e : ε) : ℕ → List ε :=
  update buckets (place (keyOf e)) (e :: buckets (place (keyOf e)))

theorem valid_empty (keyOf : ε → κ) (place : κ → ℕ) (n : ℕ) : Valid keyOf place n fun _ => [] where
  placed _ _ he := nomatch he
  nodup := by
    rw [entries_empty]
    exact Multiset.nodup_zero

theorem Valid.eq_of_key (h : Valid keyOf place n buckets) {e' : ε} (he : e ∈ entries n buckets)
    (he' : e' ∈ entries n buckets) (hkey : keyOf e = keyOf e') : e = e' :=
  Multiset.inj_on_of_nodup_map h.nodup e he e' he' hkey

theorem entries_add (hplace : place (keyOf e) < n) :
    entries n (add keyOf place buckets e) = e ::ₘ entries n buckets := entries_cons hplace e

theorem Valid.add (h : Valid keyOf place n buckets) (hplace : place (keyOf e) < n)
    (hnew : ∀ e' ∈ entries n buckets, keyOf e' ≠ keyOf e) :
    Valid keyOf place n (add keyOf place buckets e) where
  placed i e' he' := by
    unfold ChainTable.add at he'
    by_cases hi : i = place (keyOf e)
    · subst hi
      rw [update_self, mem_cons] at he'
      rcases he' with rfl | he'
      · rfl
      · exact h.placed _ e' he'
    · rw [update_of_ne hi] at he'
      exact h.placed i e' he'
  nodup := by
    rw [entries_add hplace, Multiset.map_cons, Multiset.nodup_cons]
    refine ⟨fun hmem => ?_, h.nodup⟩
    obtain ⟨e', he', hkey⟩ := Multiset.mem_map.1 hmem
    exact hnew e' he' hkey

theorem Valid.foldl_add (hplace : ∀ key, place key < n) (l : List ε)
    (h : Valid keyOf place n buckets) (hnodup : (l.map keyOf).Nodup)
    (hnew : ∀ e ∈ l, ∀ e' ∈ entries n buckets, keyOf e' ≠ keyOf e) :
    Valid keyOf place n (l.foldl (ChainTable.add keyOf place) buckets) ∧
      entries n (l.foldl (ChainTable.add keyOf place) buckets) = entries n buckets + l := by
  induction l generalizing buckets with
  | nil => exact ⟨h, (add_zero _).symm⟩
  | cons e l ih =>
    rw [map_cons, nodup_cons] at hnodup
    have hadd := h.add (hplace (keyOf e)) (hnew e mem_cons_self)
    have hentries := @entries_add ε κ keyOf place n buckets e (hplace (keyOf e))
    obtain ⟨hvalid, hall⟩ := ih hadd hnodup.2 fun e₁ he₁ e' he' => by
      rw [hentries, Multiset.mem_cons] at he'
      rcases he' with rfl | he'
      · exact fun hkey => hnodup.1 (hkey ▸ mem_map_of_mem he₁)
      · exact hnew e₁ (mem_cons_of_mem _ he₁) e' he'
    refine ⟨hvalid, hall.trans ?_⟩
    rw [hentries, Multiset.cons_add, ← Multiset.add_cons, Multiset.cons_coe]

end

variable [DecidableEq κ] {keyOf : ε → κ} {place : κ → ℕ} {n : ℕ} {buckets : ℕ → List ε} {key : κ}
  {e : ε}

def find (keyOf : ε → κ) (place : κ → ℕ) (buckets : ℕ → List ε) (key : κ) : Option ε :=
  (buckets (place key)).find? fun e => decide (keyOf e = key)

def erase (keyOf : ε → κ) (place : κ → ℕ) (buckets : ℕ → List ε) (key : κ) : ℕ → List ε :=
  update buckets (place key) ((buckets (place key)).eraseP fun e => decide (keyOf e = key))

def modifyFirst (p : ε → Bool) (f : ε → ε) : List ε → List ε
  | [] => []
  | e :: l => if p e then f e :: l else e :: modifyFirst p f l

def modify (keyOf : ε → κ) (place : κ → ℕ) (buckets : ℕ → List ε) (key : κ) (f : ε → ε) :
    ℕ → List ε :=
  update buckets (place key)
    (modifyFirst (fun e => decide (keyOf e = key)) f (buckets (place key)))

theorem Valid.find_eq_some (h : Valid keyOf place n buckets) (hplace : place key < n) :
    find keyOf place buckets key = some e ↔ e ∈ entries n buckets ∧ keyOf e = key := by
  unfold find
  constructor
  · intro hfind
    exact ⟨mem_entries.2 ⟨_, hplace, mem_of_find?_eq_some hfind⟩, by simpa using find?_some hfind⟩
  · rintro ⟨hmem, rfl⟩
    obtain ⟨i, hi, he⟩ := mem_entries.1 hmem
    have hin : e ∈ buckets (place (keyOf e)) := h.placed i e he ▸ he
    cases hfind : (buckets (place (keyOf e))).find? fun e' => decide (keyOf e' = keyOf e) with
    | none => exact absurd (decide_eq_true rfl) (find?_eq_none.1 hfind e hin)
    | some e' =>
      have hmem' : e' ∈ entries n buckets :=
        mem_entries.2 ⟨_, hplace, mem_of_find?_eq_some hfind⟩
      have hkey : keyOf e' = keyOf e := by simpa using find?_some hfind
      rw [h.eq_of_key hmem' hmem hkey]

theorem Valid.find_eq_none (h : Valid keyOf place n buckets) (hplace : place key < n) :
    find keyOf place buckets key = none ↔ ∀ e ∈ entries n buckets, keyOf e ≠ key := by
  rw [Option.eq_none_iff_forall_ne_some]
  refine forall_congr' fun e => ?_
  rw [ne_eq, h.find_eq_some hplace, not_and]

/-- Where a search ends, and what erasing or changing the entry that was found does. -/
theorem split_of_find? {p : ε → Bool} {l : List ε} (h : l.find? p = some e) :
    ∃ l₁ l₂, l = l₁ ++ e :: l₂ ∧ l.eraseP p = l₁ ++ l₂ ∧
      ∀ f, modifyFirst p f l = l₁ ++ f e :: l₂ := by
  induction l with
  | nil => cases h
  | cons a l ih =>
    by_cases ha : p a = true
    · rw [find?_cons_of_pos ha] at h
      cases h
      exact ⟨[], l, rfl, eraseP_cons_of_pos ha, fun f => if_pos ha⟩
    · rw [find?_cons_of_neg ha] at h
      obtain ⟨l₁, l₂, hl, herase, hmodify⟩ := ih h
      refine ⟨a :: l₁, l₂, by rw [hl]; rfl, ?_, fun f => ?_⟩
      · rw [eraseP_cons_of_neg ha, herase]
        rfl
      · rw [modifyFirst, if_neg ha, hmodify]
        rfl

theorem entries_of_find (hplace : place key < n) (hfind : find keyOf place buckets key = some e) :
    entries n buckets = e ::ₘ entries n (erase keyOf place buckets key) ∧
      ∀ f, entries n (modify keyOf place buckets key f) =
        f e ::ₘ entries n (erase keyOf place buckets key) := by
  obtain ⟨l₁, l₂, hl, herase, hmodify⟩ := split_of_find? hfind
  have hmiddle : ∀ e : ε, ((l₁ ++ e :: l₂ : List ε) : Multiset ε) = e ::ₘ (l₁ ++ l₂ : List ε) :=
    fun e => Multiset.coe_eq_coe.2 perm_middle
  have hupdate := fun chain => @entries_update ε n (place key) buckets hplace chain
  have hwhole : entries n buckets = e ::ₘ entries n (erase keyOf place buckets key) := by
    have h := hupdate (l₁ ++ l₂)
    rw [hl, hmiddle, Multiset.add_cons, ← Multiset.cons_add, ← herase] at h
    exact (add_right_cancel h).symm
  refine ⟨hwhole, fun f => ?_⟩
  have h := hupdate (l₁ ++ f e :: l₂)
  rw [hwhole, hl, hmiddle, hmiddle, Multiset.add_cons, Multiset.add_cons, Multiset.cons_add,
    Multiset.cons_swap, Multiset.cons_inj_right, ← Multiset.cons_add, ← hmodify f] at h
  exact add_right_cancel h

theorem Valid.erase (h : Valid keyOf place n buckets) (hplace : place key < n)
    (hfind : find keyOf place buckets key = some e) :
    Valid keyOf place n (erase keyOf place buckets key) where
  placed i e' he' := by
    unfold ChainTable.erase at he'
    by_cases hi : i = place key
    · subst hi
      rw [update_self] at he'
      exact h.placed _ e' (mem_of_mem_eraseP he')
    · rw [update_of_ne hi] at he'
      exact h.placed i e' he'
  nodup := by
    have hnodup := h.nodup
    rw [(entries_of_find hplace hfind).1, Multiset.map_cons] at hnodup
    exact (Multiset.nodup_cons.1 hnodup).2

theorem Valid.modify (h : Valid keyOf place n buckets) (hplace : place key < n)
    (hfind : find keyOf place buckets key = some e) {f : ε → ε} (hf : ∀ e, keyOf (f e) = keyOf e) :
    Valid keyOf place n (modify keyOf place buckets key f) where
  placed i e' he' := by
    unfold ChainTable.modify at he'
    by_cases hi : i = place key
    · subst hi
      obtain ⟨l₁, l₂, hl, -, hmodify⟩ := split_of_find? hfind
      rw [update_self, hmodify] at he'
      rw [mem_append, mem_cons] at he'
      have hin : ∀ e₁ ∈ l₁ ++ e :: l₂, place (keyOf e₁) = place key := hl ▸ h.placed _
      rcases he' with he' | rfl | he'
      · exact hin e' (mem_append_left _ he')
      · rw [hf]
        exact hin e (mem_append_right _ mem_cons_self)
      · exact hin e' (mem_append_right _ (mem_cons_of_mem _ he'))
    · rw [update_of_ne hi] at he'
      exact h.placed i e' he'
  nodup := by
    have hnodup := h.nodup
    obtain ⟨hwhole, hmodify⟩ := @entries_of_find ε κ _ keyOf place n buckets key e hplace hfind
    rw [hwhole, Multiset.map_cons] at hnodup
    rwa [hmodify, Multiset.map_cons, hf]

end ServerStack.ChainTable
