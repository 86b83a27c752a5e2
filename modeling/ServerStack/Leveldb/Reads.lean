import ServerStack.Leveldb.DbIterRefinement
import ServerStack.Leveldb.VersionGet

/-!
# Reading before and after a compaction

A lookup and an iterator at one snapshot see the same entries, and neither of them sees whether a
compaction has replaced some of the entries by those it keeps.
-/

namespace ServerStack.Leveldb

open ReadOrder SortedCursor List
open IterSource hiding Visible

variable {K V : Type} [LinearOrder K] {c c' : IterSource K V} {k : K} {r : Option (Entry K V)}
  {l : List (Entry K V)}

/-- No two writes of a user key have the same sequence number. -/
def OneEach (l : List (Entry K V)) : Prop :=
  ∀ a ∈ l, ∀ b ∈ l, a.1.userKey = b.1.userKey → a.1.sequence = b.1.sequence → a = b

/-- The entry is what a reader of the user key sees of the list. -/
abbrev Sees (l : List (Entry K V)) (k : K) (s : ℕ) : Option (Entry K V) → Prop :=
  Answers Entry.userKey Entry.sequence k s {e | e ∈ l}

theorem newestIn_eq (hone : OneEach c.entries) (h : Sees c.entries k c.sequence r) :
    c.newestIn c.entries k = r := by
  cases r with
  | none =>
    refine find?_eq_none.2 fun e he hvisible => h e he ?_
    exact of_decide_eq_true (p := _ ∧ _) hvisible
  | some e =>
    obtain ⟨he, ⟨hkey, hvisible⟩, hmax⟩ := h
    refine newestIn_eq_some_iff.2 ⟨he, hvisible, hkey, fun e' he' hvisible' hkey' => ?_⟩
    by_contra hlt
    have hkeys : e'.1.userKey = e.1.userKey := hkey'.trans hkey.symm
    have hle := InternalKey.sequence_le_of_le (not_le.1 hlt).le hkeys
    rw [hone e' he' e he hkeys (le_antisymm (hmax e' he' ⟨hkey', hvisible'⟩) hle)] at hlt
    exact hlt le_rfl

theorem mem_view_iff (hone : OneEach c.entries) (h : Sees c.entries k c.sequence r) (v : V) :
    (k, v) ∈ c.view ↔ statusOf r = .ok v := by
  rw [mem_view, ShownIn, newestIn_eq hone h]
  cases r with
  | none => simp [statusOf]
  | some e => cases htype : e.1.type <;> simp [statusOf, htype]

theorem exists_sees (c : IterSource K V) (k : K) : ∃ r, Sees c.entries k c.sequence r := by
  refine ⟨c.newestIn c.entries k, ?_⟩
  cases h : c.newestIn c.entries k with
  | none =>
    exact fun e he hvisible => find?_eq_none.1 h e he (decide_eq_true hvisible)
  | some e =>
    obtain ⟨he, hvisible, hkey, hmin⟩ := newestIn_eq_some_iff.1 h
    refine ⟨he, ⟨hkey, hvisible⟩, fun e' he' hvisible' => ?_⟩
    exact InternalKey.sequence_le_of_le (hmin e' he' hvisible'.2 hvisible'.1)
      (hkey.trans hvisible'.1.symm)

/-! ## `Get` and `Seek` -/

/-- A lookup answers with the newest visible entry of all files. -/
theorem get_sees {tableGet : TableFile K V → InternalKey K → Option (Entry K V)}
    (hlookup : TableLookup tableGet) {v : Version K V} (h : WellOrdered v)
    (hitems : {e | e ∈ c.entries} = v.allItems) :
    ∃ r, Sees c.entries k c.sequence r ∧
      (v.get tableGet (lookupKey k c.sequence c.sequence_le)).1 = statusOf r := by
  refine ⟨_, ?_, searchLevels_fst v (lookupKey k c.sequence c.sequence_le)
    (List.range kNumLevels) ⟨none, none⟩⟩
  rw [Sees, hitems]
  apply answers_findSome
  · exact pairwise_lt_range.imp fun {i j} hij => h.levels i j hij
  · intro level _
    cases level with
    | zero => exact v.answers_level_zero hlookup h
    | succ level => exact v.answers_level hlookup h (Nat.succ_pos level)

theorem run_seek {ms : List (Move K)} {st : DBIter K V}
    (hrun : c.run (ms ++ [.seek k]) = .ok st) : st = c.seek k := by
  rw [IterSource.run, foldlM_append] at hrun
  cases hms : ms.foldlM c.step init with
  | error e =>
    rw [hms] at hrun
    cases hrun
  | ok st' =>
    rw [hms] at hrun
    exact (Except.ok.inj hrun).symm

/-- After any calls, `Seek` finds the user key if and only if `Get` does, with the same value. -/
theorem get_eq_seek {tableGet : TableFile K V → InternalKey K → Option (Entry K V)}
    (hlookup : TableLookup tableGet) {v : Version K V} (h : WellOrdered v)
    (hone : OneEach c.entries) (hitems : {e | e ∈ c.entries} = v.allItems) {ms : List (Move K)}
    {st : DBIter K V} (hrun : c.run (ms ++ [.seek k]) = .ok st) :
    (v.get tableGet (lookupKey k c.sequence c.sequence_le)).1 =
      (st.current.filter fun r => r.1 = k).elim .notFound fun r => .ok r.2 := by
  obtain ⟨r, hr, hget⟩ := get_sees (k := k) hlookup h hitems
  rw [hget, run_seek hrun]
  have hview := mem_view_iff hone hr
  have hseek := (seek_spec (c := c) k).2
  have hnot : (∀ val, (k, val) ∉ c.view) → statusOf r = .notFound := by
    intro hall
    cases hstatus : statusOf r with
    | notFound => rfl
    | ok val => exact absurd ((hview val).2 hstatus) (hall val)
  cases hcurrent : (c.seek k).current with
  | none =>
    rw [hcurrent] at hseek
    exact hnot fun val hmem => hseek _ hmem le_rfl
  | some x =>
    rw [hcurrent] at hseek
    obtain ⟨hmem, hle, hmin⟩ := hseek
    by_cases hkey : x.1 = k
    · rw [Option.filter_some, if_pos (by simpa using hkey)]
      exact (hview x.2).1 (hkey ▸ hmem)
    · rw [Option.filter_some, if_neg (by simpa using hkey)]
      exact hnot fun val hval => hkey (le_antisymm (hmin _ hval le_rfl) hle)

/-- The older version of the user key 3, in the second file. -/
theorem get_eq_seek_straddling : ∃ (c : IterSource ℕ ℕ) (st : DBIter ℕ ℕ),
    c.run ([.seekToFirst, .next] ++ [.seek 3]) = .ok st ∧ st.current = some (3, 40) ∧
      (straddlingVersion.get (fun f key => firstAtOrAfter key f.entries)
        (lookupKey 3 c.sequence c.sequence_le)).1 =
          (st.current.filter fun r => r.1 = 3).elim .notFound fun r => .ok r.2 := by
  let c : IterSource ℕ ℕ :=
    ⟨(straddlingVersion.files 1).flatMap TableFile.entries, 6, by decide, by decide⟩
  refine ⟨c, c.seek 3, rfl, by decide +kernel, get_eq_seek
    tableLookup_firstAtOrAfter straddlingVersion_wellOrdered ?_ ?_
    (show c.run ([.seekToFirst, .next] ++ [.seek 3]) = .ok (c.seek 3) from rfl)⟩
  · unfold OneEach
    decide
  · ext e
    refine mem_flatMap.trans ⟨fun hf => ⟨1, by decide, hf⟩, ?_⟩
    rintro ⟨level, -, f, hf, he⟩
    obtain rfl := straddlingVersion_files hf
    exact ⟨f, hf, he⟩

/-! ## Compactions -/

namespace DropContext

variable {ctx : DropContext K}

theorem keptFrom_sublist (st : DropState K) (input : List (InputKey K × V)) :
    (ctx.keptFrom st input).Sublist input := by
  induction input generalizing st with
  | nil => exact Sublist.refl _
  | cons e input ih =>
    rw [keptFrom]
    dsimp only
    split_ifs
    · exact (ih _).cons e
    · exact (ih _).cons_cons e

theorem sees_newest (hl : l.Pairwise fun a b => a.1 < b.1) (k : K) (s : ℕ) :
    Sees l k s (newest (parsedInput l) k s) := by
  induction l with
  | nil => exact fun e he => absurd he not_mem_nil
  | cons e l ih =>
    obtain ⟨hfirst, htail⟩ := pairwise_cons.1 hl
    rw [parsedInput, map_cons, ← parsedInput]
    by_cases hsees : e.1.userKey = k ∧ e.1.sequence ≤ s
    · rw [newest_cons_of_sees hsees]
      refine ⟨mem_cons_self, hsees, fun e' he' hvisible => ?_⟩
      rcases mem_cons.1 he' with rfl | he'
      · exact le_rfl
      · exact InternalKey.sequence_le_of_le (hfirst e' he').le (hsees.1.trans hvisible.1.symm)
    · rw [newest_cons_of_not_sees hsees]
      have hnone : Sees [e] k s none := fun e' he' hvisible =>
        hsees (mem_singleton.1 he' ▸ hvisible)
      have hunion := hnone.union_none (ih htail)
      rwa [show {x | x ∈ [e]} ∪ {x | x ∈ l} = {x | x ∈ e :: l} by ext; simp] at hunion

theorem newest_mem {input : List (InputKey K × V)} {s : ℕ} {e : Entry K V}
    (h : newest input k s = some e) : (.parsed e.1, e.2) ∈ input := by
  obtain ⟨⟨ikey, v⟩, hmem, hfound⟩ := exists_of_findSome?_eq_some h
  cases ikey with
  | parsed ikey =>
    dsimp only at hfound
    split_ifs at hfound
    cases hfound
    exact hmem
  | corrupted _ => cases hfound

theorem not_visible_of_newest {input : List (InputKey K × V)} {s : ℕ} {e : Entry K V}
    (h : newest input k s = none) (he : (.parsed e.1, e.2) ∈ input) :
    ¬ Visible Entry.userKey Entry.sequence k s e := by
  intro hvisible
  have hfound := findSome?_eq_none_iff.1 h _ he
  dsimp only at hfound
  rw [if_pos (show e.1.userKey = k ∧ e.1.sequence ≤ s from hvisible)] at hfound
  cases hfound

/-- A compaction has replaced the entries of its input by those it keeps.  Another entry that is not
newer than one of the input with the same user key is in the range of a file of the levels that
`IsBaseLevelForKey` looks at. -/
structure Compacts (ctx : DropContext K) (c c' : IterSource K V) (input others : List (Entry K V)) :
    Prop where
  sorted : ctx.Sorted
  snapshot : ctx.smallestSnapshot < kMaxSequenceNumber
  input_sorted : input.Pairwise fun a b => a.1 < b.1
  before : ∀ e, e ∈ c.entries ↔ e ∈ input ∨ e ∈ others
  after : ∀ e, e ∈ c'.entries ↔ (.parsed e.1, e.2) ∈ ctx.kept (parsedInput input) ∨ e ∈ others
  covered : ∀ e ∈ input, ∀ x ∈ others, x.1.userKey = e.1.userKey →
    x.1.sequence ≤ e.1.sequence → ¬ ctx.IsBase x.1.userKey
  one : OneEach c.entries
  sequence : c'.sequence = c.sequence
  live : ctx.smallestSnapshot ≤ c.sequence

variable {input others : List (Entry K V)} {e : Entry K V}

theorem Compacts.subset (h : Compacts ctx c c' input others) (he : e ∈ c'.entries) :
    e ∈ c.entries := by
  rw [h.before]
  rcases (h.after e).1 he with he | he
  · obtain ⟨e', he', heq⟩ := mem_map.1 ((keptFrom_sublist _ _).subset he)
    rw [Prod.mk.injEq, InputKey.parsed.injEq] at heq
    rw [Prod.ext heq.1 heq.2] at he'
    exact .inl he'
  · exact .inr he

/-- What a reader sees of a user key has the same status before and after. -/
theorem Compacts.sees (h : Compacts ctx c c' input others)
    (hr : Sees c.entries k c.sequence r) :
    ∃ r', Sees c'.entries k c.sequence r' ∧ statusOf r' = statusOf r := by
  cases r with
  | none => exact ⟨none, fun e he => hr e (h.subset he), rfl⟩
  | some e =>
    obtain ⟨he, hvisible, hmax⟩ := hr
    have hkeep : e ∈ c'.entries → ∃ r', Sees c'.entries k c.sequence r' ∧
        statusOf r' = statusOf (some e) := fun he' =>
      ⟨some e, ⟨he', hvisible, fun x hx => hmax x (h.subset hx)⟩, rfl⟩
    rcases (h.before e).1 he with hinput | hother
    · -- the newest entry of the input is this one, and it is kept or a deletion
      have hnewest : newest (parsedInput input) k c.sequence = some e := by
        have hsees := sees_newest h.input_sorted k c.sequence
        cases hn : newest (parsedInput input) k c.sequence with
        | none =>
          rw [hn] at hsees
          exact absurd hvisible (hsees e hinput)
        | some e' =>
          rw [hn] at hsees
          obtain ⟨he', hvisible', hmax'⟩ := hsees
          have hle := hmax e' ((h.before e').2 (.inl he')) hvisible'
          rw [h.one e' ((h.before e').2 (.inl he')) e he
            (hvisible'.1.trans hvisible.1.symm) (le_antisymm hle (hmax' e hinput hvisible))]
      have hkept : ctx.ViewKept (parsedInput input) (ctx.kept (parsedInput input)) k c.sequence :=
        viewKept_keptFrom h.sorted h.snapshot h.live h.input_sorted
          (fun e he lvl f hf => by simp [DropState.init] at hf) fun hcur => by cases hcur
      rcases hkept with hsame | ⟨e', he', htype, hbase, hnone⟩
      · exact hkeep ((h.after e).2 (.inl (newest_mem (hsame.trans hnewest))))
      · obtain rfl := Option.some.inj (hnewest.symm.trans he')
        refine ⟨none, fun x hx hx' => ?_, by simp [statusOf, htype]⟩
        rcases (h.after x).1 hx with hx | hx
        · exact not_visible_of_newest hnone hx hx'
        · refine h.covered e hinput x hx (hx'.1.trans hvisible.1.symm)
            (hmax x ((h.before x).2 (.inr hx)) hx') ?_
          exact (show x.1.userKey = k from hx'.1).symm ▸ hbase
    · exact hkeep ((h.after e).2 (.inr hother))

/-- No sequence of calls on an iterator at a live snapshot tells whether the compaction was done. -/
theorem Compacts.run_eq (h : Compacts ctx c c' input others) (ms : List (Move K)) :
    (c'.run ms).map DBIter.current = (c.run ms).map DBIter.current := by
  have hone : OneEach c'.entries := fun a ha b hb => h.one a (h.subset ha) b (h.subset hb)
  have hmem : ∀ x, x ∈ c'.view ↔ x ∈ c.view := by
    rintro ⟨k, v⟩
    obtain ⟨r, hr⟩ := exists_sees c k
    obtain ⟨r', hr', hstatus⟩ := h.sees hr
    rw [mem_view_iff h.one hr, ← hstatus]
    exact mem_view_iff hone (h.sequence.symm ▸ hr') v
  have hnodup : ∀ c : IterSource K V, c.view.Nodup := fun c =>
    sorted_view.imp fun hlt heq => hlt.ne (congrArg Prod.fst heq)
  have hview : c'.view = c.view :=
    ((perm_ext_iff_of_nodup (hnodup c') (hnodup c)).2 hmem).eq_of_pairwise
      (fun a b _ _ hab hba => absurd hab hba.not_gt) sorted_view sorted_view
  rw [(run_agree c' ms).map_eq fun _ _ h => h.2.2, (run_agree c ms).map_eq fun _ _ h => h.2.2,
    hview]

theorem deletedContext_sorted : deletedContext.Sorted := by
  intro lvl _ _
  by_cases hlvl : lvl = 2
  · subst hlvl
    exact ⟨by decide, pairwise_singleton _ _⟩
  · rw [show deletedContext.files lvl = [] from if_neg hlvl]
    exact ⟨fun f hf => absurd hf not_mem_nil, List.Pairwise.nil⟩

/-- The deletion and the value it hides are gone after the compaction. -/
theorem compacts_run_eq_deleted : ∃ c c' : IterSource ℕ ℕ,
    c.entries.length = 3 ∧ c'.entries.length = 1 ∧
      ∀ ms, (c'.run ms).map DBIter.current = (c.run ms).map DBIter.current := by
  let input : List (Entry ℕ ℕ) :=
    [(⟨3, 8, .deletion, by decide⟩, 0), (⟨3, 6, .value, by decide⟩, 1)]
  let others : List (Entry ℕ ℕ) := [(⟨5, 1, .value, by decide⟩, 50)]
  let c : IterSource ℕ ℕ := ⟨input ++ others, 10, by decide, by decide⟩
  let c' : IterSource ℕ ℕ := ⟨others, 10, by decide, by decide⟩
  have hkept : deletedContext.kept (parsedInput input) = [] := by decide +kernel
  have hcompacts : Compacts deletedContext c c' input others :=
    { sorted := deletedContext_sorted
      snapshot := by decide
      input_sorted := by decide
      before := fun e => by simp [c]
      after := fun e => by simp [c', hkept]
      covered := by simp [input, others]
      one := by
        unfold OneEach
        decide
      sequence := rfl
      live := le_rfl }
  exact ⟨c, c', rfl, rfl, hcompacts.run_eq⟩

end DropContext

end ServerStack.Leveldb
