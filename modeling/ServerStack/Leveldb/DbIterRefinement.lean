import ServerStack.Leveldb.DbIter

/-!
# The database iterator is a cursor

`DBIter` is a cursor over the list of user keys and values that a snapshot sees.  Going forward it
stands at the entry that it shows; going backward it has passed every visible entry of the key that
it shows, and none of a smaller key.
-/

namespace ServerStack.Leveldb.IterSource

open SortedCursor Outcome Option
open List hiding get

variable {K V : Type} [LinearOrder K] (c : IterSource K V)

/-! ## The view of a snapshot -/

def newestIn (l : List (Entry K V)) (k : K) : Option (Entry K V) :=
  l.find? fun e => e.1.userKey = k ∧ c.Visible e

def ShownIn (l : List (Entry K V)) (k : K) (v : V) : Prop :=
  ∃ e, c.newestIn l k = some e ∧ e.1.type = .value ∧ e.2 = v

def viewAt (k : K) : Option (K × V) :=
  match c.newestIn c.entries k with
  | none => none
  | some e =>
    match e.1.type with
    | .deletion => none
    | .value => some (k, e.2)

def view : List (K × V) := (c.entries.map fun e => e.1.userKey).dedup.filterMap c.viewAt

variable {c} {e : Entry K V} {k g : K} {l after before : List (Entry K V)} {st : DBIter K V}
  {range : K → Prop}

theorem newestIn_eq_some (h : c.newestIn l k = some e) : e ∈ l ∧ e.1.userKey = k ∧ c.Visible e := by
  have hp := find?_some h
  exact ⟨mem_of_find?_eq_some h, by simpa using hp⟩

theorem newestIn_cons_self (h : c.Visible e) (l : List (Entry K V)) :
    c.newestIn (e :: l) e.1.userKey = some e :=
  find?_cons_of_pos (by simpa using h)

theorem newestIn_cons_of_not (h : ¬ (e.1.userKey = k ∧ c.Visible e)) (l : List (Entry K V)) :
    c.newestIn (e :: l) k = c.newestIn l k :=
  find?_cons_of_neg (by simpa using h)

theorem newestIn_append_of_not {l' : List (Entry K V)}
    (h : ∀ x ∈ l, c.Visible x → x.1.userKey ≠ k) :
    c.newestIn (l ++ l') k = c.newestIn l' k := by
  induction l with
  | nil => rfl
  | cons x l ih =>
    obtain ⟨hx, hl⟩ := forall_mem_cons.1 h
    rw [cons_append, newestIn_cons_of_not (fun hk => hx hk.2 hk.1), ih hl]

theorem viewAt_eq_some {r : K × V} :
    c.viewAt k = some r ↔ k = r.1 ∧ c.ShownIn c.entries r.1 r.2 := by
  rw [viewAt]
  constructor
  · intro h
    split at h
    · cases h
    · rename_i e hnewest
      split at h
      · cases h
      · rename_i htype
        cases h
        exact ⟨rfl, e, hnewest, htype, rfl⟩
  · rintro ⟨rfl, e, hnewest, htype, hvalue⟩
    rw [hnewest]
    simp only [htype, hvalue]

theorem mem_view {v : V} : (k, v) ∈ c.view ↔ c.ShownIn c.entries k v := by
  rw [view, mem_filterMap]
  constructor
  · rintro ⟨k', -, hk'⟩
    exact (viewAt_eq_some.1 hk').2
  · intro h
    obtain ⟨e, hnewest, -⟩ := id h
    obtain ⟨hmem, hkey, -⟩ := newestIn_eq_some hnewest
    exact ⟨k, mem_dedup.2 (mem_map.2 ⟨e, hmem, hkey⟩), viewAt_eq_some.2 ⟨rfl, h⟩⟩

theorem sorted_view : Sorted c.view := by
  have hle : (c.entries.map fun e => e.1.userKey).Pairwise (· ≤ ·) :=
    pairwise_map.2 (c.sorted.imp fun h => InternalKey.userKey_le h.le)
  have hkeys : (c.entries.map fun e => e.1.userKey).dedup.Pairwise (· < ·) :=
    ((hle.sublist (dedup_sublist _)).and (nodup_dedup _)).imp fun h => lt_of_le_of_ne h.1 h.2
  rw [Sorted, view, pairwise_filterMap]
  refine hkeys.imp fun {a b} hab x hx y hy => ?_
  rwa [← (viewAt_eq_some.1 hx).1, ← (viewAt_eq_some.1 hy).1]

theorem ShownIn.mem {v : V} (h : c.ShownIn l k v) : ∃ e ∈ l, c.Visible e ∧ e.1.userKey = k := by
  obtain ⟨e, hnewest, -⟩ := h
  obtain ⟨hmem, hkey, hvisible⟩ := newestIn_eq_some hnewest
  exact ⟨e, hmem, hvisible, hkey⟩

/-! ## The order of the entries around a position -/

theorem userKey_le_of_cut (h : c.entries = before.reverse ++ e :: after) :
    (∀ x ∈ before, x.1.userKey ≤ e.1.userKey) ∧ ∀ x ∈ after, e.1.userKey ≤ x.1.userKey := by
  have hsorted := c.sorted
  rw [h, pairwise_append, pairwise_cons] at hsorted
  obtain ⟨-, ⟨hafter, -⟩, hbefore⟩ := hsorted
  exact ⟨fun x hx => InternalKey.userKey_le (hbefore x (mem_reverse.2 hx) e mem_cons_self).le,
    fun x hx => InternalKey.userKey_le (hafter x hx).le⟩

/-! ## Forward -/

def Skipped (skip : Option K) (k : K) : Prop := ∃ s, skip = some s ∧ k ≤ s

theorem any_le_iff {skip : Option K} : (skip.any fun s => k ≤ s) = true ↔ Skipped skip k := by
  cases skip with
  | none | some s => simp [Skipped]

/-- What holds in `FindNextUserEntry` when the entries of `before` have been passed: the visible ones
are not in the range of keys that is looked for, or skipped, and no skipped key of the range is
shown. -/
structure NextInv (c : IterSource K V) (range : K → Prop) (skip : Option K)
    (before rest : List (Entry K V)) : Prop where
  cut : c.entries = before.reverse ++ rest
  passed : ∀ x ∈ before, c.Visible x → range x.1.userKey → Skipped skip x.1.userKey
  skipped : ∀ k v, Skipped skip k → range k → ¬ c.ShownIn c.entries k v
  ahead : ∀ x ∈ rest, c.Visible x → range x.1.userKey ∨ Skipped skip x.1.userKey
  above : ∀ x ∈ rest, c.Visible x → ∀ s, skip = some s → s ≤ x.1.userKey

/-- The position is at the newest visible entry of its key, a value. -/
structure Shows (c : IterSource K V) (p : Position K V) : Prop where
  cut : c.entries = p.before.reverse ++ p.entry :: p.after
  newest : c.newestIn c.entries p.entry.1.userKey = some p.entry
  type : p.entry.1.type = .value

theorem Shows.shownIn {p : Position K V} (h : Shows c p) :
    c.ShownIn c.entries p.entry.1.userKey p.entry.2 := ⟨p.entry, h.newest, h.type, rfl⟩

section

variable {range : K → Prop} {skip : Option K} {before after : List (Entry K V)} {e : Entry K V}

section

variable (h : NextInv c range skip before (e :: after))

include h

theorem NextInv.pass
    (he : c.Visible e → Skipped skip e.1.userKey) : NextInv c range skip (e :: before) after where
  cut := by rw [h.cut, reverse_cons, append_assoc, singleton_append]
  passed := forall_mem_cons.2 ⟨fun hvisible _ => he hvisible, h.passed⟩
  skipped := h.skipped
  ahead x hx := h.ahead x (mem_cons_of_mem _ hx)
  above x hx := h.above x (mem_cons_of_mem _ hx)

/-- Outside of the skipped keys the loop meets the newest visible entry of a key first. -/
theorem NextInv.newest (hvisible : c.Visible e)
    (hskip : ¬ Skipped skip e.1.userKey) : c.newestIn c.entries e.1.userKey = some e := by
  have hrange := (h.ahead e mem_cons_self hvisible).resolve_right hskip
  rw [h.cut, newestIn_append_of_not, newestIn_cons_self hvisible]
  intro x hx hx' hkey
  rw [← hkey] at hskip hrange
  exact hskip (h.passed x (mem_reverse.1 hx) hx' hrange)

theorem NextInv.le_of_shown {k : K} {v : V}
    (hshown : c.ShownIn c.entries k v) (hrange : range k) : e.1.userKey ≤ k := by
  obtain ⟨x, hx, hvisible, rfl⟩ := hshown.mem
  rw [h.cut, mem_append, mem_cons] at hx
  rcases hx with hx | rfl | hx
  · exact absurd hshown (h.skipped _ _ (h.passed x (mem_reverse.1 hx) hvisible hrange) hrange)
  · exact le_rfl
  · exact (userKey_le_of_cut h.cut).2 x hx

theorem NextInv.delete (hvisible : c.Visible e)
    (htype : e.1.type = .deletion) : NextInv c range (some e.1.userKey) (e :: before) after where
  cut := by rw [h.cut, reverse_cons, append_assoc, singleton_append]
  passed x hx _ _ := by
    refine ⟨_, rfl, ?_⟩
    rcases mem_cons.1 hx with rfl | hx
    · exact le_rfl
    · exact (userKey_le_of_cut h.cut).1 x hx
  skipped k v hskip hrange hshown := by
    obtain ⟨_, hs, hle⟩ := hskip
    cases hs
    obtain rfl := le_antisymm hle (h.le_of_shown hshown hrange)
    by_cases hold : Skipped skip e.1.userKey
    · exact h.skipped _ _ hold hrange hshown
    · obtain ⟨e', hnewest, hvalue, -⟩ := hshown
      rw [h.newest hvisible hold] at hnewest
      cases hnewest
      rw [htype] at hvalue
      cases hvalue
  ahead x hx hx' := by
    rcases h.ahead x (mem_cons_of_mem _ hx) hx' with hrange | ⟨s, hs, hle⟩
    · exact .inl hrange
    · exact .inr ⟨_, rfl, hle.trans (h.above e mem_cons_self hvisible s hs)⟩
  above x hx _ s hs := by
    rw [← some.inj hs]
    exact (userKey_le_of_cut h.cut).2 x hx

end

/-- `FindNextUserEntry` stops at the first shown key of the range. -/
theorem NextInv.findNextLoop {rest : List (Entry K V)} (h : NextInv c range skip before rest) :
    match c.findNextLoop skip before rest with
    | none => ∀ k v, c.ShownIn c.entries k v → ¬ range k
    | some p => Shows c p ∧ range p.entry.1.userKey ∧
        ∀ k v, c.ShownIn c.entries k v → range k → p.entry.1.userKey ≤ k := by
  induction rest generalizing skip before with
  | nil =>
    intro k v hshown hrange
    obtain ⟨x, hx, hvisible, rfl⟩ := hshown.mem
    rw [h.cut, append_nil, mem_reverse] at hx
    exact h.skipped _ _ (h.passed x hx hvisible hrange) hrange hshown
  | cons e after ih =>
    rw [IterSource.findNextLoop]
    by_cases hvisible : c.Visible e
    · rw [if_pos hvisible]
      cases htype : e.1.type with
      | deletion => exact ih (h.delete hvisible htype)
      | value =>
        by_cases hskip : Skipped skip e.1.userKey
        · simp only [if_pos (any_le_iff.2 hskip)]
          exact ih (h.pass fun _ => hskip)
        · simp only [if_neg fun hany => hskip (any_le_iff.1 hany)]
          exact ⟨⟨h.cut, h.newest hvisible hskip, htype⟩,
            (h.ahead e mem_cons_self hvisible).resolve_right hskip,
            fun k v hshown hrange => h.le_of_shown hshown hrange⟩
    · rw [if_neg hvisible]
      exact ih (h.pass fun hv => absurd hv hvisible)

end

/-! ## Backward -/

/-- What holds in `FindPrevUserEntry` when the entries of `after` have been passed: among the keys of
the range only the saved one is shown by them, and it is the smallest. -/
def PrevSaved (c : IterSource K V) (range : K → Prop) (after : List (Entry K V)) :
    ValueType → Option K → Option V → Prop
  | .deletion, _, _ => ∀ k v, range k → ¬ c.ShownIn after k v
  | .value, savedKey, savedValue => ∃ g w, savedKey = some g ∧ savedValue = some w ∧ range g ∧
      c.ShownIn after g w ∧ (∀ k v, range k → c.ShownIn after k v → k = g) ∧
      ∀ x ∈ after, c.Visible x → range x.1.userKey → g ≤ x.1.userKey

/-- The iterator has passed the visible entries from the key `g` on, and no others. -/
structure Behind (c : IterSource K V) (g : K) (w : V) (before after : List (Entry K V)) : Prop where
  cut : c.entries = before.reverse ++ after
  shown : c.ShownIn c.entries g w
  below : ∀ x ∈ before, c.Visible x → x.1.userKey < g
  above : ∀ x ∈ after, c.Visible x → g ≤ x.1.userKey

section

variable {range : K → Prop} {before after : List (Entry K V)} {e : Entry K V}
  {valueType : ValueType} {savedKey : Option K} {savedValue : Option V}

variable {v : V}

theorem shownIn_cons_of_not {k : K} (h : ¬ (e.1.userKey = k ∧ c.Visible e)) :
    c.ShownIn (e :: after) k v ↔ c.ShownIn after k v := by
  rw [ShownIn, newestIn_cons_of_not h, ← ShownIn]

theorem shownIn_cons_self (h : c.Visible e) :
    c.ShownIn (e :: after) e.1.userKey v ↔ e.1.type = .value ∧ e.2 = v := by
  rw [ShownIn, newestIn_cons_self h]
  simp only [Option.some.injEq, exists_eq_left']

section

variable (h : PrevSaved c range after valueType savedKey savedValue)

include h

theorem PrevSaved.pass
    (he : ¬ c.Visible e) : PrevSaved c range (e :: after) valueType savedKey savedValue := by
  have hshown : ∀ k v, c.ShownIn (e :: after) k v ↔ c.ShownIn after k v := fun k v =>
    shownIn_cons_of_not fun hk => he hk.2
  cases valueType with
  | deletion => exact fun k v hrange => by rw [hshown]; exact h k v hrange
  | value =>
    obtain ⟨g, w, hkey, hvalue, hg, hshows, honly, hmin⟩ := h
    refine ⟨g, w, hkey, hvalue, hg, (hshown g w).2 hshows, fun k v hrange hk => ?_, ?_⟩
    · exact honly k v hrange ((hshown k v).1 hk)
    · exact forall_mem_cons.2 ⟨fun hv => absurd hv he, hmin⟩

theorem PrevSaved.not_shown (hcut : c.entries = before.reverse ++ e :: after)
    (hgo : ¬ (valueType ≠ .deletion ∧ (savedKey.any fun k => e.1.userKey < k) = true)) {k : K}
    (hrange : range k) (hk : k ≠ e.1.userKey) : ¬ c.ShownIn after k v := by
  cases valueType with
  | deletion => exact h k v hrange
  | value =>
    obtain ⟨g, w, rfl, -, -, hshows, honly, -⟩ := h
    intro hshown
    obtain rfl := honly k v hrange hshown
    obtain ⟨x, hx, -, hkey⟩ := hshows.mem
    have hle := (userKey_le_of_cut hcut).2 x hx
    rw [hkey] at hle
    refine hgo ⟨by simp, ?_⟩
    simpa using lt_of_le_of_ne hle hk.symm

theorem PrevSaved.save (hcut : c.entries = before.reverse ++ e :: after) (hvisible : c.Visible e)
    (hrange : range e.1.userKey)
    (hgo : ¬ (valueType ≠ .deletion ∧ (savedKey.any fun k => e.1.userKey < k) = true)) :
    (e.1.type = .deletion → PrevSaved c range (e :: after) .deletion none none) ∧
    (e.1.type = .value → PrevSaved c range (e :: after) .value (some e.1.userKey) (some e.2)) := by
  have hothers : ∀ k v, range k → k ≠ e.1.userKey → ¬ c.ShownIn (e :: after) k v := by
    intro k v hk hne hshown
    exact h.not_shown hcut hgo hk hne ((shownIn_cons_of_not fun h => hne h.1.symm).1 hshown)
  refine ⟨fun htype k v hk hshown => ?_, fun htype => ⟨_, _, rfl, rfl, hrange, ?_, ?_, ?_⟩⟩
  · rcases eq_or_ne k e.1.userKey with rfl | hne
    · rw [shownIn_cons_self hvisible, htype] at hshown
      cases hshown.1
    · exact hothers k v hk hne hshown
  · exact (shownIn_cons_self hvisible).2 ⟨htype, rfl⟩
  · intro k v hk hshown
    by_contra hne
    exact hothers k v hk hne hshown
  · exact forall_mem_cons.2 ⟨fun _ _ => le_rfl, fun x hx _ _ => (userKey_le_of_cut hcut).2 x hx⟩

end

/-- The result of `FindPrevUserEntry`: the last shown key of the range, if there is one. -/
def PrevFound (c : IterSource K V) (range : K → Prop) (l : PrevLoop K V) : Prop :=
  match l.valueType with
  | .deletion => ∀ k v, c.ShownIn c.entries k v → ¬ range k
  | .value => ∃ g w, l.savedKey = some g ∧ l.savedValue = some w ∧ Behind c g w l.before l.after ∧
      range g ∧ ∀ k v, c.ShownIn c.entries k v → range k → k ≤ g

theorem PrevSaved.found {g : K} {w : V} (hlower : ∀ a b, range b → a ≤ b → range a)
    (hcut : c.entries = before.reverse ++ after) (hg : range g) (hshows : c.ShownIn after g w)
    (honly : ∀ k v, range k → c.ShownIn after k v → k = g)
    (hmin : ∀ x ∈ after, c.Visible x → range x.1.userKey → g ≤ x.1.userKey)
    (hbelow : ∀ x ∈ before, c.Visible x → x.1.userKey < g) :
    PrevFound c range ⟨before, after, .value, some g, some w⟩ := by
  have hshown : ∀ k v, g ≤ k → (c.ShownIn c.entries k v ↔ c.ShownIn after k v) := by
    intro k v hk
    rw [ShownIn, hcut, newestIn_append_of_not, ← ShownIn]
    intro x hx hvisible
    exact ((hbelow x (mem_reverse.1 hx) hvisible).trans_le hk).ne
  refine ⟨g, w, rfl, rfl, ⟨hcut, (hshown g w le_rfl).2 hshows, hbelow, fun x hx hvisible => ?_⟩, hg,
    fun k v hk hrange => ?_⟩
  · by_contra hlt
    exact hlt (hmin x hx hvisible (hlower _ _ hg (not_le.1 hlt).le))
  · by_contra hlt
    exact hlt (honly k v hrange ((hshown k v (not_le.1 hlt).le).1 hk)).le

/-- `FindPrevUserEntry` stops before the last shown key of the range. -/
theorem PrevSaved.findPrevLoop (hlower : ∀ a b, range b → a ≤ b → range a)
    (hcut : c.entries = before.reverse ++ after)
    (hbefore : ∀ x ∈ before, c.Visible x → range x.1.userKey)
    (h : PrevSaved c range after valueType savedKey savedValue) :
    PrevFound c range (c.findPrevLoop before after valueType savedKey savedValue) := by
  induction before generalizing after valueType savedKey savedValue with
  | nil =>
    cases valueType with
    | deletion =>
      intro k v hshown hrange
      rw [hcut] at hshown
      exact h k v hrange hshown
    | value =>
      obtain ⟨g, w, rfl, rfl, hg, hshows, honly, hmin⟩ := h
      exact PrevSaved.found hlower hcut hg hshows honly hmin fun x hx => by cases hx
  | cons e before ih =>
    have hcut' : c.entries = before.reverse ++ e :: after := by
      rw [hcut, reverse_cons, append_assoc, singleton_append]
    obtain ⟨he, hbefore'⟩ := forall_mem_cons.1 hbefore
    rw [IterSource.findPrevLoop]
    by_cases hvisible : c.Visible e
    · split_ifs with hstop
      · -- the saved key is complete: every entry that is left belongs to a smaller one
        cases valueType with
        | deletion => exact absurd rfl hstop.1
        | value =>
          obtain ⟨g, w, rfl, rfl, hg, hshows, honly, hmin⟩ := h
          have hlt : e.1.userKey < g := by simpa using hstop.2
          refine PrevSaved.found hlower hcut hg hshows honly hmin fun x hx _ => ?_
          rcases mem_cons.1 hx with rfl | hx
          · exact hlt
          · exact ((userKey_le_of_cut hcut').1 x hx).trans_lt hlt
      · have hsave := h.save hcut' hvisible (he hvisible) hstop
        cases htype : e.1.type with
        | deletion => exact ih hcut' hbefore' (hsave.1 htype)
        | value => exact ih hcut' hbefore' (hsave.2 htype)
    · rw [if_neg hvisible]
      exact ih hcut' hbefore' (h.pass hvisible)

end

/-! ## The invariant of the iterator -/

/-- A valid iterator stands at the entry that it shows, or behind the key that it shows. -/
def Inv (c : IterSource K V) (st : DBIter K V) : Prop :=
  st.valid = true →
    match st.direction with
    | .forward => ∃ p, st.iter = some p ∧ Shows c p
    | .reverse => ∃ g w before after, st.savedKey = some g ∧ st.savedValue = some w ∧
        st.iter = positionBefore after before ∧ Behind c g w before after

theorem inv_of_not_valid (h : st.valid = false) : Inv c st := fun hvalid => by
  rw [h] at hvalid
  cases hvalid

omit [LinearOrder K] in
theorem current_of_not_valid (h : st.valid = false) : st.current = none := by
  rw [DBIter.current, h, if_neg Bool.false_ne_true]

theorem Inv.valid_iff (h : Inv c st) : st.current = none ↔ st.valid = false := by
  refine ⟨fun hnone => ?_, current_of_not_valid⟩
  by_contra hvalid
  rw [Bool.not_eq_false] at hvalid
  have hinv := h hvalid
  rw [DBIter.current, if_pos hvalid] at hnone
  cases hdirection : st.direction with
  | forward =>
    simp only [hdirection] at hinv hnone
    obtain ⟨p, hp, -⟩ := hinv
    rw [hp] at hnone
    cases hnone
  | reverse =>
    simp only [hdirection] at hinv hnone
    obtain ⟨g, w, before, after, hkey, hvalue, -⟩ := hinv
    rw [hkey, hvalue] at hnone
    cases hnone

variable {range : K → Prop}

theorem NextInv.findNextUserEntry {skip : Option K} {p : Position K V}
    (h : NextInv c range skip p.before (p.entry :: p.after)) {st : DBIter K V}
    (hst : st.direction = .forward) :
    Inv c (c.findNextUserEntry st p skip) ∧
      IsFirst c.view range (c.findNextUserEntry st p skip).current := by
  have hfound := h.findNextLoop
  rw [IterSource.findNextUserEntry]
  cases hloop : c.findNextLoop skip p.before (p.entry :: p.after) with
  | none =>
    rw [hloop] at hfound
    refine ⟨inv_of_not_valid rfl, ?_⟩
    exact fun e he => hfound e.1 e.2 (mem_view.1 he)
  | some q =>
    rw [hloop] at hfound
    obtain ⟨hshows, hrange, hmin⟩ := hfound
    refine ⟨fun _ => ?_, ?_⟩
    · simp only [hst]
      exact ⟨q, rfl, hshows⟩
    · simp only [DBIter.current, hst, isSome_some, if_true, map_some]
      exact ⟨mem_view.2 hshows.shownIn, hrange, fun e he => hmin e.1 e.2 (mem_view.1 he)⟩

theorem PrevFound.endPrev {l : PrevLoop K V} (h : PrevFound c range l)
    (hst : st.direction = .reverse) :
    Inv c (endPrev st l) ∧ IsLast c.view range (endPrev st l).current := by
  rw [PrevFound] at h
  rw [IterSource.endPrev]
  cases hl : l.valueType with
  | deletion =>
    rw [hl] at h
    refine ⟨inv_of_not_valid rfl, ?_⟩
    exact fun e he => h e.1 e.2 (mem_view.1 he)
  | value =>
    rw [hl] at h
    obtain ⟨g, w, hkey, hvalue, hbehind, hrange, hmax⟩ := h
    refine ⟨fun _ => ?_, ?_⟩
    · simp only [hst]
      exact ⟨g, w, l.before, l.after, hkey, hvalue, rfl, hbehind⟩
    · simp only [DBIter.current, hst, if_true, hkey, hvalue, bind_some, map_some]
      exact ⟨mem_view.2 hbehind.shown, hrange, fun e he => hmax e.1 e.2 (mem_view.1 he)⟩

theorem isLast_none {st : DBIter K V} (hvalid : st.valid = false)
    (h : ∀ x ∈ c.entries, c.Visible x → ¬ range x.1.userKey) :
    Inv c st ∧ IsLast c.view range st.current := by
  refine ⟨inv_of_not_valid hvalid, ?_⟩
  rw [current_of_not_valid hvalid]
  intro e he
  obtain ⟨x, hx, hvisible, hkey⟩ := (mem_view.1 he).mem
  rw [← hkey]
  exact h x hx hvisible

theorem isFirst_none (hvalid : st.valid = false)
    (h : ∀ x ∈ c.entries, c.Visible x → ¬ range x.1.userKey) :
    Inv c st ∧ IsFirst c.view range st.current := by
  have hlast := isLast_none hvalid h
  rw [current_of_not_valid hvalid] at hlast ⊢
  exact hlast

theorem findPrevUserEntry_spec (hlower : ∀ a b, range b → a ≤ b → range a)
    {before after : List (Entry K V)} {st : DBIter K V} (hst : st.direction = .reverse)
    (hiter : st.iter = positionBefore after before) (hcut : c.entries = before.reverse ++ after)
    (hbefore : ∀ x ∈ before, c.Visible x → range x.1.userKey)
    (hafter : ∀ x ∈ after, c.Visible x → ¬ range x.1.userKey) :
    Inv c (c.findPrevUserEntry st) ∧ IsLast c.view range (c.findPrevUserEntry st).current := by
  rw [findPrevUserEntry, hiter]
  cases before with
  | nil => exact isLast_none rfl (by rw [hcut]; exact hafter)
  | cons e before =>
    refine PrevFound.endPrev (PrevSaved.findPrevLoop hlower hcut hbefore ?_) hst
    intro k v hrange hshown
    obtain ⟨x, hx, hvisible, rfl⟩ := hshown.mem
    exact hafter x hx hvisible hrange

/-! ## The calls -/

theorem nextInv_none {rest : List (Entry K V)} (hcut : c.entries = before.reverse ++ rest)
    (hbefore : ∀ x ∈ before, c.Visible x → ¬ range x.1.userKey)
    (hrest : ∀ x ∈ rest, c.Visible x → range x.1.userKey) : NextInv c range none before rest where
  cut := hcut
  passed x hx hvisible hrange := absurd hrange (hbefore x hx hvisible)
  skipped := fun k v ⟨s, hs, _⟩ => by cases hs
  ahead x hx hvisible := .inl (hrest x hx hvisible)
  above := fun _ _ _ s hs => by cases hs

theorem seekToFirst_spec (st : DBIter K V) :
    Inv c (c.seekToFirst st) ∧ IsFirst c.view (fun _ => True) (c.seekToFirst st).current := by
  rw [seekToFirst]
  cases hentries : c.entries with
  | nil => exact isFirst_none rfl (by rw [hentries]; exact fun x hx => by cases hx)
  | cons e after =>
    refine @NextInv.findNextUserEntry K V _ c (fun _ => True) none ⟨[], e, after⟩ ?_ _ rfl
    exact nextInv_none hentries (fun x hx => by cases hx) fun _ _ _ => trivial

theorem seekToLast_spec (st : DBIter K V) :
    Inv c (c.seekToLast st) ∧ IsLast c.view (fun _ => True) (c.seekToLast st).current :=
  @findPrevUserEntry_spec K V _ c (fun _ => True) (fun _ _ _ _ => trivial) c.entries.reverse [] _ rfl
    rfl (by rw [reverse_reverse, append_nil]) (fun _ _ _ => trivial)
    fun x hx => by cases hx

theorem lt_seekKey {target : K} (hvisible : c.Visible e) (h : e.1 < c.seekKey target) :
    e.1.userKey < target := by
  rcases InternalKey.lt_iff.1 h with hlt | ⟨-, hpacked⟩
  · exact hlt
  · have hsequence : e.1.sequence ≤ c.sequence := hvisible
    cases htype : e.1.type <;>
      simp only [seekKey, packSequenceAndType, htype] at hpacked <;> omega

theorem seek_spec (target : K) :
    Inv c (c.seek target) ∧ IsFirst c.view (fun k => target ≤ k) (c.seek target).current := by
  have hbelow : ∀ x ∈ c.entries.takeWhile (fun e => e.1 < c.seekKey target), c.Visible x →
      ¬ target ≤ x.1.userKey := by
    intro x hx hvisible
    have hlt := mem_takeWhile_imp hx
    exact (lt_seekKey hvisible (by simpa using hlt)).not_ge
  have hcut := takeWhile_append_dropWhile (p := fun e => decide (e.1 < c.seekKey target))
    (l := c.entries)
  rw [seek, seekEntries]
  cases hrest : c.entries.dropWhile (fun e => e.1 < c.seekKey target) with
  | nil =>
    rw [hrest, append_nil] at hcut
    exact isFirst_none rfl (by rw [← hcut]; exact hbelow)
  | cons e after =>
    refine NextInv.findNextUserEntry (p := ⟨_, e, after⟩) ?_ rfl
    have hentries : c.entries =
        (c.entries.takeWhile fun e => e.1 < c.seekKey target).reverse.reverse ++ e :: after := by
      rw [reverse_reverse, ← hrest, hcut]
    have hge : target ≤ e.1.userKey := by
      have hhead : ¬ e.1 < c.seekKey target := by
        have := head_dropWhile_not (fun e : Entry K V => decide (e.1 < c.seekKey target))
          (by rw [hrest]; exact cons_ne_nil e after)
        simpa [hrest] using this
      exact InternalKey.userKey_le (not_lt.1 hhead)
    refine nextInv_none hentries (fun x hx => hbelow x (mem_reverse.1 hx)) fun x hx _ => ?_
    rcases mem_cons.1 hx with rfl | hx
    · exact hge
    · exact hge.trans ((userKey_le_of_cut hentries).2 x hx)

theorem Shows.nextInv {p : Position K V} (h : Shows c p) :
    NextInv c (fun k => p.entry.1.userKey < k) (some p.entry.1.userKey) p.before
      (p.entry :: p.after) := by
  obtain ⟨hbefore, hafter⟩ := userKey_le_of_cut h.cut
  have hle : ∀ x ∈ p.entry :: p.after, p.entry.1.userKey ≤ x.1.userKey :=
    forall_mem_cons.2 ⟨le_rfl, hafter⟩
  refine ⟨h.cut, fun x hx _ hrange => absurd hrange (hbefore x hx).not_gt,
    fun k v ⟨s, hs, hk⟩ hrange => ?_, fun x hx _ => ?_, fun x hx _ s hs => ?_⟩
  · rw [← some.inj hs] at hk
    exact absurd hrange hk.not_gt
  · rcases (hle x hx).lt_or_eq with hlt | heq
    · exact .inl hlt
    · exact .inr ⟨_, rfl, heq.ge⟩
  · rw [← some.inj hs]
    exact hle x hx

theorem Behind.nextInv {w : V} (h : Behind c g w before after) :
    NextInv c (fun k => g < k) (some g) before after := by
  refine ⟨h.cut, fun x hx hvisible hrange => absurd hrange (h.below x hx hvisible).not_gt,
    fun k v ⟨s, hs, hk⟩ hrange => ?_, fun x hx hvisible => ?_, fun x hx hvisible s hs => ?_⟩
  · rw [← some.inj hs] at hk
    exact absurd hrange hk.not_gt
  · rcases (h.above x hx hvisible).lt_or_eq with hlt | heq
    · exact .inl hlt
    · exact .inr ⟨_, rfl, heq.ge⟩
  · rw [← some.inj hs]
    exact h.above x hx hvisible

theorem Behind.enterKey {w : V} (h : Behind c g w before after) : ∃ e rest, after = e :: rest ∧
      c.enterKey (positionBefore after before) = some ⟨before, e, rest⟩ := by
  obtain ⟨x, hx, hvisible, hkey⟩ := h.shown.mem
  have hafter : after ≠ [] := by
    rintro rfl
    rw [h.cut, append_nil, mem_reverse] at hx
    exact absurd hkey (h.below x hx hvisible).ne
  obtain ⟨e, rest, rfl⟩ := exists_cons_of_ne_nil hafter
  refine ⟨e, rest, rfl, ?_⟩
  cases before with
  | nil =>
    show positionAt [] c.entries = _
    rw [h.cut]
    rfl
  | cons b before => rfl

theorem next_spec (h : Inv c st) (hvalid : st.valid = true) :
    ∃ st', c.next st = .ok st' ∧ Inv c st' ∧
      ∃ e, st.current = some e ∧ IsFirst c.view (fun k => e.1 < k) st'.current := by
  have hinv := h hvalid
  rw [next, if_neg (by rw [hvalid]; decide), DBIter.current, if_pos hvalid]
  cases hdirection : st.direction with
  | forward =>
    simp only [hdirection] at hinv
    obtain ⟨p, hp, hshows⟩ := hinv
    obtain ⟨hinv', hfirst⟩ := hshows.nextInv.findNextUserEntry hdirection
    simp only [hp]
    exact ⟨_, rfl, hinv', _, rfl, hfirst⟩
  | reverse =>
    simp only [hdirection] at hinv
    obtain ⟨g, w, before, after, hkey, hvalue, hiter, hbehind⟩ := hinv
    obtain ⟨e, rest, rfl, henter⟩ := hbehind.enterKey
    obtain ⟨hinv', hfirst⟩ := @NextInv.findNextUserEntry K V _ c _ _ ⟨before, e, rest⟩
      hbehind.nextInv { st with iter := some ⟨before, e, rest⟩, direction := .forward } rfl
    simp only [hiter, hkey, hvalue, henter]
    exact ⟨_, rfl, hinv', (g, w), rfl, hfirst⟩

theorem leaveKey_spec (hcut : c.entries = before.reverse ++ after)
    (hafter : ∀ x ∈ after, g ≤ x.1.userKey) :
    ∃ before' after', leaveKey g before after = positionBefore after' before' ∧
      c.entries = before'.reverse ++ after' ∧ (∀ x ∈ before', x.1.userKey < g) ∧
      ∀ x ∈ after', g ≤ x.1.userKey := by
  induction before generalizing after with
  | nil => exact ⟨[], after, rfl, hcut, by simp, hafter⟩
  | cons e before ih =>
    have hcut' : c.entries = before.reverse ++ e :: after := by
      rw [hcut, reverse_cons, append_assoc, singleton_append]
    rw [leaveKey]
    split_ifs with hlt
    · refine ⟨e :: before, after, rfl, hcut, ?_, hafter⟩
      exact forall_mem_cons.2 ⟨hlt, fun x hx =>
        ((userKey_le_of_cut hcut').1 x hx).trans_lt hlt⟩
    · exact ih hcut' (forall_mem_cons.2 ⟨not_lt.1 hlt, hafter⟩)

theorem prev_spec (h : Inv c st) (hvalid : st.valid = true) :
    ∃ st', c.prev st = .ok st' ∧ Inv c st' ∧
      ∃ e, st.current = some e ∧ IsLast c.view (fun k => k < e.1) st'.current := by
  have hinv := h hvalid
  rw [prev, if_neg (by rw [hvalid]; decide), DBIter.current, if_pos hvalid]
  cases hdirection : st.direction with
  | forward =>
    simp only [hdirection] at hinv
    obtain ⟨p, hp, hshows⟩ := hinv
    obtain ⟨before, after, hleave, hcut, hbefore, hafter⟩ := leaveKey_spec hshows.cut
      (forall_mem_cons.2 ⟨le_rfl, (userKey_le_of_cut hshows.cut).2⟩)
    simp only [hp, hleave]
    cases before with
    | nil =>
      refine ⟨_, rfl, ?_⟩
      obtain ⟨hinv', hlast⟩ := @isLast_none K V _ c (fun k => k < p.entry.1.userKey)
        ⟨none, none, none, .forward, false⟩ rfl (by
          rw [hcut]
          exact fun x hx _ => (hafter x hx).not_gt)
      exact ⟨hinv', _, rfl, hlast⟩
    | cons e before =>
      refine ⟨_, rfl, ?_⟩
      obtain ⟨hinv', hlast⟩ := @findPrevUserEntry_spec K V _ c (fun k => k < p.entry.1.userKey)
        (fun a b hb hab => hab.trans_lt hb) (e :: before) after
        ⟨some ⟨before, e, after⟩, some p.entry.1.userKey, st.savedValue, .reverse, st.valid⟩ rfl rfl
        hcut (fun x hx _ => hbefore x hx) fun x hx _ => (hafter x hx).not_gt
      exact ⟨hinv', _, rfl, hlast⟩
  | reverse =>
    simp only [hdirection] at hinv
    obtain ⟨g, w, before, after, hkey, hvalue, hiter, hbehind⟩ := hinv
    obtain ⟨hinv', hlast⟩ := @findPrevUserEntry_spec K V _ c (fun k => k < g)
      (fun a b hb hab => hab.trans_lt hb) before after st hdirection hiter hbehind.cut
      hbehind.below fun x hx hvisible => (hbehind.above x hx hvisible).not_gt
    refine ⟨_, rfl, hinv', (g, w), ?_, hlast⟩
    rw [hkey, hvalue]
    rfl

theorem implements_step : Implements c.view c.step DBIter.current (Inv c) where
  fails st m hinv hm hnone := by
    have hvalid := hinv.valid_iff.1 hnone
    cases m with
    | next | prev => exact if_pos hvalid
    | _ => exact hm.elim
  reaches st m hinv hm := by
    have hvalid : m.Relative → st.valid = true := fun hrel => by
      rw [← Bool.not_eq_false]
      exact fun hfalse => hm hrel (hinv.valid_iff.2 hfalse)
    cases m with
    | seekToFirst => exact ⟨_, rfl, seekToFirst_spec st⟩
    | seekToLast => exact ⟨_, rfl, seekToLast_spec st⟩
    | seek target => exact ⟨_, rfl, seek_spec target⟩
    | next => exact next_spec hinv (hvalid trivial)
    | prev => exact prev_spec hinv (hvalid trivial)

/-! ## The iterator is a cursor -/

/-- The list has each user key whose newest visible entry is a value, with this value, in order. -/
structure IsView (c : IterSource K V) (l : List (K × V)) : Prop where
  sorted : Sorted l
  mem_iff : ∀ k v, (k, v) ∈ l ↔ ∃ e ∈ c.entries, c.Visible e ∧ e.1.userKey = k ∧
    e.1.type = .value ∧ e.2 = v ∧ ∀ e' ∈ c.entries, c.Visible e' → e'.1.userKey = k → e.1 ≤ e'.1

theorem newestIn_eq_some_iff :
    c.newestIn c.entries k = some e ↔ e ∈ c.entries ∧ c.Visible e ∧ e.1.userKey = k ∧
      ∀ e' ∈ c.entries, c.Visible e' → e'.1.userKey = k → e.1 ≤ e'.1 := by
  -- the entries before the one that is found do not qualify, and those after it are larger
  have hfirst : ∀ {e e'}, c.newestIn c.entries k = some e → e' ∈ c.entries → c.Visible e' →
      e'.1.userKey = k → e' = e ∨ e.1 < e'.1 := by
    intro e e' h he' hvisible' hkey'
    obtain ⟨-, l₁, l₂, hcut, hnot⟩ := find?_eq_some_iff_append.1 h
    have hsorted := c.sorted
    rw [hcut, mem_append, mem_cons] at he'
    rw [hcut, pairwise_append, pairwise_cons] at hsorted
    rcases he' with he' | rfl | he'
    · simpa [hkey', hvisible'] using hnot e' he'
    · exact .inl rfl
    · exact .inr (hsorted.2.1.1 e' he')
  constructor
  · intro h
    obtain ⟨hmem, hkey, hvisible⟩ := newestIn_eq_some h
    refine ⟨hmem, hvisible, hkey, fun e' he' hvisible' hkey' => ?_⟩
    rcases hfirst h he' hvisible' hkey' with rfl | hlt
    · exact le_rfl
    · exact hlt.le
  · rintro ⟨hmem, hvisible, hkey, hmin⟩
    cases h : c.newestIn c.entries k with
    | none =>
      have := find?_eq_none.1 h e hmem
      simp [hkey, hvisible] at this
    | some e' =>
      obtain ⟨hmem', hkey', hvisible'⟩ := newestIn_eq_some h
      rcases hfirst h hmem hvisible hkey with rfl | hlt
      · rfl
      · exact absurd hlt (hmin e' hmem' hvisible' hkey').not_gt

theorem isView_view : IsView c c.view where
  sorted := sorted_view
  mem_iff k v := by
    rw [mem_view, ShownIn]
    simp only [newestIn_eq_some_iff]
    constructor
    · rintro ⟨e, ⟨hmem, hvisible, hkey, hmin⟩, htype, hvalue⟩
      exact ⟨e, hmem, hvisible, hkey, htype, hvalue, hmin⟩
    · rintro ⟨e, hmem, hvisible, hkey, htype, hvalue, hmin⟩
      exact ⟨e, ⟨hmem, hvisible, hkey, hmin⟩, htype, hvalue⟩

/-- The iterator after a sequence of calls, or `notValid` if `Next` or `Prev` was called on an
iterator that was not valid. -/
def run (c : IterSource K V) (ms : List (Move K)) : Except CursorError (DBIter K V) :=
  ms.foldlM c.step init

theorem run_agree (c : IterSource K V) (ms : List (Move K)) :
    Agree (Tracks c.view DBIter.current (Inv c)) (c.run ms) (ms.foldlM (move c.view) none) :=
  implements_step.agree_moves sorted_view (inv_of_not_valid rfl) rfl ms

/-- Along every sequence of calls the iterator is a cursor over the view of the snapshot, and a step
to a neighbour and back returns to the same pair. -/
theorem dbIter_is_cursor (c : IterSource K V) : IsView c c.view ∧
    (∀ ms, (c.run ms).map DBIter.current = (ms.foldlM (move c.view) none).map (get c.view)) ∧
    ∀ ms st st₁, c.run ms = .ok st → (c.step st .prev = .ok st₁ → st₁.valid = true →
        ∃ st₂, c.step st₁ .next = .ok st₂ ∧ st₂.current = st.current) ∧
      (c.step st .next = .ok st₁ → st₁.valid = true →
        ∃ st₂, c.step st₁ .prev = .ok st₂ ∧ st₂.current = st.current) := by
  refine ⟨isView_view, fun ms => (run_agree c ms).map_eq fun _ _ h => h.2.2, fun ms st st₁ h => ?_⟩
  obtain ⟨pos, -, htracks⟩ := (run_agree c ms).exists_of_ok h
  have hcurrent : ∀ {m}, c.step st m = .ok st₁ → st₁.valid = true → st₁.current ≠ none := by
    intro m hstep hvalid hnone
    obtain ⟨-, -, hinv, -⟩ := (implements_step.agree_move sorted_view st pos m htracks).exists_of_ok
      hstep
    rw [hinv.valid_iff.1 hnone] at hvalid
    cases hvalid
  exact ⟨fun hstep hvalid => implements_step.back sorted_view htracks
      (fun _ => move_prev_next htracks.2.1) hstep (hcurrent hstep hvalid),
    fun hstep hvalid => implements_step.back sorted_view htracks
      (fun _ => move_next_prev) hstep (hcurrent hstep hvalid)⟩

/-- Three user keys: one with an update that the snapshot does not see, one deleted, one plain. -/
def threeKeys : IterSource ℕ ℕ where
  entries :=
    [(⟨1, 7, .value, by decide⟩, 10), (⟨1, 3, .value, by decide⟩, 11),
      (⟨2, 5, .deletion, by decide⟩, 0), (⟨2, 3, .value, by decide⟩, 20),
      (⟨3, 3, .value, by decide⟩, 30)]
  sequence := 5
  sorted := by simp [InternalKey.lt_iff, packSequenceAndType]
  sequence_le := by decide

theorem dbIter_is_cursor_threeKeys : threeKeys.view = [(1, 11), (3, 30)] ∧
      (threeKeys.run [.seekToLast, .prev, .next]).map DBIter.current = .ok (some (3, 30)) := by
  have hview : threeKeys.view = [(1, 11), (3, 30)] := by decide
  refine ⟨hview, ((dbIter_is_cursor threeKeys).2.1 _).trans ?_⟩
  rfl

end ServerStack.Leveldb.IterSource
