import ServerStack.Leveldb.Version

/-!
# `Version::Get` returns the newest visible entry

A table answers with its newest visible entry of the user key, because the first entry at or after
the lookup key is that one.  At a level of sorted files the same holds for the one file that the
binary search finds.  The levels, and the files of level 0 by their numbers, are sources of
decreasing age.
-/

namespace ServerStack.Leveldb

open LowerBound ReadOrder List Option

variable {K V : Type} [LinearOrder K]

/-! ## What a version has to satisfy -/

def Entry.userKey (e : Entry K V) : K := e.1.userKey

def Entry.sequence (e : Entry K V) : ℕ := e.1.sequence

def TableFile.items (f : TableFile K V) : Set (Entry K V) := {e | e ∈ f.entries}

def Version.items (v : Version K V) (level : ℕ) : Set (Entry K V) :=
  {e | ∃ f ∈ v.files level, e ∈ f.items}

def Version.allItems (v : Version K V) : Set (Entry K V) :=
  {e | ∃ level ∈ List.range kNumLevels, e ∈ v.items level}

structure WellOrdered (v : Version K V) : Prop where
  sorted : ∀ level, 1 ≤ level → SortedLevel ((v.files level).map TableFile.toFileMetaData)
  numbers : ((v.files 0).map fun f => f.number).Nodup
  level0 : ∀ f ∈ v.files 0, ∀ g ∈ v.files 0, g.number < f.number →
    Newer Entry.userKey Entry.sequence f.items g.items
  levels : ∀ i j, i < j → Newer Entry.userKey Entry.sequence (v.items i) (v.items j)

def firstAtOrAfter (key : InternalKey K) (entries : List (Entry K V)) : Option (Entry K V) :=
  entries.find? fun e => decide (key ≤ e.1)

/-- A table passes on the first entry at or after the key if it has the user key of the lookup, and
no entry of that user key otherwise. -/
def TableLookup (tableGet : TableFile K V → InternalKey K → Option (Entry K V)) : Prop :=
  ∀ f key, (∀ e, firstAtOrAfter key f.entries = some e → e.1.userKey = key.userKey →
      tableGet f key = some e) ∧
    ((∀ e, firstAtOrAfter key f.entries = some e → e.1.userKey ≠ key.userKey) →
      ∀ e, tableGet f key = some e → e.1.userKey ≠ key.userKey)

/-! ## One table -/

variable {userKey : K} {sequence : ℕ} {hsequence : sequence ≤ kMaxSequenceNumber} {e : Entry K V}

theorem visible_iff : Visible Entry.userKey Entry.sequence userKey sequence e ↔
      e.1.userKey = userKey ∧ lookupKey userKey sequence hsequence ≤ e.1 := by
  unfold Visible Entry.userKey Entry.sequence
  constructor
  · rintro ⟨hkey, hle⟩
    refine ⟨hkey, not_lt.1 fun hlt => ?_⟩
    rcases InternalKey.lt_iff.1 hlt with hlt | ⟨-, hpacked⟩
    · exact absurd hkey hlt.ne
    · unfold lookupKey at hpacked
      cases htype : e.1.type <;> simp only [htype, packSequenceAndType] at hpacked <;> omega
  · rintro ⟨hkey, hle⟩
    exact ⟨hkey, InternalKey.sequence_le_of_le hle hkey.symm⟩

theorem firstAtOrAfter_eq_some {key : InternalKey K} {entries : List (Entry K V)}
    (hsorted : entries.Pairwise fun a b => a.1 < b.1) (h : firstAtOrAfter key entries = some e) :
    e ∈ entries ∧ key ≤ e.1 ∧ ∀ e' ∈ entries, key ≤ e'.1 → e.1 ≤ e'.1 := by
  obtain ⟨hle, before, after, rfl, hbefore⟩ := find?_eq_some_iff_append.1 h
  refine ⟨by simp, by simpa using hle, fun e' he' hle' => ?_⟩
  rcases mem_append.1 he' with hmem | hmem
  · exact absurd hle' (by simpa using hbefore e' hmem)
  · rcases mem_cons.1 hmem with rfl | hmem
    · exact le_rfl
    · exact ((pairwise_cons.1 (pairwise_append.1 hsorted).2.1).1 e' hmem).le

theorem lt_of_firstAtOrAfter_eq_none {key : InternalKey K} {entries : List (Entry K V)}
    (h : firstAtOrAfter key entries = none) (he : e ∈ entries) : e.1 < key := by
  have := find?_eq_none.1 h e he
  simpa using this

section

variable {tableGet : TableFile K V → InternalKey K → Option (Entry K V)}

/-- What a table contributes to a search: the entry passed on, if it has the user key. -/
def fileAnswer (tableGet : TableFile K V → InternalKey K → Option (Entry K V))
    (ikey : InternalKey K) (f : TableFile K V) : Option (Entry K V) :=
  (tableGet f ikey).filter fun e => decide (e.1.userKey = ikey.userKey)

theorem fileAnswer_eq_some {ikey : InternalKey K} {f : TableFile K V}
    (hget : tableGet f ikey = some e) (hkey : e.1.userKey = ikey.userKey) :
    fileAnswer tableGet ikey f = some e := by
  unfold fileAnswer
  rw [hget, filter_some, if_pos (decide_eq_true hkey)]

theorem fileAnswer_eq_none {ikey : InternalKey K} {f : TableFile K V}
    (h : ∀ e, tableGet f ikey = some e → e.1.userKey ≠ ikey.userKey) :
    fileAnswer tableGet ikey f = none := by
  unfold fileAnswer
  cases hget : tableGet f ikey with
  | none => rfl
  | some e => rw [filter_some, if_neg (by simpa using h e hget)]

theorem TableLookup.answers (hlookup : TableLookup tableGet) (f : TableFile K V) :
    Answers Entry.userKey Entry.sequence userKey sequence f.items
      (fileAnswer tableGet (lookupKey userKey sequence hsequence) f) := by
  set ikey := lookupKey userKey sequence hsequence
  obtain ⟨hhit, hmiss⟩ := hlookup f ikey
  by_cases hfound : ∃ e, firstAtOrAfter ikey f.entries = some e ∧ e.1.userKey = userKey
  · obtain ⟨e, hfirst, hkey⟩ := hfound
    obtain ⟨hmem, hle, hmin⟩ := firstAtOrAfter_eq_some f.sorted hfirst
    rw [fileAnswer_eq_some (hhit e hfirst hkey) hkey]
    refine ⟨hmem, visible_iff.2 ⟨hkey, hle⟩, fun e' he' hvisible => ?_⟩
    obtain ⟨hkey', hle'⟩ := visible_iff.1 hvisible
    exact InternalKey.sequence_le_of_le (hmin e' he' hle') (hkey.trans hkey'.symm)
  · have hother : ∀ e, firstAtOrAfter ikey f.entries = some e →
        e.1.userKey ≠ userKey := fun e hfirst hkey => hfound ⟨e, hfirst, hkey⟩
    rw [fileAnswer_eq_none (hmiss hother)]
    intro e' he' hvisible
    obtain ⟨hkey', hle'⟩ := visible_iff.1 hvisible
    cases hfirst : firstAtOrAfter ikey f.entries with
    | none => exact absurd hle' (not_le.2 (lt_of_firstAtOrAfter_eq_none hfirst he'))
    | some e =>
      -- The first entry at or after the key lies between the key and the visible entry.
      obtain ⟨-, hle, hmin⟩ := firstAtOrAfter_eq_some f.sorted hfirst
      refine hother e hfirst (le_antisymm ?_ (InternalKey.userKey_le hle))
      rw [← hkey']
      exact InternalKey.userKey_le (hmin e' he' hle')

/-! ## One level -/

theorem Version.answers_level_zero (hlookup : TableLookup tableGet) {v : Version K V}
    (h : WellOrdered v) :
    Answers Entry.userKey Entry.sequence userKey sequence (v.items 0)
      ((v.filesToSearch (lookupKey userKey sequence hsequence) 0).findSome?
        (fileAnswer tableGet (lookupKey userKey sequence hsequence))) := by
  set ikey := lookupKey userKey sequence hsequence
  have hperm : (v.filesToSearch ikey 0).Perm
      ((v.files 0).filter fun f => decide (f.Covers userKey)) := by
    exact mergeSort_perm _ _
  have hmem : ∀ f, f ∈ v.filesToSearch ikey 0 ↔ f ∈ v.files 0 ∧ f.Covers userKey := by
    intro f
    rw [hperm.mem_iff, mem_filter, decide_eq_true_eq]
  have hordered : (v.filesToSearch ikey 0).Pairwise fun f g =>
      Newer Entry.userKey Entry.sequence f.items g.items := by
    have hnodup : ((v.filesToSearch ikey 0).map fun f => f.number).Nodup := by
      refine (hperm.map _).nodup_iff.2 (h.numbers.sublist ?_)
      exact filter_sublist.map _
    have hdescending : (v.filesToSearch ikey 0).Pairwise fun f g => g.number ≤ f.number := by
      refine (pairwise_mergeSort (fun a b c hab hbc => ?_) (fun a b => ?_) _).imp
        (fun hab => of_decide_eq_true hab)
      · simp only [decide_eq_true_eq] at hab hbc ⊢
        omega
      · simp only [Bool.or_eq_true, decide_eq_true_eq]
        omega
    have hdistinct : (v.filesToSearch ikey 0).Pairwise
        fun f g => f.number ≠ g.number := pairwise_map.1 (nodup_iff_pairwise_ne.1 hnodup)
    refine (hdescending.and hdistinct).imp_of_mem fun {f g} hf hg hfg => ?_
    exact h.level0 f ((hmem f).1 hf).1 g ((hmem g).1 hg).1 (lt_of_le_of_ne hfg.1 (Ne.symm hfg.2))
  have hread := @answers_findSome _ _ _ _ userKey sequence _ TableFile.items
    (fileAnswer tableGet ikey) _ hordered
    fun f _ => hlookup.answers f
  -- A file whose range does not have the key holds no entry of it.
  have hcovers : ∀ e ∈ v.items 0, e.1.userKey = userKey →
      ∃ f ∈ v.filesToSearch ikey 0, e ∈ f.items := by
    rintro e ⟨f, hf, he⟩ hkey
    refine ⟨f, (hmem f).2 ⟨hf, ?_⟩, he⟩
    rw [← hkey]
    exact ⟨InternalKey.userKey_le (f.smallest_le he), InternalKey.userKey_le (f.le_largest he)⟩
  cases hr : (v.filesToSearch ikey 0).findSome? (fileAnswer tableGet ikey) with
  | none =>
    rw [hr] at hread
    intro e he hvisible
    exact hread e (hcovers e he hvisible.1) hvisible
  | some e =>
    rw [hr] at hread
    obtain ⟨⟨f, hf, he⟩, hvisible, hmax⟩ := hread
    refine ⟨⟨f, ((hmem f).1 hf).1, he⟩, hvisible, fun e' he' hvisible' => ?_⟩
    exact hmax e' (hcovers e' he' hvisible'.1) hvisible'

theorem findFile_spec {files : List (TableFile K V)}
    (h : SortedLevel (files.map TableFile.toFileMetaData)) (key : InternalKey K) :
    (∀ i f, i < findFile files key → files[i]? = some f → f.largest < key) ∧
      ∀ i f, findFile files key ≤ i → files[i]? = some f → key ≤ f.largest := by
  have hpairwise : files.Pairwise fun f g => f.largest < g.smallest := pairwise_map.1 h.disjoint
  have hmono : ∀ i j, i ≤ j → j < files.length →
      (files[j]?.any fun f => decide (f.largest < key)) = true →
      (files[i]?.any fun f => decide (f.largest < key)) = true := by
    intro i j hij hj hlt
    rw [getElem?_eq_getElem hj, any_some, decide_eq_true_eq] at hlt
    rw [getElem?_eq_getElem (by omega), any_some, decide_eq_true_eq]
    rcases hij.lt_or_eq with hij | rfl
    · have hfiles := pairwise_iff_getElem.1 hpairwise i j (by omega) hj hij
      exact hfiles.trans (lt_of_le_of_lt (TableFile.smallest_le_largest _) hlt)
    · exact hlt
  obtain ⟨-, hbefore, hafter⟩ := lowerBound_spec hmono
  constructor
  · intro i f hi hf
    have := hbefore i hi
    rwa [hf, any_some, decide_eq_true_eq] at this
  · intro i f hi hf
    obtain ⟨hlt, -⟩ := List.getElem?_eq_some_iff.1 hf
    have := hafter i hi hlt
    rw [hf, any_some, decide_eq_false_iff_not] at this
    exact not_lt.1 this

theorem Version.answers_level (hlookup : TableLookup tableGet) {v : Version K V}
    (h : WellOrdered v) {level : ℕ} (hlevel : 1 ≤ level) :
    Answers Entry.userKey Entry.sequence userKey sequence (v.items level)
      ((v.filesToSearch (lookupKey userKey sequence hsequence) level).findSome?
        (fileAnswer tableGet (lookupKey userKey sequence hsequence))) := by
  set ikey := lookupKey userKey sequence hsequence
  have hsorted := h.sorted level hlevel
  obtain ⟨hbefore, hafter⟩ := findFile_spec hsorted ikey
  have hpairwise : (v.files level).Pairwise fun f g => f.largest < g.smallest :=
    pairwise_map.1 hsorted.disjoint
  -- Only the file found can hold a visible entry, or one at or after it.
  have hposition : ∀ e ∈ v.items level,
      Visible Entry.userKey Entry.sequence userKey sequence e → ∃ i f,
        findFile (v.files level) ikey ≤ i ∧
        (v.files level)[i]? = some f ∧ e ∈ f.items := by
    rintro e ⟨f, hf, he⟩ hvisible
    obtain ⟨i, hi, rfl⟩ := mem_iff_getElem.1 hf
    refine ⟨i, _, ?_, getElem?_eq_getElem hi, he⟩
    by_contra hlt
    have hlargest := hbefore i _ (not_le.1 hlt) (getElem?_eq_getElem hi)
    have hle := (@visible_iff _ _ _ _ _ hsequence _).1 hvisible
    exact absurd (hle.2.trans (TableFile.le_largest _ he)) (not_le.2 hlargest)
  unfold Version.filesToSearch
  rw [if_neg (by omega)]
  cases hfile : (v.files level)[findFile (v.files level) ikey]? with
  | none =>
    intro e he hvisible
    obtain ⟨i, f, hi, hf, -⟩ := hposition e he hvisible
    have := List.getElem?_eq_none_iff.1 hfile
    obtain ⟨hlt, -⟩ := List.getElem?_eq_some_iff.1 hf
    omega
  | some f =>
    obtain ⟨hindex, hget⟩ := List.getElem?_eq_some_iff.1 hfile
    have hf : f ∈ v.files level := mem_of_getElem? hfile
    -- The files after the one found begin after its end.
    have hlater : ∀ e ∈ v.items level,
        Visible Entry.userKey Entry.sequence userKey sequence e → e ∉ f.items →
        f.largest < e.1 := by
      intro e he hvisible hnot
      obtain ⟨i, g, hi, hg, heg⟩ := hposition e he hvisible
      obtain ⟨hlt, rfl⟩ := List.getElem?_eq_some_iff.1 hg
      rcases hi.lt_or_eq with hi | heq
      · have hfiles := pairwise_iff_getElem.1 hpairwise _ i hindex hlt hi
        rw [hget] at hfiles
        exact lt_of_lt_of_le hfiles (TableFile.smallest_le _ heg)
      · exfalso
        apply hnot
        rw [← hget]
        simpa only [heq] using heg
    simp only
    by_cases hpast : ikey.userKey < f.smallest.userKey
    · rw [if_pos hpast]
      intro e he hvisible
      have hsmallest : f.smallest ≤ e.1 := by
        by_cases hmem : e ∈ f.items
        · exact f.smallest_le hmem
        · exact f.smallest_le_largest.trans (hlater e he hvisible hmem).le
      have := InternalKey.userKey_le hsmallest
      rw [show e.1.userKey = userKey from hvisible.1] at this
      exact absurd hpast (not_lt.2 this)
    · rw [if_neg hpast]
      have hone := @TableLookup.answers _ _ _ userKey sequence hsequence _ hlookup f
      simp only [findSome?_cons, findSome?_nil]
      -- An entry at or after the key in this file hides the later files.
      have hlargest := hafter _ f le_rfl hfile
      cases hr : fileAnswer tableGet ikey f with
      | none =>
        rw [hr] at hone
        intro e he hvisible
        by_cases hmem : e ∈ f.items
        · exact hone e hmem hvisible
        · obtain ⟨before, last, hentries, hlast⟩ := f.exists_largest
          have hmem' : last ∈ f.entries := by rw [hentries]; simp
          refine hone last hmem' (visible_iff.2 ⟨?_, hlast ▸ hlargest⟩)
          rw [hlast]
          have hle := InternalKey.userKey_le (hlater e he hvisible hmem).le
          rw [show e.1.userKey = userKey from hvisible.1] at hle
          exact le_antisymm hle (InternalKey.userKey_le hlargest)
      | some e =>
        rw [hr] at hone
        obtain ⟨hmem, hvisible, hmax⟩ := hone
        refine ⟨⟨f, hf, hmem⟩, hvisible, fun e' he' hvisible' => ?_⟩
        by_cases hmem' : e' ∈ f.items
        · exact hmax e' hmem' hvisible'
        · refine InternalKey.sequence_le_of_le ?_ (hvisible.1.trans hvisible'.1.symm)
          exact (f.le_largest hmem).trans (hlater e' he' hvisible' hmem').le

/-! ## The search -/

/-- What `Get` returns for the newest visible entry, if any. -/
def statusOf : Option (Entry K V) → GetStatus V
  | none => .notFound
  | some e =>
    match e.1.type with
    | .value => .ok e.2
    | .deletion => .notFound

theorem searchFiles_fst (ikey : InternalKey K) (level : ℕ) (files : List (TableFile K V))
    (st : ReadState K V) :
    (searchFiles tableGet ikey level files st).1 =
      (files.findSome? (fileAnswer tableGet ikey)).map fun e => statusOf (some e) := by
  induction files generalizing st with
  | nil => rfl
  | cons f files ih =>
    rw [searchFiles, findSome?_cons]
    cases hget : tableGet f ikey with
    | none =>
      rw [fileAnswer_eq_none fun e he => by rw [hget] at he; cases he]
      exact ih _
    | some e =>
      by_cases hkey : e.1.userKey = ikey.userKey
      · rw [fileAnswer_eq_some hget hkey]
        cases htype : e.1.type <;> simp [saveValue, statusOf, hkey, htype]
      · rw [fileAnswer_eq_none fun e' he' => by
          rw [hget] at he'
          rwa [← some.inj he']]
        simp only [elim_some, saveValue, if_neg hkey]
        exact ih _

theorem searchLevels_fst (v : Version K V) (ikey : InternalKey K) (levels : List ℕ)
    (st : ReadState K V) :
    (searchLevels tableGet v ikey levels st).1 = statusOf (levels.findSome? fun level =>
      (v.filesToSearch ikey level).findSome? (fileAnswer tableGet ikey)) := by
  induction levels generalizing st with
  | nil => rfl
  | cons level levels ih =>
    have hfiles := @searchFiles_fst K V _ tableGet ikey level (v.filesToSearch ikey level) st
    rw [searchLevels, findSome?_cons]
    cases hanswer : (v.filesToSearch ikey level).findSome? (fileAnswer tableGet ikey) with
    | none =>
      rw [hanswer] at hfiles
      rcases hsearch : searchFiles tableGet ikey level (v.filesToSearch ikey level) st with ⟨r, st'⟩
      rw [hsearch] at hfiles
      subst hfiles
      exact ih st'
    | some e =>
      rw [hanswer] at hfiles
      rcases hsearch : searchFiles tableGet ikey level (v.filesToSearch ikey level) st with ⟨r, st'⟩
      rw [hsearch] at hfiles
      subst hfiles
      rfl

/-- `Get` returns the value of the newest visible entry, and that there is none if it is a deletion
or does not exist. -/
theorem version_get_newest (hlookup : TableLookup tableGet) {v : Version K V} (h : WellOrdered v)
    (userKey : K) {sequence : ℕ} (hsequence : sequence ≤ kMaxSequenceNumber) :
    ∃ newest, Answers Entry.userKey Entry.sequence userKey sequence v.allItems newest ∧
      (v.get tableGet (lookupKey userKey sequence hsequence)).1 = statusOf newest := by
  refine ⟨_, ?_, searchLevels_fst v (lookupKey userKey sequence hsequence) (List.range kNumLevels)
    ⟨none, none⟩⟩
  apply answers_findSome
  · exact pairwise_lt_range.imp fun {i j} hij => h.levels i j hij
  · intro level _
    cases level with
    | zero => exact v.answers_level_zero hlookup h
    | succ level => exact v.answers_level hlookup h (Nat.succ_pos level)

end

/-- Two files of level 1, with the versions of user key 3 in both. -/
def straddlingVersion : Version ℕ ℕ where
  files level :=
    if level = 1 then
      [{ number := 5
         smallest := ⟨1, 9, .value, by decide⟩
         largest := ⟨3, 8, .deletion, by decide⟩
         entries := [(⟨1, 9, .value, by decide⟩, 10), (⟨3, 8, .deletion, by decide⟩, 0)]
         sorted := by decide
         smallest_eq := rfl
         largest_eq := rfl },
       { number := 6
         smallest := ⟨3, 4, .value, by decide⟩
         largest := ⟨7, 4, .value, by decide⟩
         entries := [(⟨3, 4, .value, by decide⟩, 40), (⟨7, 4, .value, by decide⟩, 70)]
         sorted := by decide
         smallest_eq := rfl
         largest_eq := rfl }]
    else []

theorem straddlingVersion_files {level : ℕ} {f : TableFile ℕ ℕ}
    (h : f ∈ straddlingVersion.files level) : level = 1 := by
  by_contra hlevel
  change f ∈ ite (level = 1) _ _ at h
  rw [if_neg hlevel] at h
  cases h

theorem straddlingVersion_wellOrdered : WellOrdered straddlingVersion where
  sorted level _ := by
    by_cases hlevel : level = 1
    · subst hlevel
      exact ⟨by decide, by decide⟩
    · have hnil : straddlingVersion.files level = [] :=
        eq_nil_iff_forall_not_mem.2 fun f hf => hlevel (straddlingVersion_files hf)
      rw [hnil]
      exact ⟨by simp, List.Pairwise.nil⟩
  numbers := nodup_nil
  level0 f hf := absurd (straddlingVersion_files hf) (by decide)
  levels i j hij a ha b hb := by
    obtain ⟨f, hf, -⟩ := ha
    obtain ⟨g, hg, -⟩ := hb
    have hi := straddlingVersion_files hf
    have hj := straddlingVersion_files hg
    omega

theorem tableLookup_firstAtOrAfter :
    TableLookup fun (f : TableFile K V) key => firstAtOrAfter key f.entries :=
  fun _ _ => ⟨fun _ hfirst _ => hfirst, fun hother e he => hother e he⟩

theorem version_get_newest_straddling :
    (∃ newest, Answers Entry.userKey Entry.sequence 3 5 straddlingVersion.allItems newest ∧
      (straddlingVersion.get (fun f key => firstAtOrAfter key f.entries)
        (lookupKey 3 5 (by decide))).1 = statusOf newest) ∧
    (straddlingVersion.get (fun f key => firstAtOrAfter key f.entries)
      (lookupKey 3 5 (by decide))).1 = .ok 40 :=
  ⟨version_get_newest tableLookup_firstAtOrAfter straddlingVersion_wellOrdered 3 (by decide),
    by decide +kernel⟩

end ServerStack.Leveldb
