import ServerStack.Leveldb.Format

/-!
# What a compaction drops

The loop of `DBImpl::DoCompactionWork` that goes through the entries of the input files in order
and decides which ones to keep, with `Compaction::IsBaseLevelForKey` and its cursors into the
levels below the output.  Every snapshot that is still in use sees the same after the compaction;
only a deletion may be gone, with everything it hides, where no deeper level has the key.
-/

namespace ServerStack.Leveldb

open List Function

variable {K V : Type*} [LinearOrder K]

def kNumLevels : ℕ := 7

def FileMetaData.Covers (f : FileMetaData K) (userKey : K) : Prop :=
  f.smallest.userKey ≤ userKey ∧ userKey ≤ f.largest.userKey

instance (f : FileMetaData K) (userKey : K) : Decidable (f.Covers userKey) :=
  inferInstanceAs (Decidable (_ ∧ _))

/-! ## `IsBaseLevelForKey` -/

/-- The inner loop, over the files from the cursor on: whether a file has the key in its range, and
the cursor. -/
def scanLevel (userKey : K) : List (FileMetaData K) → ℕ → Bool × ℕ
  | [], ptr => (false, ptr)
  | f :: files, ptr =>
    if userKey ≤ f.largest.userKey then (decide (f.smallest.userKey ≤ userKey), ptr)
    else scanLevel userKey files (ptr + 1)

def scanLevels (files : ℕ → List (FileMetaData K)) (userKey : K) : List ℕ → (ℕ → ℕ) → Bool × (ℕ → ℕ)
  | [], levelPtrs => (true, levelPtrs)
  | lvl :: lvls, levelPtrs =>
    let (found, ptr) := scanLevel userKey ((files lvl).drop (levelPtrs lvl)) (levelPtrs lvl)
    let levelPtrs := update levelPtrs lvl ptr
    if found then (false, levelPtrs) else scanLevels files userKey lvls levelPtrs

/-- The levels below the output of a compaction of `level`. -/
def deeperLevels (level : ℕ) : List ℕ := (List.range kNumLevels).drop (level + 2)

/-- `IsBaseLevelForKey`: the result and `level_ptrs_`. -/
def isBaseLevelForKey (files : ℕ → List (FileMetaData K)) (level : ℕ) (userKey : K)
    (levelPtrs : ℕ → ℕ) : Bool × (ℕ → ℕ) :=
  scanLevels files userKey (deeperLevels level) levelPtrs

/-! ## The loop -/

/-- A key of the input: one that `ParseInternalKey` accepts, or other bytes. -/
inductive InputKey (K : Type*) where
  | parsed (ikey : InternalKey K)
  | corrupted (key : List UInt8)

/-- The local variables of the loop and `level_ptrs_`. -/
structure DropState (K : Type*) where
  /-- `current_user_key`, if `has_current_user_key`. -/
  currentUserKey : Option K
  lastSequenceForKey : ℕ
  levelPtrs : ℕ → ℕ

def DropState.init : DropState K := ⟨none, kMaxSequenceNumber, fun _ => 0⟩

structure DropContext (K : Type*) where
  /-- The files of each level of `input_version_`. -/
  files : ℕ → List (FileMetaData K)
  level : ℕ
  smallestSnapshot : ℕ

namespace DropContext

variable (c : DropContext K)

/-- `last_sequence_for_key` at an entry, after a test for the first occurrence of its user key. -/
def lastSequence (st : DropState K) (ikey : InternalKey K) : ℕ :=
  if st.currentUserKey = some ikey.userKey then st.lastSequenceForKey else kMaxSequenceNumber

/-- The body of the loop for one key: whether to drop the entry, and the next state. -/
def dropKey (st : DropState K) : InputKey K → Bool × DropState K
  | .corrupted _ => (false, ⟨none, kMaxSequenceNumber, st.levelPtrs⟩)
  | .parsed ikey =>
    if lastSequence st ikey ≤ c.smallestSnapshot then
      (true, ⟨some ikey.userKey, ikey.sequence, st.levelPtrs⟩)
    else if ikey.type = .deletion ∧ ikey.sequence ≤ c.smallestSnapshot then
      let (base, levelPtrs) := isBaseLevelForKey c.files c.level ikey.userKey st.levelPtrs
      (base, ⟨some ikey.userKey, ikey.sequence, levelPtrs⟩)
    else (false, ⟨some ikey.userKey, ikey.sequence, st.levelPtrs⟩)

def keptFrom : DropState K → List (InputKey K × V) → List (InputKey K × V)
  | _, [] => []
  | st, e :: input =>
    let (drop, next) := c.dropKey st e.1
    if drop then keptFrom next input else e :: keptFrom next input

def kept (input : List (InputKey K × V)) : List (InputKey K × V) := c.keptFrom DropState.init input

end DropContext

/-! ## The cursors of `IsBaseLevelForKey` -/

/-- The files of a level of 1 or more: sorted, with disjoint ranges. -/
structure SortedLevel (files : List (FileMetaData K)) : Prop where
  range : ∀ f ∈ files, f.smallest ≤ f.largest
  disjoint : files.Pairwise fun f g => f.largest < g.smallest

variable {files : List (FileMetaData K)} {levelPtrs : ℕ → ℕ} {s : ℕ}

theorem SortedLevel.tail {f : FileMetaData K} (h : SortedLevel (f :: files)) : SortedLevel files :=
  ⟨fun g hg => h.range g (mem_cons_of_mem _ hg), h.disjoint.tail⟩

theorem SortedLevel.drop (h : SortedLevel files) (n : ℕ) : SortedLevel (files.drop n) :=
  ⟨fun f hf => h.range f (mem_of_mem_drop hf), h.disjoint.sublist (drop_sublist n files)⟩

theorem scanLevel_fst (h : SortedLevel files) (userKey : K) (ptr : ℕ) :
    (scanLevel userKey files ptr).1 = true ↔ ∃ f ∈ files, f.Covers userKey := by
  induction files generalizing ptr with
  | nil => simp [scanLevel]
  | cons f files ih =>
    rw [scanLevel]
    split_ifs with hle
    · -- every later file begins after this one ends
      have hlater : ∀ g ∈ files, g.Covers userKey → f.Covers userKey := by
        intro g hg hcovers
        have hfg : f.smallest ≤ g.smallest :=
          (h.range f mem_cons_self).trans ((pairwise_cons.1 h.disjoint).1 g hg).le
        exact ⟨(InternalKey.userKey_le hfg).trans hcovers.1, hle⟩
      rw [decide_eq_true_eq, exists_mem_cons_iff]
      constructor
      · intro hsmall
        exact .inl ⟨hsmall, hle⟩
      · rintro (hcovers | ⟨g, hg, hcovers⟩)
        · exact hcovers.1
        · exact (hlater g hg hcovers).1
    · rw [ih h.tail, exists_mem_cons_iff]
      exact (or_iff_right fun hcovers => hle hcovers.2).symm

theorem scanLevel_snd (userKey : K) (files : List (FileMetaData K)) (ptr : ℕ) :
    ∃ n, (scanLevel userKey files ptr).2 = ptr + n ∧
      ∀ f ∈ files.take n, f.largest.userKey < userKey := by
  induction files generalizing ptr with
  | nil => exact ⟨0, rfl, by simp⟩
  | cons f files ih =>
    rw [scanLevel]
    split_ifs with hle
    · exact ⟨0, rfl, by simp⟩
    · obtain ⟨n, hptr, hpassed⟩ := ih (ptr + 1)
      refine ⟨n + 1, by rw [hptr, Nat.add_assoc, Nat.add_comm 1], ?_⟩
      rw [take_succ_cons, forall_mem_cons]
      exact ⟨not_le.1 hle, hpassed⟩

def Passed (files : ℕ → List (FileMetaData K)) (levelPtrs : ℕ → ℕ) (userKey : K) : Prop :=
  ∀ lvl, ∀ f ∈ (files lvl).take (levelPtrs lvl), f.largest.userKey < userKey

variable {files : ℕ → List (FileMetaData K)}

theorem Passed.mono {a b : K} (h : Passed files levelPtrs a)
    (hab : a ≤ b) : Passed files levelPtrs b :=
  fun lvl f hf => (h lvl f hf).trans_le hab

theorem Passed.not_covers {userKey : K} (h : Passed files levelPtrs userKey) (lvl : ℕ) :
    (∃ f ∈ (files lvl).drop (levelPtrs lvl), f.Covers userKey) ↔
      ∃ f ∈ files lvl, f.Covers userKey := by
  constructor
  · rintro ⟨f, hf, hcovers⟩
    exact ⟨f, mem_of_mem_drop hf, hcovers⟩
  · rintro ⟨f, hf, hcovers⟩
    rw [← take_append_drop (levelPtrs lvl) (files lvl), mem_append] at hf
    rcases hf with hf | hf
    · exact absurd hcovers.2 (h lvl f hf).not_ge
    · exact ⟨f, hf, hcovers⟩

theorem Passed.scanLevel {userKey : K} (h : Passed files levelPtrs userKey) (lvl : ℕ) :
    Passed files (update levelPtrs lvl
      (scanLevel userKey ((files lvl).drop (levelPtrs lvl)) (levelPtrs lvl)).2) userKey := by
  intro l f hf
  rcases eq_or_ne l lvl with rfl | hne
  · obtain ⟨n, hptr, hpassed⟩ := scanLevel_snd userKey ((files l).drop (levelPtrs l)) (levelPtrs l)
    rw [update_self, hptr, take_add, mem_append] at hf
    exact hf.elim (h l f) (hpassed f)
  · rw [update_of_ne hne] at hf
    exact h l f hf

theorem scanLevels_spec {lvls : List ℕ}
    (hsorted : ∀ lvl ∈ lvls, SortedLevel (files lvl)) {levelPtrs : ℕ → ℕ} {userKey : K}
    (h : Passed files levelPtrs userKey) :
    ((scanLevels files userKey lvls levelPtrs).1 = true ↔
      ∀ lvl ∈ lvls, ∀ f ∈ files lvl, ¬ f.Covers userKey) ∧
    Passed files (scanLevels files userKey lvls levelPtrs).2 userKey := by
  induction lvls generalizing levelPtrs with
  | nil => exact ⟨by simp [scanLevels], h⟩
  | cons lvl lvls ih =>
    have hlevel := hsorted lvl mem_cons_self
    have hfound := (scanLevel_fst (hlevel.drop (levelPtrs lvl)) userKey (levelPtrs lvl)).trans
      (h.not_covers lvl)
    have hnext := h.scanLevel lvl
    rw [scanLevels, forall_mem_cons]
    simp only
    split_ifs with hhit
    · refine ⟨iff_of_false not_false ?_, hnext⟩
      rintro ⟨hnone, -⟩
      obtain ⟨f, hf, hcovers⟩ := hfound.1 hhit
      exact hnone f hf hcovers
    · obtain ⟨hrest, hpassed⟩ := ih (fun l hl => hsorted l (mem_cons_of_mem _ hl)) hnext
      refine ⟨?_, hpassed⟩
      rw [hrest, iff_and_self]
      exact fun _ f hf hcovers => hhit (hfound.2 ⟨f, hf, hcovers⟩)

theorem mem_deeperLevels {level lvl : ℕ} :
    lvl ∈ deeperLevels level ↔ level + 2 ≤ lvl ∧ lvl < kNumLevels := by
  rw [deeperLevels, range_eq_range', drop_range', mem_range'_1]
  omega

variable (c : DropContext K)

namespace DropContext

variable {c : DropContext K}

def IsBase (userKey : K) : Prop :=
  ∀ lvl, c.level + 2 ≤ lvl → lvl < kNumLevels → ∀ f ∈ c.files lvl, ¬ f.Covers userKey

def Sorted : Prop :=
  ∀ lvl, c.level + 2 ≤ lvl → lvl < kNumLevels → SortedLevel (c.files lvl)

theorem isBaseLevelForKey_spec (hsorted : c.Sorted) {levelPtrs : ℕ → ℕ} {userKey : K}
    (h : Passed c.files levelPtrs userKey) :
    ((isBaseLevelForKey c.files c.level userKey levelPtrs).1 = true ↔ c.IsBase userKey) ∧
      Passed c.files (isBaseLevelForKey c.files c.level userKey levelPtrs).2 userKey := by
  have hspec := @scanLevels_spec _ _ c.files (deeperLevels c.level) (fun lvl hlvl =>
    hsorted lvl (mem_deeperLevels.1 hlvl).1 (mem_deeperLevels.1 hlvl).2) _ _ h
  refine ⟨hspec.1.trans ?_, hspec.2⟩
  simp only [mem_deeperLevels, and_imp, IsBase]

/-! ## One entry -/

theorem dropKey_next (st : DropState K) (ikey : InternalKey K) :
    (c.dropKey st (.parsed ikey)).2.currentUserKey = some ikey.userKey ∧
      (c.dropKey st (.parsed ikey)).2.lastSequenceForKey = ikey.sequence := by
  rw [dropKey]
  split_ifs <;> exact ⟨rfl, rfl⟩

theorem dropKey_hidden {st : DropState K} {ikey : InternalKey K}
    (h : lastSequence st ikey ≤ c.smallestSnapshot) : (c.dropKey st (.parsed ikey)).1 = true := by
  rw [dropKey, if_pos h]

/-- What the loop drops: an entry hidden by a newer one, or a deletion that hides nothing. -/
theorem dropKey_spec (hsorted : c.Sorted) {st : DropState K} {ikey : InternalKey K}
    (h : Passed c.files st.levelPtrs ikey.userKey) :
    ((c.dropKey st (.parsed ikey)).1 = true ↔ lastSequence st ikey ≤ c.smallestSnapshot ∨
      ikey.type = .deletion ∧ ikey.sequence ≤ c.smallestSnapshot ∧ c.IsBase ikey.userKey) ∧
    Passed c.files (c.dropKey st (.parsed ikey)).2.levelPtrs ikey.userKey := by
  obtain ⟨hbase, hpassed⟩ := isBaseLevelForKey_spec hsorted h
  rw [dropKey]
  split_ifs with hhidden hdeletion
  · exact ⟨iff_of_true rfl (.inl hhidden), h⟩
  · refine ⟨?_, hpassed⟩
    rw [or_iff_right hhidden, ← hbase]
    exact ⟨fun hb => ⟨hdeletion.1, hdeletion.2, hb⟩, fun hd => hd.2.2⟩
  · refine ⟨iff_of_false not_false ?_, h⟩
    rintro (hh | hd)
    · exact hhidden hh
    · exact hdeletion ⟨hd.1, hd.2.1⟩

end DropContext

/-! ## Views -/

/-- The entry of a user key that a snapshot with this sequence number sees. -/
def newest (input : List (InputKey K × V)) (userKey : K) (sequence : ℕ) :
    Option (InternalKey K × V) :=
  input.findSome? fun e =>
    match e.1 with
    | .parsed ikey =>
      if ikey.userKey = userKey ∧ ikey.sequence ≤ sequence then some (ikey, e.2) else none
    | .corrupted _ => none

def parsedInput (entries : List (InternalKey K × V)) : List (InputKey K × V) :=
  entries.map fun e => (.parsed e.1, e.2)

@[simp] theorem newest_nil (u : K) (s : ℕ) : newest ([] : List (InputKey K × V)) u s = none := rfl

variable {ikey : InternalKey K}

theorem newest_cons_of_sees {u : K}
    (h : ikey.userKey = u ∧ ikey.sequence ≤ s) (v : V) (input : List (InputKey K × V)) :
    newest ((.parsed ikey, v) :: input) u s = some (ikey, v) := by
  rw [newest, findSome?_cons]
  simp only [if_pos h]

theorem newest_cons_of_not_sees {u : K}
    (h : ¬ (ikey.userKey = u ∧ ikey.sequence ≤ s)) (v : V) (input : List (InputKey K × V)) :
    newest ((.parsed ikey, v) :: input) u s = newest input u s := by
  rw [newest, findSome?_cons]
  simp only [if_neg h]
  rfl

theorem newest_of_max {t : ℕ} (hs : kMaxSequenceNumber ≤ s) (ht : kMaxSequenceNumber ≤ t)
    (input : List (InputKey K × V)) (u : K) : newest input u s = newest input u t := by
  rw [newest]
  congr 1
  funext e
  cases e.1 with
  | parsed ikey => simp only [ikey.sequence_le.trans hs, ikey.sequence_le.trans ht]
  | corrupted _ => rfl

namespace DropContext

variable {c : DropContext K} {st : DropState K} {u : K}

theorem newest_keptFrom_cons {s : ℕ}
    (h : ¬ (ikey.userKey = u ∧ ikey.sequence ≤ s)) (v : V) (input : List (InputKey K × V)) :
    newest (c.keptFrom st ((.parsed ikey, v) :: input)) u s =
      newest (c.keptFrom (c.dropKey st (.parsed ikey)).2 input) u s := by
  rw [keptFrom]
  simp only
  split_ifs
  · rfl
  · exact newest_cons_of_not_sees h v _

theorem keptFrom_cons_of_drop (h : (c.dropKey st (.parsed ikey)).1 = true)
    (v : V) (input : List (InputKey K × V)) :
    c.keptFrom st ((.parsed ikey, v) :: input) =
      c.keptFrom (c.dropKey st (.parsed ikey)).2 input := by
  exact if_pos h

/-- After an entry that every snapshot sees, all older ones of the user key are dropped. -/
theorem newest_keptFrom_hidden {entries : List (InternalKey K × V)}
    (hentries : entries.Pairwise fun a b => a.1 < b.1) (hge : ∀ e ∈ entries, u ≤ e.1.userKey)
    (hcurrent : st.currentUserKey = some u → st.lastSequenceForKey ≤ c.smallestSnapshot)
    (hkeys : ∀ e ∈ entries, e.1.userKey = u →
      st.currentUserKey = some u ∧ e.1.sequence ≤ c.smallestSnapshot) (s : ℕ) :
    newest (c.keptFrom st (parsedInput entries)) u s = none := by
  induction entries generalizing st with
  | nil => rfl
  | cons e entries ih =>
    obtain ⟨hhead, htail⟩ := pairwise_cons.1 hentries
    obtain ⟨hnextKey, hnextLast⟩ := @dropKey_next _ _ c st e.1
    have hgeTail : ∀ e' ∈ entries, u ≤ e'.1.userKey := fun e' he' =>
      hge e' (mem_cons_of_mem _ he')
    rw [parsedInput, map_cons]
    by_cases hkey : e.1.userKey = u
    · obtain ⟨hcur, hseq⟩ := hkeys e mem_cons_self hkey
      have hdrop : (c.dropKey st (.parsed e.1)).1 = true := by
        apply dropKey_hidden
        rw [lastSequence, if_pos (by rw [hcur, hkey])]
        exact hcurrent hcur
      rw [keptFrom_cons_of_drop hdrop]
      refine ih htail hgeTail (fun _ => hnextLast ▸ hseq) fun e' he' hkey' => ?_
      exact ⟨by rw [hnextKey, hkey], (hkeys e' (mem_cons_of_mem _ he') hkey').2⟩
    · rw [newest_keptFrom_cons (fun hsees => hkey hsees.1)]
      refine ih htail hgeTail (fun hcur => absurd (Option.some.inj (hnextKey.symm.trans hcur)) hkey)
        fun e' he' hkey' => ?_
      -- the stream has left the user key
      have hlt : u < e.1.userKey := lt_of_le_of_ne (hge e mem_cons_self) (Ne.symm hkey)
      exact absurd hkey' (hlt.trans_le (InternalKey.userKey_le (hhead e' he').le)).ne'

/-- What is left of the view of a snapshot: the same entry, or nothing where it was a deletion and
no deeper level has the user key. -/
def ViewKept (input kept : List (InputKey K × V)) (u : K) (s : ℕ) : Prop :=
  newest kept u s = newest input u s ∨
    ∃ e, newest input u s = some e ∧ e.1.type = .deletion ∧ c.IsBase u ∧ newest kept u s = none

/-- The induction is on the stream; the user key may have been met before, but only with entries
that some live snapshot does not see. -/
theorem viewKept_keptFrom (hsorted : c.Sorted) (hsnapshot : c.smallestSnapshot < kMaxSequenceNumber)
    {s : ℕ} (hs : c.smallestSnapshot ≤ s) {entries : List (InternalKey K × V)}
    (hentries : entries.Pairwise fun a b => a.1 < b.1)
    (hpassed : ∀ e ∈ entries, Passed c.files st.levelPtrs e.1.userKey)
    (hcurrent : st.currentUserKey = some u → c.smallestSnapshot < st.lastSequenceForKey) :
    c.ViewKept (parsedInput entries) (c.keptFrom st (parsedInput entries)) u s := by
  induction entries generalizing st with
  | nil => exact .inl rfl
  | cons e entries ih =>
    obtain ⟨hhead, htail⟩ := pairwise_cons.1 hentries
    obtain ⟨hnextKey, hnextLast⟩ := @dropKey_next _ _ c st e.1
    obtain ⟨hdrop, hnextPassed⟩ := dropKey_spec hsorted (hpassed e mem_cons_self)
    have hpassedTail : ∀ e' ∈ entries,
        Passed c.files (c.dropKey st (.parsed e.1)).2.levelPtrs e'.1.userKey := fun e' he' =>
      hnextPassed.mono (InternalKey.userKey_le (hhead e' he').le)
    rw [parsedInput, map_cons]
    by_cases hsees : e.1.userKey = u ∧ e.1.sequence ≤ s
    · have hnothidden : ¬ lastSequence st e.1 ≤ c.smallestSnapshot := by
        rw [lastSequence, hsees.1, not_le]
        split_ifs with hcur
        · exact hcurrent hcur
        · exact hsnapshot
      rw [ViewKept, newest_cons_of_sees hsees]
      by_cases hd : (c.dropKey st (.parsed e.1)).1 = true
      · obtain ⟨htype, hseq, hbase⟩ := (hdrop.1 hd).resolve_left hnothidden
        refine .inr ⟨_, rfl, htype, hsees.1 ▸ hbase, ?_⟩
        rw [keptFrom_cons_of_drop hd]
        refine newest_keptFrom_hidden htail
          (fun e' he' => hsees.1 ▸ InternalKey.userKey_le (hhead e' he').le)
          (fun _ => hnextLast ▸ hseq) (fun e' he' hkey' => ⟨by rw [hnextKey, hsees.1], ?_⟩) s
        exact (InternalKey.sequence_le_of_le (hhead e' he').le (hsees.1.trans hkey'.symm)).trans hseq
      · left
        rw [keptFrom]
        simp only [if_neg hd, newest_cons_of_sees hsees]
    · rw [ViewKept, newest_cons_of_not_sees hsees, newest_keptFrom_cons hsees]
      refine ih htail hpassedTail fun hcur => ?_
      have hkey : e.1.userKey = u := Option.some.inj (hnextKey.symm.trans hcur)
      have hseq : ¬ e.1.sequence ≤ s := fun h => hsees ⟨hkey, h⟩
      omega

/-- A snapshot at `kMaxSequenceNumber` makes the loop take the first entry of a user key for a
hidden one. -/
theorem keptFrom_max (hsnapshot : kMaxSequenceNumber ≤ c.smallestSnapshot)
    (entries : List (InternalKey K × V)) (hst : st.lastSequenceForKey ≤ kMaxSequenceNumber) :
    c.keptFrom st (parsedInput entries) = [] := by
  induction entries generalizing st with
  | nil => rfl
  | cons e entries ih =>
    have hdrop : (c.dropKey st (.parsed e.1)).1 = true := by
      apply dropKey_hidden
      rw [lastSequence]
      split_ifs
      · exact hst.trans hsnapshot
      · exact hsnapshot
    rw [parsedInput, map_cons, keptFrom_cons_of_drop hdrop]
    exact ih ((dropKey_next st e.1).2 ▸ e.1.sequence_le)

/-- Every snapshot that is not older than the smallest one keeps its view of every user key, for
every stream in the order of internal keys, if the smallest snapshot is below the greatest sequence
number, which stands for a user key that has not been met.  With a smallest snapshot from there on
everything is dropped. -/
theorem views_kept_iff (hsorted : c.Sorted) {entries : List (InternalKey K × V)}
    (hentries : entries.Pairwise fun a b => a.1 < b.1) :
    (∀ u s, c.smallestSnapshot ≤ s →
      c.ViewKept (parsedInput entries) (c.kept (parsedInput entries)) u s) ↔
    (c.smallestSnapshot < kMaxSequenceNumber ∨ ∀ u e,
      newest (parsedInput entries) u c.smallestSnapshot = some e →
        e.1.type = .deletion ∧ c.IsBase u) := by
  rcases lt_or_ge c.smallestSnapshot kMaxSequenceNumber with hsnapshot | hsnapshot
  · refine iff_of_true (fun u s hs => ?_) (.inl hsnapshot)
    exact viewKept_keptFrom hsorted hsnapshot hs hentries
      (fun e he lvl f hf => by simp [DropState.init] at hf) (fun hcur => by cases hcur)
  · have hkept : c.kept (parsedInput entries) = [] := keptFrom_max hsnapshot entries le_rfl
    rw [or_iff_right hsnapshot.not_gt]
    simp only [hkept, ViewKept, newest_nil]
    constructor
    · intro h u e he
      rcases h u c.smallestSnapshot le_rfl with hnone | ⟨e', he', htype, hbase, -⟩
      · rw [he] at hnone
        cases hnone
      · obtain rfl := Option.some.inj (he.symm.trans he')
        exact ⟨htype, hbase⟩
    · intro h u s hs
      rw [newest_of_max (hsnapshot.trans hs) hsnapshot]
      cases he : newest (parsedInput entries) u c.smallestSnapshot with
      | none => exact .inl rfl
      | some e => exact .inr ⟨e, rfl, (h u e he).1, (h u e he).2, trivial⟩

/-- A deletion and the value it hides, in a compaction of level 0; level 2 has another key. -/
def deletedContext : DropContext ℕ where
  files := fun lvl =>
    if lvl = 2 then [⟨7, ⟨5, 1, .value, by decide⟩, ⟨9, 2, .value, by decide⟩⟩] else []
  level := 0
  smallestSnapshot := 10

theorem views_kept_deleted : deletedContext.Sorted ∧ deletedContext.ViewKept
    (parsedInput [(⟨3, 8, .deletion, by decide⟩, ()), (⟨3, 6, .value, by decide⟩, ())])
    (deletedContext.kept
      (parsedInput [(⟨3, 8, .deletion, by decide⟩, ()), (⟨3, 6, .value, by decide⟩, ())])) 3 10 := by
  have hsorted : deletedContext.Sorted := by
    intro lvl _ _
    rw [deletedContext]
    simp only
    split_ifs
    · refine ⟨?_, pairwise_singleton _ _⟩
      decide
    · exact ⟨fun f hf => absurd hf not_mem_nil, List.Pairwise.nil⟩
  exact ⟨hsorted, (views_kept_iff hsorted (by decide)).2 (.inl (by decide)) 3 10 le_rfl⟩

/-- A single value is dropped if the smallest snapshot is `kMaxSequenceNumber`. -/
theorem value_dropped_at_max : (⟨fun _ => [], 0, kMaxSequenceNumber⟩ : DropContext ℕ).Sorted ∧
    ¬ (⟨fun _ => [], 0, kMaxSequenceNumber⟩ : DropContext ℕ).ViewKept
      (parsedInput [(⟨3, 6, .value, by decide⟩, ())])
      ((⟨fun _ => [], 0, kMaxSequenceNumber⟩ : DropContext ℕ).kept
        (parsedInput [(⟨3, 6, .value, by decide⟩, ())])) 3 kMaxSequenceNumber := by
  have hnewest : newest (parsedInput [((⟨3, 6, .value, by decide⟩ : InternalKey ℕ), ())]) 3
      kMaxSequenceNumber = some (⟨3, 6, .value, by decide⟩, ()) := rfl
  have hkept : (⟨fun _ => [], 0, kMaxSequenceNumber⟩ : DropContext ℕ).kept
      (parsedInput [(⟨3, 6, .value, by decide⟩, ())]) = [] := keptFrom_max le_rfl _ le_rfl
  refine ⟨fun _ _ _ => ⟨fun f hf => absurd hf not_mem_nil, List.Pairwise.nil⟩, ?_⟩
  rintro (hnone | ⟨e, he, htype, -⟩)
  · cases hnone
  · rw [← Option.some.inj he] at htype
    cases htype

end DropContext

end ServerStack.Leveldb
