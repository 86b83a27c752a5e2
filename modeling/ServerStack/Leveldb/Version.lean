import ServerStack.Lib.LowerBound
import ServerStack.Lib.ReadOrder
import ServerStack.Leveldb.DbIter
import ServerStack.Leveldb.DropRule

/-!
# Versions

A version has the table files of each level, here with the entries they hold.  `Version::Get` looks
for a user key level by level: in all files of level 0 whose range has the key, newest first, and in
one file of every other level.  The lookup inside a table is a parameter.
-/

namespace ServerStack.Leveldb

open LowerBound ReadOrder

/-! ## Tables and versions -/

/-- A table file with its entries in order; the range in the metadata is that of the entries. -/
structure TableFile (K V : Type) [LinearOrder K] extends FileMetaData K where
  entries : List (Entry K V)
  sorted : entries.Pairwise fun a b => a.1 < b.1
  smallest_eq : entries.head?.map Prod.fst = some smallest
  largest_eq : entries.getLast?.map Prod.fst = some largest

variable {K V : Type} [LinearOrder K]

structure Version (K V : Type) [LinearOrder K] where
  files : ℕ → List (TableFile K V)

namespace TableFile

variable (f : TableFile K V)

theorem smallest_le {e : Entry K V} (h : e ∈ f.entries) : f.smallest ≤ e.1 := by
  have hsmallest := f.smallest_eq
  have hsorted := f.sorted
  cases hentries : f.entries with
  | nil =>
    rw [hentries] at h
    cases h
  | cons a rest =>
    rw [hentries] at h hsmallest hsorted
    rw [← Option.some.inj hsmallest]
    rcases List.mem_cons.1 h with rfl | hrest
    · exact le_rfl
    · exact ((List.pairwise_cons.1 hsorted).1 e hrest).le

theorem exists_largest : ∃ before e, f.entries = before ++ [e] ∧ e.1 = f.largest := by
  obtain ⟨e, hlast, he⟩ := Option.map_eq_some_iff.1 f.largest_eq
  obtain ⟨before, hbefore⟩ := List.getLast?_eq_some_iff.1 hlast
  exact ⟨before, e, hbefore, he⟩

theorem le_largest {e : Entry K V} (h : e ∈ f.entries) : e.1 ≤ f.largest := by
  obtain ⟨before, last, hentries, hlast⟩ := f.exists_largest
  have hsorted := f.sorted
  rw [hentries] at h hsorted
  rw [← hlast]
  rcases List.mem_append.1 h with hbefore | hmem
  · exact ((List.pairwise_append.1 hsorted).2.2 e hbefore last (List.mem_singleton_self _)).le
  · rw [List.mem_singleton.1 hmem]

theorem smallest_le_largest : f.smallest ≤ f.largest := by
  obtain ⟨before, e, hentries, he⟩ := f.exists_largest
  rw [← he]
  exact f.smallest_le (by rw [hentries]; simp)

end TableFile

/-! ## `Version::Get` -/

def lookupKey (userKey : K) (sequence : ℕ) (h : sequence ≤ kMaxSequenceNumber) : InternalKey K :=
  ⟨userKey, sequence, .value, h⟩

omit [LinearOrder K] in
/-- `FindFile`: the first file whose largest key is at or after the key.  Its indices are `uint32_t`; a
level has fewer than `2 ^ 31` files. -/
def findFile (files : List (TableFile K V)) (key : InternalKey K) : ℕ :=
  lowerBound (fun mid => files[mid]?.any fun f => decide (f.largest < key)) files.length

/-- The files of a level that may have the key, in the order in which they are read. -/
def Version.filesToSearch (v : Version K V) (ikey : InternalKey K) (level : ℕ) :
    List (TableFile K V) :=
  if level = 0 then
    ((v.files 0).filter fun f => decide (f.Covers ikey.userKey)).mergeSort
      fun a b => decide (b.number ≤ a.number)
  else
    match (v.files level)[findFile (v.files level) ikey]? with
    | none => []
    | some f => if ikey.userKey < f.smallest.userKey then [] else [f]

/-- `SaverState`, with the saved value. -/
inductive Saver (V : Type) where
  | notFound
  | found (value : V)
  | deleted

def saveValue (userKey : K) (e : Entry K V) : Saver V :=
  if e.1.userKey = userKey then
    match e.1.type with
    | .value => .found e.2
    | .deletion => .deleted
  else .notFound

inductive GetStatus (V : Type) where
  | ok (value : V)
  | notFound
  deriving DecidableEq

/-- The files read so far: the last one with its level, and the one that is charged for a second
read (`GetStats`). -/
structure ReadState (K V : Type) [LinearOrder K] where
  lastFileRead : Option (TableFile K V × ℕ)
  seekFile : Option (TableFile K V × ℕ)

/-- Charge the first file as soon as a second one is read. -/
def ReadState.read (st : ReadState K V) (f : TableFile K V) (level : ℕ) : ReadState K V where
  lastFileRead := some (f, level)
  seekFile := if st.seekFile.isNone then st.lastFileRead else st.seekFile

-- `TableCache::Get`: the entry passed to the callback, if any.
variable (tableGet : TableFile K V → InternalKey K → Option (Entry K V))

/-- The loop over the files of a level; `none` when the search goes on in the next level. -/
def searchFiles (ikey : InternalKey K) (level : ℕ) :
    List (TableFile K V) → ReadState K V → Option (GetStatus V) × ReadState K V
  | [], st => (none, st)
  | f :: files, st =>
    let st := st.read f level
    match (tableGet f ikey).elim .notFound (saveValue ikey.userKey) with
    | .notFound => searchFiles ikey level files st
    | .found value => (some (.ok value), st)
    | .deleted => (some .notFound, st)

def searchLevels (v : Version K V) (ikey : InternalKey K) :
    List ℕ → ReadState K V → GetStatus V × ReadState K V
  | [], st => (.notFound, st)
  | level :: levels, st =>
    match searchFiles tableGet ikey level (v.filesToSearch ikey level) st with
    | (some status, st) => (status, st)
    | (none, st) => searchLevels v ikey levels st

/-- `Version::Get`: the status and the file to charge. -/
def Version.get (v : Version K V) (ikey : InternalKey K) :
    GetStatus V × Option (TableFile K V × ℕ) :=
  let (status, st) := searchLevels tableGet v ikey (List.range kNumLevels) ⟨none, none⟩
  (status, st.seekFile)

end ServerStack.Leveldb
