import ServerStack.Fastdfs.TrunkAlloc

/-!
# Trunk space in use

Runs of the trunk server together with its clients: a region that was allocated is on hold until it
is confirmed, and in use from then on until it is freed.  No region is handed out while it is on
hold or in use.
-/

namespace ServerStack.Fastdfs

open Outcome List

namespace TrunkMem

/-! ## Files created in advance -/

structure Extends (files files' : List TrunkFileIdentifier) (B B' : Set TrunkFullInfo) : Prop where
  files_subset : files ⊆ files'
  subset : B ⊆ B'
  new : ∀ b ∈ B', b ∈ B ∨ b.status = .free ∧ b.identifier ∉ files

theorem Extends.refl (files : List TrunkFileIdentifier) (B : Set TrunkFullInfo) :
    Extends files files B B := ⟨List.Subset.refl _, subset_rfl, fun _ => .inl⟩

theorem Extends.trans {files files' files'' : List TrunkFileIdentifier}
    {B B' B'' : Set TrunkFullInfo} (h : Extends files files' B B')
    (h' : Extends files' files'' B' B'') : Extends files files'' B B'' where
  files_subset := List.Subset.trans h.files_subset h'.files_subset
  subset := h.subset.trans h'.subset
  new b hb := by
    rcases h'.new b hb with hb | ⟨hstatus, hid⟩
    · exact h.new b hb
    · exact .inr ⟨hstatus, fun hmem => hid (h.files_subset hmem)⟩

variable {config : TrunkConfig} {m : TrunkMem} {B : Set TrunkFullInfo}

theorem createFilesLoop_spec {count : ℕ} {choices : List FileChoice} {result : ℤ}
    (h : Holds config m B) :
    Meets (createFilesLoop config count choices m result)
      (fun r => ∃ B', Holds config r.1 B' ∧ Extends m.files r.1.files B B') (· ≠ .outside) := by
  induction count generalizing choices m B result with
  | zero => exact ⟨B, h, .refl _ _⟩
  | succ count ih =>
    cases choices with
    | nil => exact nofun
    | cons choice choices =>
      obtain ⟨S, hS, rfl⟩ := h
      refine (createTrunkFile_spec hS choice).bind ?_
      rintro ⟨m₁, n, result'⟩ hr
      cases n with
      | none =>
        obtain ⟨rfl, -⟩ := hr
        exact ih ⟨S, hS, rfl⟩
      | some n =>
        obtain ⟨h₁, hloose, hnew, hfiles, hnodes, -⟩ := hr
        dsimp only
        rcases h₁.addFreeBlock hloose false with hmemory | ⟨m₂, heq, h₂, hnodes₂, -, hfiles₂, -⟩
        · rw [hmemory]
          exact nofun
        rw [heq]
        have hextends : Extends m.files m₂.files (m.nodes '' S) (m₂.nodes '' insert n S) := by
          rw [hfiles₂, hfiles, hnodes₂, Set.image_insert_eq, Set.image_congr hnodes]
          refine ⟨subset_cons_self _ _, Set.subset_insert _ _, ?_⟩
          rintro b (rfl | hb)
          · exact .inr ⟨hnew.status, hnew.notMem⟩
          · exact .inl hb
        refine (ih ⟨insert n S, h₂, rfl⟩).mono ?_ fun _ => id
        rintro r ⟨B', hB', hextends'⟩
        exact ⟨B', hB', hextends.trans hextends'⟩

theorem Holds.createTrunkFileAdvance (h : Holds config m B) (hasRoom : Bool)
    (choices : List FileChoice) :
    Meets (m.createTrunkFileAdvance config hasRoom choices)
      (fun r => ∃ B', Holds config r.1 B' ∧ Extends m.files r.1.files B B') (· ≠ .outside) := by
  unfold TrunkMem.createTrunkFileAdvance
  dsimp only
  split_ifs
  all_goals first
    | exact ⟨B, h, .refl _ _⟩
    | exact createFilesLoop_spec h

end TrunkMem

/-! ## Runs -/

open TrunkMem

structure TrunkWorld where
  mem : TrunkMem
  used : List TrunkFullInfo
  held : List TrunkFullInfo

inductive TrunkOp where
  | alloc (size : ℤ) (choice : FileChoice)
  | confirm (info : TrunkFullInfo) (status : ℤ)
  | free (info : TrunkFullInfo)
  | advance (hasRoom : Bool) (choices : List FileChoice)

namespace TrunkWorld

variable (config : TrunkConfig)

def region (info : TrunkFullInfo) : TrunkFullInfo := { info with status := .hold }

def step (w : TrunkWorld) : Int32 × TrunkOp → Except TrunkFault TrunkWorld
  | (now, .alloc size choice) => do
    let (mem, _, result) ← (w.mem.setTime now).allocSpace config size choice
    return { w with mem, held := result.toList ++ w.held }
  | (now, .confirm info status) => do
    let (mem, result) ← (w.mem.setTime now).allocConfirm config info status
    if result ≠ 0 then return { w with mem }
    return {
      mem
      used := if status = 0 ∨ status = eexist then region info :: w.used else w.used
      held := w.held.erase (region info) }
  | (now, .free info) => do
    let (mem, result) ← (w.mem.setTime now).freeSpace config info true
    return { w with mem, used := if result = 0 then w.used.erase (region info) else w.used }
  | (now, .advance hasRoom choices) => do
    let (mem, _) ← (w.mem.setTime now).createTrunkFileAdvance config hasRoom choices
    return { w with mem }

/-- What the clients see to: sizes are those of a slot, regions on hold are confirmed and regions in
use are freed. -/
def Valid (w : TrunkWorld) : Int32 × TrunkOp → Prop
  | (_, .alloc size _) => 1 ≤ size ∧ size ≤ config.slotMaxSize
  | (_, .confirm info _) => region info ∈ w.held
  | (_, .free info) => region info ∈ w.used
  | (_, .advance _ _) => True

instance (w : TrunkWorld) : ∀ op, Decidable (Valid config w op)
  | (_, .alloc size _) => inferInstanceAs (Decidable (1 ≤ size ∧ size ≤ config.slotMaxSize))
  | (_, .confirm info _) => inferInstanceAs (Decidable (region info ∈ w.held))
  | (_, .free info) => inferInstanceAs (Decidable (region info ∈ w.used))
  | (_, .advance _ _) => inferInstanceAs (Decidable True)

def empty : TrunkWorld := ⟨.empty, [], []⟩

/-- The regions on hold are the blocks on hold of the free space, and those in use are apart from
it. -/
structure Accounts (w : TrunkWorld) (B : Set TrunkFullInfo) : Prop where
  holds : Holds config w.mem B
  mem_held : ∀ r, r ∈ w.held ↔ r ∈ B ∧ r.status = .hold
  nodup_held : w.held.Nodup
  placed : ∀ r ∈ w.used, Placed config w.mem.files r
  apart : ∀ r ∈ w.used, ∀ b ∈ B, ¬ Overlaps r b
  pairwise : w.used.Pairwise fun r r' => ¬ Overlaps r r'

/-- What a request of a client does to the files, the free space and the regions in use, and what it
writes to the binlog. -/
inductive Change (config : TrunkConfig) (files : List TrunkFileIdentifier) (B : Set TrunkFullInfo)
    (used : List TrunkFullInfo) : List TrunkFileIdentifier → Set TrunkFullInfo →
    List TrunkFullInfo → List (OpType × TrunkFullInfo) → Prop where
  | none : Change config files B used files B used []
  | alloc {block part : TrunkFullInfo} {files' : List TrunkFileIdentifier}
      {records : List (OpType × TrunkFullInfo)} {size : ℤ} :
      Source config files B block files' records → 0 < size → size ≤ block.file.size →
      part = { partOf config block size with status := .hold } →
      Change config files B used files'
        (insert part ({b | b ∈ restOf config block size} ∪ (B \ {block}))) used
        (records ++ (.delSpace, block) ::
          (restOf config block size).map (fun b => (.addSpace, b)) ++ [(.addSpace, part)])
  | take {r : TrunkFullInfo} : r ∈ B →
      Change config files B used files (B \ {r}) (r :: used) [(.delSpace, r)]
  | release {r : TrunkFullInfo} : r ∈ B →
      Change config files B used files (insert { r with status := .free } (B \ {r})) used []
  | free {r : TrunkFullInfo} : r ∈ used →
      Change config files B used files (insert { r with status := .free } B) (used.erase r)
        [(.addSpace, { r with status := .free })]
  | lose {r : TrunkFullInfo} : r ∈ used → Change config files B used files B (used.erase r) []

def Follows (w : TrunkWorld) (B : Set TrunkFullInfo) (now : Int32) (w' : TrunkWorld) : Prop :=
  ∃ B' records, Accounts config w' B' ∧
    Change config w.mem.files B w.used w'.mem.files B' w'.used records ∧
    Writes (w.mem.setTime now) w'.mem true records ∧ (records ≠ [] → config.ifTrunkerSelf = true)

variable {config} {w : TrunkWorld} {B : Set TrunkFullInfo}

theorem accounts_empty : Accounts config empty ∅ where
  holds := ⟨∅, ⟨⟨sizeIndex_empty _, fileIndex_empty _⟩, nofun, nofun⟩, (Set.image_empty _).symm⟩
  mem_held _ := ⟨nofun, fun h => nomatch h.1⟩
  nodup_held := nodup_nil
  placed := nofun
  apart := nofun
  pairwise := List.Pairwise.nil

section

variable (h : Accounts config w B)

include h

theorem Accounts.apart_part {block part : TrunkFullInfo} {files : List TrunkFileIdentifier}
    {records : List (OpType × TrunkFullInfo)}
    (hsource : Source config w.mem.files B block files records) (hpart : PartOf part block)
    {r : TrunkFullInfo} (hr : r ∈ w.used ++ w.held) : ¬ Overlaps part r := by
  intro ho
  have hoverlaps := hpart.overlaps ho
  rcases mem_append.1 hr with hr | hr
  · exact hsource.apart (h.placed r hr) (h.apart r hr) hoverlaps.symm
  · obtain ⟨hrB, hhold⟩ := (h.mem_held r).1 hr
    cases hsource with
    | old hmem hfree =>
      rw [h.holds.eq_of_overlaps hmem hrB hoverlaps, hhold] at hfree
      cases hfree
    | new hnew => exact hnew.notMem (hoverlaps.1.symm ▸ (h.holds.placed hrB).file)

theorem Accounts.setTime (now : Int32) : Accounts config { w with mem := w.mem.setTime now } B :=
  ⟨h.holds.setTime now, h.mem_held, h.nodup_held, h.placed, h.apart, h.pairwise⟩

theorem Accounts.follows_setTime (now : Int32) :
    Follows config w B now { w with mem := w.mem.setTime now } :=
  ⟨B, [], h.setTime now, .none, ⟨rfl, rfl, rfl⟩, fun hne => absurd rfl hne⟩

theorem Accounts.alloc {size : ℤ} (hlo : 1 ≤ size) (hhi : size ≤ config.slotMaxSize) (now : Int32)
    (choice : FileChoice) : Meets (step config w (now, .alloc size choice))
      (Follows config w B now) (· ≠ .outside) := by
  by_cases hself : config.ifTrunkerSelf = true
  swap
  · have hinval : (w.mem.setTime now).allocSpace config size choice =
        .ok (w.mem.setTime now, einval, none) := if_pos (.inl hself)
    unfold step
    dsimp only
    rw [hinval]
    exact h.follows_setTime now
  refine ((h.holds.setTime now).allocSpace hlo hhi choice).bind ?_
  rintro ⟨m', result, r⟩
    (⟨rfl, -, hnone⟩ | ⟨block, records, part, hsource, hsize, hpart, hr, hB, hwrites⟩)
  · obtain rfl : r = none := hnone
    exact h.follows_setTime now
  · obtain ⟨rfl, rfl⟩ := Prod.mk.inj hr
    have hpartOf : PartOf part block := by
      have := (partOf_part config hsize).1
      rw [hpart]
      exact ⟨this.identifier, this.le, this.end_le⟩
    have hhold : part.status = .hold := by rw [hpart]
    have hrest : ∀ b ∈ restOf config block size, PartOf b block ∧ b.status = .free := fun b hb =>
      ⟨(restOf_part (by omega) hb).1, (restOf_part (by omega) hb).2.2⟩
    have hoverlaps := (hB.placed (Set.mem_insert _ _)).overlaps_self
    refine ⟨_, _, ⟨hB, fun r => ?_, ?_, ?_, ?_, h.pairwise⟩,
      .alloc hsource (by omega) hsize hpart, hwrites, fun _ => hself⟩
    · change r ∈ part :: w.held ↔ _
      rw [mem_cons, h.mem_held r]
      constructor
      · rintro (rfl | ⟨hr, hstatus⟩)
        · exact ⟨Set.mem_insert _ _, hhold⟩
        · refine ⟨.inr (.inr ⟨hr, ?_⟩), hstatus⟩
          rintro rfl
          rw [hsource.status] at hstatus
          cases hstatus
      · rintro ⟨rfl | hr | hr, hstatus⟩
        · exact .inl rfl
        · rw [(hrest r hr).2] at hstatus
          cases hstatus
        · exact .inr ⟨hr.1, hstatus⟩
    · refine nodup_cons.2 ⟨fun hmem => ?_, h.nodup_held⟩
      exact h.apart_part hsource hpartOf (mem_append_right _ hmem) hoverlaps
    · exact fun r hr => (h.placed r hr).mono hsource.files_subset
    · intro r hr b hb ho
      have hr' := mem_append_left w.held hr
      rcases hb with rfl | hb | hb
      · exact h.apart_part hsource hpartOf hr' ho.symm
      · exact h.apart_part hsource (hrest b hb).1 hr' ho.symm
      · exact h.apart r hr b hb.1 ho

theorem Accounts.confirm {info : TrunkFullInfo} (hinfo : region info ∈ w.held) (now : Int32)
    (status : ℤ) : Meets (step config w (now, .confirm info status)) (Follows config w B now)
      (· ≠ .outside) := by
  obtain ⟨hB, -⟩ := (h.mem_held _).1 hinfo
  have hheld : ∀ r, r ∈ w.held.erase (region info) ↔ r ∈ B \ {region info} ∧ r.status = .hold := by
    intro r
    rw [h.nodup_held.mem_erase_iff, h.mem_held r, Set.mem_sdiff]
    tauto
  unfold step
  dsimp only
  rcases (h.holds.setTime now).allocConfirm hB status with heq | ⟨m', heq, hfiles, hm'⟩
  · rw [heq]
    exact h.follows_setTime now
  by_cases hself : config.ifTrunkerSelf = true
  swap
  · rw [show (w.mem.setTime now).allocConfirm config info status = .ok (w.mem.setTime now, einval)
      from if_pos (.inl hself)]
    exact h.follows_setTime now
  rw [heq]
  dsimp only [bind, Except.bind, pure, Except.pure]
  rw [if_neg (by decide)]
  split_ifs at hm' ⊢ with hstatus
  · refine ⟨_, _, ⟨hm'.1, hheld, h.nodup_held.erase _, ?_, ?_, ?_⟩, hfiles ▸ .take hB, hm'.2,
      fun _ => hself⟩
    · intro r hr
      rw [hfiles]
      rcases mem_cons.1 hr with rfl | hr
      · exact h.holds.placed hB
      · exact h.placed r hr
    · intro r hr b hb ho
      rcases mem_cons.1 hr with rfl | hr
      · exact hb.2 (h.holds.eq_of_overlaps hb.1 hB ho.symm)
      · exact h.apart r hr b hb.1 ho
    · exact pairwise_cons.2 ⟨fun r hr ho => h.apart r hr _ hB ho.symm, h.pairwise⟩
  · refine ⟨_, _, ⟨hm'.1, fun r => (hheld r).trans ?_, h.nodup_held.erase _, ?_, ?_, h.pairwise⟩,
      hfiles ▸ .release hB, hm'.2, fun _ => hself⟩
    · refine and_congr_left fun hhold => ⟨.inr, ?_⟩
      rintro (rfl | hr)
      · cases hhold
      · exact hr
    · intro r hr
      rw [hfiles]
      exact h.placed r hr
    · rintro r hr b (rfl | hb) ho
      · exact h.apart r hr _ hB ho
      · exact h.apart r hr b hb.1 ho

theorem Accounts.free {info : TrunkFullInfo} (hinfo : region info ∈ w.used) (now : Int32) :
    Meets (step config w (now, .free info)) (Follows config w B now) (· ≠ .outside) := by
  have hnodup : w.used.Nodup := h.pairwise.imp_of_mem fun {a b} ha _ hnot heq =>
    hnot (heq ▸ (h.placed a ha).overlaps_self)
  have hsymm : Std.Symm fun r r' : TrunkFullInfo => ¬ Overlaps r r' :=
    ⟨fun _ _ hnot ho => hnot ho.symm⟩
  have hother : ∀ r ∈ w.used.erase (region info), r ∈ w.used ∧ ¬ Overlaps r (region info) := by
    intro r hr
    obtain ⟨hne, hr⟩ := hnodup.mem_erase_iff.1 hr
    exact ⟨hr, h.pairwise.forall hr hinfo hne⟩
  have herase : Accounts config { w with
      mem := w.mem.setTime now, used := w.used.erase (region info) } B :=
    ⟨h.holds.setTime now, h.mem_held, h.nodup_held, fun r hr => h.placed r (hother r hr).1,
      fun r hr => h.apart r (hother r hr).1, h.pairwise.sublist erase_sublist⟩
  unfold step
  dsimp only
  by_cases hcheck : config.ifTrunkerSelf = true ∧ w.mem.trunkInitDone = true
  swap
  · have hinval : (w.mem.setTime now).freeSpace config info true =
        .ok (w.mem.setTime now, einval) := by
      unfold TrunkMem.freeSpace
      by_cases hself : config.ifTrunkerSelf = true
      · rw [if_neg (not_not.2 hself)]
        exact if_pos ⟨fun hdone => hcheck ⟨hself, hdone⟩, rfl⟩
      · exact if_pos hself
    rw [hinval]
    exact h.follows_setTime now
  obtain ⟨hself, hdone⟩ := hcheck
  by_cases hsmall : info.file.size < config.slotMinSize
  · have hzero : (w.mem.setTime now).freeSpace config info true = .ok (w.mem.setTime now, 0) := by
      unfold TrunkMem.freeSpace
      rw [if_neg (not_not.2 hself), if_neg fun hnot => hnot.1 hdone, if_pos hsmall]
    rw [hzero]
    exact ⟨B, [], herase, .lose hinfo, ⟨rfl, rfl, rfl⟩, fun _ => hself⟩
  rcases (h.holds.setTime now).freeSpace hself (.inl hdone) (not_lt.1 hsmall)
    ((h.placed _ hinfo).congr rfl rfl) (h.apart (region info) hinfo) with
    hmemory | ⟨m', heq, h', hfiles, hwrites⟩
  · rw [hmemory]
    exact nofun
  rw [heq]
  refine ⟨_, _, ⟨h', fun r => ?_, h.nodup_held, fun r hr => ?_, ?_, herase.pairwise⟩,
    hfiles ▸ .free hinfo, hwrites, fun _ => hself⟩
  · rw [h.mem_held r]
    refine and_congr_left fun hhold => ⟨.inr, ?_⟩
    rintro (rfl | hr)
    · cases hhold
    · exact hr
  · rw [hfiles]
    exact herase.placed r hr
  · rintro r hr b (rfl | hb) ho
    · exact (hother r hr).2 ho
    · exact herase.apart r hr b hb ho

theorem Accounts.advance (now : Int32) (hasRoom : Bool) (choices : List FileChoice) :
    Meets (step config w (now, .advance hasRoom choices)) (fun w' => ∃ B', Accounts config w' B')
      (· ≠ .outside) := by
  refine ((h.holds.setTime now).createTrunkFileAdvance hasRoom choices).bind ?_
  rintro ⟨m', result⟩ ⟨B', h', hextends⟩
  refine ⟨B', h', fun r => (h.mem_held r).trans (and_congr_left fun hhold => ?_), h.nodup_held,
    fun r hr => (h.placed r hr).mono hextends.files_subset, fun r hr b hb ho => ?_, h.pairwise⟩
  · refine ⟨fun hr => hextends.subset hr, fun hr => ?_⟩
    refine (hextends.new r hr).resolve_right fun hnew => ?_
    rw [hnew.1] at hhold
    cases hhold
  · rcases hextends.new b hb with hb | ⟨-, hid⟩
    · exact h.apart r hr b hb ho
    · exact hid (ho.1 ▸ (h.placed r hr).file)

theorem Accounts.step {op : Int32 × TrunkOp} (hvalid : Valid config w op) :
    Meets (step config w op) (fun w' => ∃ B', Accounts config w' B') (· ≠ .outside) := by
  obtain ⟨now, op⟩ := op
  have hmono : ∀ w', Follows config w B now w' → ∃ B', Accounts config w' B' := by
    rintro w' ⟨B', -, h', -⟩
    exact ⟨B', h'⟩
  cases op with
  | alloc size choice => exact (h.alloc hvalid.1 hvalid.2 now choice).mono hmono fun _ => id
  | confirm info status => exact (h.confirm hvalid now status).mono hmono fun _ => id
  | free info => exact (h.free hvalid now).mono hmono fun _ => id
  | advance hasRoom choices => exact h.advance now hasRoom choices

end

/-! ## No overlapping space is handed out -/

def InSizeTree (m : TrunkMem) (n : NodeId) : Prop :=
  ∃ slot ∈ m.treeInfoBySize.toList, n ∈ slot.head

def InFileTree (m : TrunkMem) (n : NodeId) : Prop :=
  ∃ array ∈ m.treeInfoById.toList, n ∈ array.blocks

/-- Both indexes have the same blocks; they lie inside their files and do not overlap; and an
allocation that succeeds returns a region of the requested size that overlaps none on hold or in
use. -/
structure Sound (config : TrunkConfig) (w : TrunkWorld) : Prop where
  same : ∀ n, InSizeTree w.mem n ↔ InFileTree w.mem n
  apart : ∀ n n', InFileTree w.mem n → InFileTree w.mem n' → n ≠ n' →
    ¬ Overlaps (w.mem.nodes n) (w.mem.nodes n')
  inside : ∀ n, InFileTree w.mem n → 0 ≤ (w.mem.nodes n).file.offset ∧
    0 < (w.mem.nodes n).file.size ∧
    (w.mem.nodes n).file.offset + (w.mem.nodes n).file.size ≤ config.trunkFileSize
  alloc : ∀ (now : Int32) (size : ℤ) (choice : FileChoice) (m' : TrunkMem)
    (result : Option TrunkFullInfo), 1 ≤ size → size ≤ config.slotMaxSize →
    (w.mem.setTime now).allocSpace config size choice = .ok (m', 0, result) →
    ∃ info, result = some info ∧ size ≤ info.file.size ∧ ∀ r ∈ w.used ++ w.held, ¬ Overlaps info r

theorem Accounts.sound (h : Accounts config w B) : Sound config w where
  same n := by
    obtain ⟨S, hS, -⟩ := h.holds
    exact (hS.indexed.size.mem_iff n).symm.trans (hS.indexed.file.mem_iff n)
  apart n n' hn hn' hne ho := by
    obtain ⟨S, hS, -⟩ := h.holds
    exact hne (hS.indexed.file.eq_of_overlaps ((hS.indexed.file.mem_iff n).2 hn)
      ((hS.indexed.file.mem_iff n').2 hn') ho)
  inside n hn := by
    obtain ⟨S, hS, -⟩ := h.holds
    have hplaced := hS.placed n ((hS.indexed.file.mem_iff n).2 hn)
    exact ⟨hplaced.nonneg, hplaced.size_pos, hplaced.le⟩
  alloc now size choice m' result hlo hhi heq := by
    rcases ((h.holds.setTime now).allocSpace hlo hhi choice).post heq with
      ⟨-, hcode, -⟩ | ⟨block, records, part, hsource, hsize, hpart, hresult, -, -⟩
    · exact absurd rfl hcode
    · obtain ⟨hpartOf, hpartSize⟩ := partOf_part config hsize
      obtain ⟨-, rfl⟩ := Prod.mk.inj hresult
      refine ⟨part, rfl, hpart ▸ hpartSize, fun r hr => h.apart_part hsource ?_ hr⟩
      rw [hpart]
      exact ⟨hpartOf.identifier, hpartOf.le, hpartOf.end_le⟩

/-- In every run from the server without files no overlapping space is handed out. -/
theorem trunk_space_apart (config : TrunkConfig) (ops : List (Int32 × TrunkOp))
    (hops : AllSteps (step config) (Valid config) empty ops) :
    Meets (ops.foldlM (step config) empty) (Sound config) (· ≠ .outside) := by
  have hrun : Meets (ops.foldlM (step config) empty) (fun w => ∃ B, Accounts config w B)
      (· ≠ .outside) := by
    apply Meets.foldlM_of_allSteps _ ⟨∅, accounts_empty⟩ hops
    rintro w op ⟨B, h⟩ hvalid
    exact h.step hvalid
  apply hrun.mono _ fun _ => id
  rintro w ⟨B, h⟩
  exact h.sound

def smallConfig : TrunkConfig where
  slotMinSize := 16
  slotMaxSize := 500
  trunkFileSize := 1000
  ifTrunkerSelf := true
  trunkCreateFileAdvance := true
  trunkCreateFileSpaceThreshold := 3000
  slotMinSize_pos := by decide
  slotMaxSize_le := by decide
  trunkFileSize_pos := by decide
  trunkFileSize_lt := by decide

/-- A region is allocated and confirmed, another one is given back, the first one is freed, a part of
it is allocated again, and files are created in advance. -/
def smallRun : List (Int32 × TrunkOp) :=
  [(1, .alloc 100 ⟨some 0, [(1, 2)]⟩), (2, .confirm ⟨.hold, ⟨0, 1, 2⟩, ⟨1, 0, 100⟩⟩ 0),
    (3, .alloc 50 ⟨some 0, [(1, 3)]⟩), (4, .confirm ⟨.hold, ⟨0, 1, 2⟩, ⟨1, 100, 50⟩⟩ 5),
    (5, .free ⟨.hold, ⟨0, 1, 2⟩, ⟨1, 0, 100⟩⟩), (6, .alloc 60 ⟨some 0, [(1, 3)]⟩),
    (7, .advance true [⟨some 0, [(1, 3)]⟩, ⟨some 0, [(1, 4)]⟩])]

theorem trunk_space_apart_smallRun :
    AllSteps (step smallConfig) (Valid smallConfig) empty smallRun ∧
      Meets (smallRun.foldlM (step smallConfig) empty) (Sound smallConfig) (· ≠ .outside) :=
  ⟨by decide +kernel, trunk_space_apart smallConfig smallRun (by decide +kernel)⟩

end TrunkWorld

end ServerStack.Fastdfs
