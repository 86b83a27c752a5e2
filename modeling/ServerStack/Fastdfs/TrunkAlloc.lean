import ServerStack.Fastdfs.TrunkBlocks

/-!
# What the operations of the trunk server do to the free space

The free space is a set of blocks that do not overlap.  Each operation changes this set as its name
says, and writes the changes to the binlog.
-/

namespace ServerStack.Fastdfs

open Outcome Function

namespace TrunkMem

/-! ## The set of free blocks -/

structure Placed (config : TrunkConfig) (files : List TrunkFileIdentifier) (info : TrunkFullInfo) :
    Prop where
  nonneg : 0 ≤ info.file.offset
  size_pos : 0 < info.file.size
  le : info.file.offset + info.file.size ≤ config.trunkFileSize
  file : info.identifier ∈ files

structure HoldsAt (config : TrunkConfig) (m : TrunkMem) (S : Set NodeId) : Prop where
  indexed : Indexed m S
  placed : ∀ n ∈ S, Placed config m.files (m.nodes n)
  fresh : ∀ n ∈ S, n < m.nextNode

/-- The node holds a block that is in no index and apart from the free space. -/
structure Loose (config : TrunkConfig) (m : TrunkMem) (S : Set NodeId) (n : NodeId) : Prop where
  notMem : n ∉ S
  lt : n < m.nextNode
  placed : Placed config m.files (m.nodes n)
  apart : ∀ k ∈ S, ¬ Overlaps (m.nodes n) (m.nodes k)

def Holds (config : TrunkConfig) (m : TrunkMem) (B : Set TrunkFullInfo) : Prop :=
  ∃ S, HoldsAt config m S ∧ B = m.nodes '' S

/-- What a line of the binlog says about `g_trunk_total_free_space`. -/
def countSpace (total : ℤ) : OpType × TrunkFullInfo → ℤ
  | (.addSpace, info) => total + info.file.size
  | (.delSpace, info) => total - info.file.size

structure Writes (m m' : TrunkMem) (writeBinLog : Bool) (records : List (OpType × TrunkFullInfo)) :
    Prop where
  binlog : m'.binlog =
    if writeBinLog then records.foldl (fun log r => binlogWrite log m.currentTime r.1 r.2) m.binlog
    else m.binlog
  currentTime : m'.currentTime = m.currentTime
  total : m'.trunkTotalFreeSpace = records.foldl countSpace m.trunkTotalFreeSpace

theorem Writes.trans {m m' m'' : TrunkMem} {rs rs' : List (OpType × TrunkFullInfo)}
    (h : Writes m m' true rs) (h' : Writes m' m'' true rs') : Writes m m'' true (rs ++ rs') where
  binlog := by
    rw [h'.binlog, h.currentTime, h.binlog, List.foldl_append]
    rfl
  currentTime := h'.currentTime.trans h.currentTime
  total := by rw [h'.total, h.total, List.foldl_append]

section

variable {config : TrunkConfig} {m : TrunkMem} {S : Set NodeId} {n : NodeId}

variable {files : List TrunkFileIdentifier} {info : TrunkFullInfo}

section

variable (h : Placed config files info)

include h

theorem Placed.mono {files' : List TrunkFileIdentifier}
    (hfiles : files ⊆ files') : Placed config files' info :=
  ⟨h.nonneg, h.size_pos, h.le, hfiles h.file⟩

theorem Placed.congr {info' : TrunkFullInfo}
    (hpath : info'.path = info.path) (hfile : info'.file = info.file) :
    Placed config files info' := by
  obtain ⟨status, path, file⟩ := info'
  obtain rfl : path = info.path := hpath
  obtain rfl : file = info.file := hfile
  exact ⟨h.nonneg, h.size_pos, h.le, h.file⟩

theorem Placed.overlaps_self : Overlaps info info := by
  have := h.size_pos
  exact ⟨rfl, by omega, by omega⟩

end

theorem Holds.placed {B : Set TrunkFullInfo} (h : Holds config m B) {b : TrunkFullInfo}
    (hb : b ∈ B) : Placed config m.files b := by
  obtain ⟨S, hS, rfl⟩ := h
  obtain ⟨n, hn, rfl⟩ := hb
  exact hS.placed n hn

theorem Holds.eq_of_overlaps {B : Set TrunkFullInfo} (h : Holds config m B) {b b' : TrunkFullInfo}
    (hb : b ∈ B) (hb' : b' ∈ B) (hoverlaps : Overlaps b b') : b = b' := by
  obtain ⟨S, hS, rfl⟩ := h
  obtain ⟨n, hn, rfl⟩ := hb
  obtain ⟨n', hn', rfl⟩ := hb'
  rw [hS.indexed.file.eq_of_overlaps hn hn' hoverlaps]

variable (h : HoldsAt config m S)

include h

theorem HoldsAt.congr {m' : TrunkMem}
    (hsizes : m'.treeInfoBySize = m.treeInfoBySize) (hfiles : m'.treeInfoById = m.treeInfoById)
    (hnodes : ∀ k ∈ S, m'.nodes k = m.nodes k) (hnext : m.nextNode ≤ m'.nextNode)
    (hexist : m.files ⊆ m'.files) : HoldsAt config m' S where
  indexed := h.indexed.congr hsizes hfiles fun k hk => by rw [hnodes k hk]; exact ⟨rfl, rfl⟩
  placed k hk := hnodes k hk ▸ (h.placed k hk).mono hexist
  fresh k hk := (h.fresh k hk).trans_le hnext

theorem HoldsAt.newNode_ne : ∀ k ∈ S, k ≠ m.nextNode := fun k hk =>
  (h.fresh k hk).ne

theorem HoldsAt.image_diff (hn : n ∈ S) : m.nodes '' (S \ {n}) = m.nodes '' S \ {m.nodes n} := by
  ext b
  constructor
  · rintro ⟨k, hk, rfl⟩
    refine ⟨⟨k, hk.1, rfl⟩, fun heq => hk.2 ?_⟩
    have hoverlaps : Overlaps (m.nodes k) (m.nodes n) :=
      (show m.nodes k = m.nodes n from heq) ▸ (h.placed k hk.1).overlaps_self
    exact h.indexed.file.eq_of_overlaps hk.1 hn hoverlaps
  · rintro ⟨⟨k, hk, rfl⟩, hne⟩
    refine ⟨k, ⟨hk, ?_⟩, rfl⟩
    rintro rfl
    exact hne rfl

theorem HoldsAt.newNode (hplaced : Placed config m.files info)
    (hapart : ∀ k ∈ S, ¬ Overlaps info (m.nodes k)) :
    HoldsAt config (m.newNode info).1 S ∧ Loose config (m.newNode info).1 S m.nextNode := by
  have hnodes : ∀ k ∈ S, (m.newNode info).1.nodes k = m.nodes k := fun k hk =>
    update_of_ne (h.newNode_ne k hk) _ _
  have hself : (m.newNode info).1.nodes m.nextNode = info := update_self _ _ _
  refine ⟨h.congr rfl rfl hnodes (Nat.le_succ _) (List.Subset.refl _), ?_⟩
  refine ⟨fun hmem => h.newNode_ne _ hmem rfl, Nat.lt_succ_self _, ?_, fun k hk => ?_⟩
  · rw [hself]
    exact hplaced
  · rw [hself, hnodes k hk]
    exact hapart k hk

theorem HoldsAt.setNode (hn : n ∉ S) (info : TrunkFullInfo) :
    HoldsAt config { m with nodes := update m.nodes n info } S ∧
      update m.nodes n info '' S = m.nodes '' S := by
  have hnodes : ∀ k ∈ S, update m.nodes n info k = m.nodes k := fun k hk =>
    update_of_ne (by rintro rfl; exact hn hk) _ _
  exact ⟨h.congr rfl rfl hnodes le_rfl (List.Subset.refl _), Set.image_congr hnodes⟩

theorem HoldsAt.addFreeBlock (hn : Loose config m S n)
    (writeBinLog : Bool) : m.addFreeBlock n writeBinLog = .error .memory ∨ ∃ m',
      m.addFreeBlock n writeBinLog = .ok (m', 0) ∧ HoldsAt config m' (insert n S) ∧
        m'.nodes = m.nodes ∧ m'.nextNode = m.nextNode ∧ m'.files = m.files ∧
        Writes m m' writeBinLog [(.addSpace, m.nodes n)] := by
  rcases h.indexed.addFreeBlock hn.notMem hn.placed.size_pos hn.apart writeBinLog with
    hmemory | ⟨sizes, files, hindexed, heq⟩
  · exact .inl hmemory
  refine .inr ⟨_, heq, ⟨hindexed, ?_, ?_⟩, rfl, rfl, rfl, rfl, rfl, rfl⟩
  · rintro k (rfl | hk)
    · exact hn.placed
    · exact h.placed k hk
  · rintro k (rfl | hk)
    · exact hn.lt
    · exact h.fresh k hk

end

/-! ## Splitting a block -/

/-- The block that `trunk_split` leaves in the node. -/
def partOf (config : TrunkConfig) (block : TrunkFullInfo) (size : ℤ) : TrunkFullInfo :=
  if block.file.size - size < config.slotMinSize then block
  else { block with file := { block.file with size } }

/-- The block that `trunk_split` gives back to the free space. -/
def restOf (config : TrunkConfig) (block : TrunkFullInfo) (size : ℤ) : List TrunkFullInfo :=
  if block.file.size - size < config.slotMinSize then []
  else [{ block with
    status := .free
    file := ⟨block.file.id, block.file.offset + size, block.file.size - size⟩ }]

section

variable {config : TrunkConfig} {m : TrunkMem} {S : Set NodeId} {n : NodeId}
  {block : TrunkFullInfo} {size : ℤ}

structure PartOf (part block : TrunkFullInfo) : Prop where
  identifier : part.identifier = block.identifier
  le : block.file.offset ≤ part.file.offset
  end_le : part.file.offset + part.file.size ≤ block.file.offset + block.file.size

theorem PartOf.overlaps {part : TrunkFullInfo} (h : PartOf part block) {b : TrunkFullInfo}
    (hoverlaps : Overlaps part b) : Overlaps block b := by
  obtain ⟨hid, hlo, hhi⟩ := hoverlaps
  have := h.le
  have := h.end_le
  exact ⟨h.identifier.symm.trans hid, by omega, by omega⟩

theorem PartOf.placed {files : List TrunkFileIdentifier} {part : TrunkFullInfo}
    (h : PartOf part block) (hblock : Placed config files block) (hsize : 0 < part.file.size) :
    Placed config files part :=
  ⟨hblock.nonneg.trans h.le, hsize, h.end_le.trans hblock.le, h.identifier ▸ hblock.file⟩

theorem partOf_part (config : TrunkConfig) (hhi : size ≤ block.file.size) :
    PartOf (partOf config block size) block ∧ size ≤ (partOf config block size).file.size := by
  unfold partOf
  split_ifs
  · exact ⟨⟨rfl, le_rfl, le_rfl⟩, hhi⟩
  · exact ⟨⟨rfl, le_rfl, by dsimp only; omega⟩, le_rfl⟩

theorem restOf_part (hlo : 0 < size) {rest : TrunkFullInfo}
    (hrest : rest ∈ restOf config block size) :
    PartOf rest block ∧ 0 < rest.file.size ∧ rest.status = .free := by
  have := config.slotMinSize_pos
  unfold restOf at hrest
  split_ifs at hrest
  · cases hrest
  · obtain rfl := List.mem_singleton.1 hrest
    exact ⟨⟨rfl, by dsimp only; omega, by dsimp only; omega⟩, by dsimp only; omega, rfl⟩

theorem split_spec (h : HoldsAt config m S) (hn : Loose config m S n) (hlo : 0 < size)
    (hhi : size ≤ (m.nodes n).file.size) :
    Meets (m.split config n size) (fun r => r.2 = 0 ∧ ∃ S', HoldsAt config r.1 S' ∧
      Loose config r.1 S' n ∧ r.1.nodes n = partOf config (m.nodes n) size ∧
      r.1.nodes '' S' = {b | b ∈ restOf config (m.nodes n) size} ∪ m.nodes '' S ∧
      r.1.files = m.files ∧
      Writes m r.1 true ((.delSpace, m.nodes n) ::
        (restOf config (m.nodes n) size).map fun b => (.addSpace, b))) (· ≠ .outside) := by
  obtain ⟨hpart, hsize⟩ := partOf_part config hhi
  unfold TrunkMem.split
  dsimp only
  by_cases hsmall : (m.nodes n).file.size - size < config.slotMinSize
  · rw [if_pos hsmall]
    unfold partOf restOf
    rw [if_pos hsmall, if_pos hsmall]
    refine ⟨rfl, S, h.congr rfl rfl (fun _ _ => rfl) le_rfl (List.Subset.refl _),
      ⟨hn.notMem, hn.lt, hn.placed, hn.apart⟩, rfl, ?_, rfl, rfl, rfl, rfl⟩
    simp [memBinlogWrite, noteSpace]
  rw [if_neg hsmall]
  set deleted := m.memBinlogWrite .delSpace (m.nodes n)
  set rest : TrunkFullInfo := { m.nodes n with
    status := .free
    file := ⟨(m.nodes n).file.id, (m.nodes n).file.offset + size, (m.nodes n).file.size - size⟩ }
    with hrest
  have hrestOf : restOf config (m.nodes n) size = [rest] := if_neg hsmall
  obtain ⟨hrestPart, hrestPos, -⟩ := restOf_part hlo
    (hrestOf.symm ▸ List.mem_singleton_self rest : rest ∈ restOf config (m.nodes n) size)
  have h₁ : HoldsAt config deleted S :=
    h.congr rfl rfl (fun _ _ => rfl) le_rfl (List.Subset.refl _)
  obtain ⟨h₂, hloose⟩ := h₁.newNode (hrestPart.placed hn.placed hrestPos) fun k hk ho =>
    hn.apart k hk (hrestPart.overlaps ho)
  rcases h₂.addFreeBlock hloose true with hmemory | ⟨m₃, heq, h₃, hnodes, hnext, hfiles, hwrites⟩
  · have hmemory' : (deleted.newNode rest).1.addFreeBlock (deleted.newNode rest).2 true =
        .error .memory := hmemory
    rw [hmemory']
    exact nofun
  have heq' : (deleted.newNode rest).1.addFreeBlock (deleted.newNode rest).2 true =
      .ok (m₃, 0) := heq
  rw [heq']
  have hne : n ≠ m.nextNode := hn.lt.ne
  have hnotMem : n ∉ insert m.nextNode S := by
    rintro (heq | hmem)
    · exact hne heq
    · exact hn.notMem hmem
  have hnodes' : ∀ k, k ≠ m.nextNode → m₃.nodes k = m.nodes k := fun k hk => by
    rw [hnodes]
    exact update_of_ne hk _ _
  have hself : m₃.nodes m.nextNode = rest := by
    rw [hnodes]
    exact update_self _ _ _
  have hpartOf : partOf config (m.nodes n) size =
      { m.nodes n with file := { (m.nodes n).file with size } } := if_neg hsmall
  rw [← hpartOf]
  obtain ⟨h₄, himage⟩ := h₃.setNode hnotMem (partOf config (m.nodes n) size)
  refine ⟨rfl, insert m.nextNode S, h₄, ?_, update_self _ _ _, ?_, hfiles, ?_⟩
  · refine ⟨hnotMem, ?_, ?_, fun k hk => ?_⟩ <;> dsimp only
    · exact hn.lt.trans_le (hnext.symm ▸ Nat.le_succ _)
    · rw [update_self]
      exact hfiles.symm ▸ hpart.placed hn.placed (hlo.trans_le hsize)
    · rw [update_self, update_of_ne (by rintro rfl; exact hnotMem hk)]
      rcases hk with rfl | hk
      · rw [hself]
        rintro ⟨-, -, hhi'⟩
        rw [hpartOf] at hhi'
        exact lt_irrefl _ hhi'
      · rw [hnodes' k (h.newNode_ne k hk)]
        exact fun ho => hn.apart k hk (hpart.overlaps ho)
  · refine himage.trans ?_
    change m₃.nodes '' insert m.nextNode S = _
    rw [Set.image_insert_eq, hself, hrestOf,
      Set.image_congr fun k hk => hnodes' k (h.newNode_ne k hk)]
    simp only [List.mem_singleton, Set.ofPred_eq_eq_singleton, Set.singleton_union]
  · have hdel : Writes m deleted true [(.delSpace, m.nodes n)] := ⟨rfl, rfl, rfl⟩
    have hnode : (deleted.newNode rest).1.nodes deleted.nextNode = rest := update_self _ _ _
    rw [hnode] at hwrites
    have hadd : Writes deleted m₃ true [(.addSpace, rest)] :=
      ⟨hwrites.binlog, hwrites.currentTime, hwrites.total⟩
    rw [hrestOf]
    exact ⟨(hdel.trans hadd).binlog, (hdel.trans hadd).currentTime, (hdel.trans hadd).total⟩

end

/-! ## Allocation -/

structure NewFile (config : TrunkConfig) (files : List TrunkFileIdentifier)
    (block : TrunkFullInfo) : Prop where
  notMem : block.identifier ∉ files
  status : block.status = .free
  offset : block.file.offset = 0
  size : block.file.size = config.trunkFileSize

/-- Where an allocation takes its block from, the files that exist then, and what was written to
the binlog for it. -/
inductive Source (config : TrunkConfig) (files : List TrunkFileIdentifier)
    (B : Set TrunkFullInfo) (block : TrunkFullInfo) :
    List TrunkFileIdentifier → List (OpType × TrunkFullInfo) → Prop where
  | old : block ∈ B → block.status = .free → Source config files B block files []
  | new : NewFile config files block →
      Source config files B block (block.identifier :: files) [(.addSpace, block)]

section

variable {config : TrunkConfig} {files files' : List TrunkFileIdentifier} {B : Set TrunkFullInfo}
  {block : TrunkFullInfo} {records : List (OpType × TrunkFullInfo)}

variable (h : Source config files B block files' records)

include h

theorem Source.status : block.status = .free := by
  cases h with
  | old _ hstatus => exact hstatus
  | new hnew => exact hnew.status

theorem Source.files_subset : files ⊆ files' := by
  cases h with
  | old => exact List.Subset.refl _
  | new => exact List.subset_cons_self _ _

theorem Source.placed (hB : ∀ b ∈ B, Placed config files b) : Placed config files' block := by
  cases h with
  | old hmem => exact hB block hmem
  | new hnew =>
    refine ⟨hnew.offset.ge, hnew.size ▸ config.trunkFileSize_pos, ?_, List.mem_cons_self⟩
    rw [hnew.offset, hnew.size, zero_add]

theorem Source.apart {r : TrunkFullInfo}
    (hplaced : Placed config files r) (hapart : ∀ b ∈ B, ¬ Overlaps r b) : ¬ Overlaps r block := by
  cases h with
  | old hmem => exact hapart block hmem
  | new hnew => exact fun ho => hnew.notMem (ho.1 ▸ hplaced.file)

end

section

variable {config : TrunkConfig} {m : TrunkMem} {S : Set NodeId}

theorem createNextFileLoop_spec (storePathIndex : UInt8) (subPaths : List (UInt8 × UInt8)) :
    Meets (createNextFileLoop storePathIndex m subPaths) (fun r => ∃ file ∉ m.files,
      r = ({ m with currentTrunkFileId := file.id, files := file :: m.files }, file))
      (· ≠ .outside) := by
  induction subPaths generalizing m with
  | nil => exact nofun
  | cons subPath subPaths ih =>
    rw [createNextFileLoop]
    split_ifs with hmem
    · exact ih
    · exact ⟨_, hmem, rfl⟩

theorem createTrunkFile_spec (h : HoldsAt config m S) (choice : FileChoice) :
    Meets (m.createTrunkFile config choice) (fun r =>
      match r with
      | (m', none, result) => m' = m ∧ result ≠ 0
      | (m', some n, _) => HoldsAt config m' S ∧ Loose config m' S n ∧
          NewFile config m.files (m'.nodes n) ∧
          m'.files = (m'.nodes n).identifier :: m.files ∧ (∀ k ∈ S, m'.nodes k = m.nodes k) ∧
          Writes m m' true [(.addSpace, m'.nodes n)]) (· ≠ .outside) := by
  unfold createTrunkFile
  cases choice.storePathIndex with
  | none => exact ⟨rfl, by decide⟩
  | some storePathIndex =>
    refine (createNextFileLoop_spec storePathIndex choice.subPaths).bind ?_
    rintro _ ⟨file, hnew, rfl⟩
    set m₁ := { m with currentTrunkFileId := file.id, files := file :: m.files }
    set info : TrunkFullInfo := ⟨.free, file.path, ⟨file.id, 0, config.trunkFileSize⟩⟩
    have h₁ : HoldsAt config m₁ S :=
      h.congr rfl rfl (fun _ _ => rfl) le_rfl (List.subset_cons_self _ _)
    have hplaced : Placed config m₁.files info :=
      ⟨le_rfl, config.trunkFileSize_pos, (zero_add _).le, List.mem_cons_self⟩
    obtain ⟨h₂, hloose⟩ := h₁.newNode hplaced fun k hk ho => hnew <| by
      have hfile := (h.placed k hk).file
      rwa [← show info.identifier = (m.nodes k).identifier from ho.1] at hfile
    set m₂ := (m₁.newNode info).1.memBinlogWrite .addSpace info
    have hself : m₂.nodes m.nextNode = info := update_self _ _ _
    change HoldsAt config m₂ S ∧ Loose config m₂ S m.nextNode ∧
      NewFile config m.files (m₂.nodes m.nextNode) ∧
      m₂.files = (m₂.nodes m.nextNode).identifier :: m.files ∧ (∀ k ∈ S, m₂.nodes k = m.nodes k) ∧
      Writes m m₂ true [(.addSpace, m₂.nodes m.nextNode)]
    rw [hself]
    refine ⟨h₂.congr rfl rfl (fun _ _ => rfl) le_rfl (List.Subset.refl _),
      ⟨hloose.notMem, hloose.lt, hloose.placed, hloose.apart⟩, ⟨hnew, rfl, rfl, rfl⟩, rfl,
      fun k hk => ?_, rfl, rfl, rfl⟩
    exact update_of_ne (h.newNode_ne k hk) _ _

theorem takeBlock_spec (h : HoldsAt config m S) {size : ℤ} (hsize : size ≤ config.slotMaxSize)
    (choice : FileChoice) :
    Meets (m.takeBlock config size choice) (fun r =>
      match r with
      | (m', none, result) => m' = m ∧ result ≠ 0
      | (m', some n, _) => ∃ S' records, HoldsAt config m' S' ∧ Loose config m' S' n ∧
          m'.nodes '' S' = m.nodes '' S \ {m'.nodes n} ∧
          Source config m.files (m.nodes '' S) (m'.nodes n) m'.files records ∧
          Writes m m' true records ∧ size ≤ (m'.nodes n).file.size) (· ≠ .outside) := by
  unfold takeBlock
  cases hfind : m.findFree (config.trunkFileSize.toNat + 1) (max size config.slotMinSize) with
  | none =>
    refine (createTrunkFile_spec h choice).mono ?_ fun _ => id
    rintro ⟨m', n, result⟩ hr
    cases n with
    | none => exact hr
    | some n =>
      obtain ⟨h', hloose, hnew, hfiles, hnodes, hwrites⟩ := hr
      refine ⟨S, _, h', hloose, ?_, hfiles ▸ .new hnew, hwrites, ?_⟩
      · rw [Set.image_congr hnodes, Set.sdiff_singleton_eq_self]
        rintro ⟨k, hk, heq⟩
        exact hnew.notMem (heq ▸ (h.placed k hk).file)
      · rw [hnew.size]
        exact hsize.trans config.slotMaxSize_le
  | some found =>
    obtain ⟨slot, n⟩ := found
    obtain ⟨hslot, hn, hstatus, hle⟩ := h.indexed.size.findFree_some hfind
    obtain ⟨sizes, files, hindexed, heq⟩ := h.indexed.unlink hslot hn
    have hmem : n ∈ S := (h.indexed.size.mem_iff n).2 ⟨slot, hslot, hn⟩
    dsimp only
    rw [heq]
    refine ⟨S \ {n}, [], ⟨hindexed, fun k hk => h.placed k hk.1, fun k hk => h.fresh k hk.1⟩,
      ⟨fun hmem => hmem.2 rfl, h.fresh n hmem, h.placed n hmem, fun k hk ho => ?_⟩, ?_,
      .old ⟨n, hmem, rfl⟩ hstatus, ⟨rfl, rfl, rfl⟩, ?_⟩
    · exact hk.2 (h.indexed.file.eq_of_overlaps hk.1 hmem ho.symm)
    · exact h.image_diff hmem
    · have := h.indexed.size.size slot hslot n hn
      dsimp only
      omega

theorem Holds.allocSpace {B : Set TrunkFullInfo} (h : Holds config m B) {size : ℤ}
    (hlo : 1 ≤ size) (hhi : size ≤ config.slotMaxSize) (choice : FileChoice) :
    Meets (m.allocSpace config size choice) (fun r =>
      (r.1 = m ∧ r.2.1 ≠ 0 ∧ r.2.2 = none) ∨
      ∃ block records part, Source config m.files B block r.1.files records ∧
        size ≤ block.file.size ∧ part = { partOf config block size with status := .hold } ∧
        r.2 = (0, some part) ∧
        Holds config r.1 (insert part ({b | b ∈ restOf config block size} ∪ (B \ {block}))) ∧
        Writes m r.1 true (records ++ (.delSpace, block) ::
          (restOf config block size).map (fun b => (.addSpace, b)) ++ [(.addSpace, part)]))
      (· ≠ .outside) := by
  obtain ⟨S, h, rfl⟩ := h
  unfold TrunkMem.allocSpace
  split_ifs with hcheck
  · exact .inl ⟨rfl, (by decide : einval ≠ 0), rfl⟩
  refine (takeBlock_spec h hhi choice).bind ?_
  rintro ⟨m₁, n, result⟩ hr
  cases n with
  | none => exact .inl ⟨hr.1, hr.2, rfl⟩
  | some n =>
    obtain ⟨S₁, records, h₁, hloose, himage, hsource, hwrites, hsize⟩ := hr
    refine (split_spec h₁ hloose (by omega) hsize).bind ?_
    rintro ⟨m₂, result⟩ ⟨hzero, S₂, h₂, hloose₂, hpart, himage₂, hfiles₂, hwrites₂⟩
    dsimp only at hzero hpart himage₂ hfiles₂ hwrites₂ h₂ hloose₂ ⊢
    rw [if_neg (not_not.2 hzero), hpart]
    set part : TrunkFullInfo := { partOf config (m₁.nodes n) size with status := .hold } with hdef
    obtain ⟨h₃, himage₃⟩ := h₂.setNode hloose₂.notMem part
    set m₃ : TrunkMem := { m₂ with nodes := update m₂.nodes n part }
    have hself : m₃.nodes n = part := update_self _ _ _
    have hloose₃ : Loose config m₃ S₂ n := by
      have hplaced := hpart ▸ hloose₂.placed
      refine ⟨hloose₂.notMem, hloose₂.lt, ?_, fun k hk => ?_⟩
      · rw [hself]
        exact hplaced.congr rfl rfl
      · rw [hself, show m₃.nodes k = m₂.nodes k from
          update_of_ne (by rintro rfl; exact hloose₂.notMem hk) _ _]
        intro ho
        apply hloose₂.apart k hk
        rw [hpart]
        exact ho
    rcases h₃.addFreeBlock hloose₃ true with hmemory | ⟨m₄, heq, h₄, hnodes, -, hfiles, hwrites₄⟩
    · rw [hmemory]
      exact nofun
    rw [heq]
    refine .inr ⟨m₁.nodes n, records, part, ?_, hsize, rfl, ?_, ⟨insert n S₂, h₄, ?_⟩, ?_⟩
    · rw [hfiles]
      exact hfiles₂ ▸ hsource
    · change (0, some (m₄.nodes n)) = _
      rw [hnodes, hself]
    · rw [hnodes, Set.image_insert_eq, hself]
      rw [himage₃, himage₂, himage]
    · rw [hself] at hwrites₄
      have hhold : Writes m₂ m₄ true [(.addSpace, part)] :=
        ⟨hwrites₄.binlog, hwrites₄.currentTime, hwrites₄.total⟩
      simpa only [List.append_assoc] using (hwrites.trans hwrites₂).trans hhold

end

/-! ## The other operations -/

variable {config : TrunkConfig} {m : TrunkMem} {B : Set TrunkFullInfo} {info : TrunkFullInfo}

variable (h : Holds config m B)

include h

theorem Holds.deleteSpace (hinfo : info ∈ B) (writeBinLog : Bool) :
    ∃ m', m.deleteSpace info writeBinLog = .ok (m', 0) ∧ Holds config m' (B \ {info}) ∧
      m'.files = m.files ∧ Writes m m' writeBinLog [(.delSpace, info)] := by
  obtain ⟨S, h, rfl⟩ := h
  obtain ⟨n, hn, rfl⟩ := hinfo
  obtain ⟨sizes, files, hindexed, heq⟩ := h.indexed.deleteSpace hn writeBinLog
  refine ⟨_, heq, ⟨S \ {n}, ⟨hindexed, fun k hk => h.placed k hk.1, fun k hk => h.fresh k hk.1⟩,
    (h.image_diff hn).symm⟩, rfl, rfl, rfl, rfl⟩

theorem Holds.deleteSpace_of_notMem (hinfo : info ∉ B) (writeBinLog : Bool) :
    m.deleteSpace info writeBinLog = .ok (m, enoent) := by
  obtain ⟨S, h, rfl⟩ := h
  exact h.indexed.deleteSpace_of_not_mem (fun k hk heq => hinfo ⟨k, hk, heq⟩) writeBinLog

theorem Holds.restoreNode (hinfo : info ∈ B) : ∃ m', m.restoreNode info = (m', 0) ∧
      Holds config m' (insert { info with status := .free } (B \ {info})) ∧
      m'.files = m.files ∧ Writes m m' true [] := by
  obtain ⟨S, h, rfl⟩ := h
  obtain ⟨n, hn, rfl⟩ := hinfo
  have hsame : ∀ k, (update m.nodes n { m.nodes n with status := .free } k).path =
      (m.nodes k).path ∧ (update m.nodes n { m.nodes n with status := .free } k).file =
      (m.nodes k).file := by
    intro k
    by_cases hkn : k = n
    · subst hkn
      rw [update_self]
      exact ⟨rfl, rfl⟩
    · rw [update_of_ne hkn]
      exact ⟨rfl, rfl⟩
  refine ⟨_, h.indexed.restoreNode hn, ⟨S, ⟨h.indexed.congr rfl rfl fun k _ => hsame k,
    fun k hk => (h.placed k hk).congr (hsame k).1 (hsame k).2, h.fresh⟩, ?_⟩, rfl, rfl, rfl, rfl⟩
  have hsplit : insert n (S \ {n}) = S := by
    rw [Set.insert_sdiff_singleton, Set.insert_eq_of_mem hn]
  have hrest : ∀ k ∈ S \ {n},
      update m.nodes n { m.nodes n with status := .free } k = m.nodes k := fun k hk =>
    update_of_ne hk.2 _ _
  have himage := @Set.image_insert_eq _ _
    (update m.nodes n { m.nodes n with status := .free }) n (S \ {n})
  rw [hsplit, update_self, Set.image_congr hrest, h.image_diff hn] at himage
  exact himage.symm

section

variable (hself : config.ifTrunkerSelf = true) {writeBinLog : Bool}
  (hdone : m.trunkInitDone = true ∨ writeBinLog = false)
  (hsize : config.slotMinSize ≤ info.file.size)

include hself hdone hsize

omit h in
theorem freeSpace_eq : m.freeSpace config info writeBinLog =
    (m.newNode { info with status := .free }).1.addFreeBlock m.nextNode writeBinLog := by
  unfold TrunkMem.freeSpace
  rw [if_neg (not_not.2 hself), if_neg (by rcases hdone with hdone | hdone <;> simp [hdone]),
    if_neg (not_lt.2 hsize)]
  rfl

theorem Holds.freeSpace (hplaced : Placed config m.files info)
    (hapart : ∀ b ∈ B, ¬ Overlaps info b) :
    m.freeSpace config info writeBinLog = .error .memory ∨ ∃ m',
      m.freeSpace config info writeBinLog = .ok (m', 0) ∧
        Holds config m' (insert { info with status := .free } B) ∧ m'.files = m.files ∧
        Writes m m' writeBinLog [(.addSpace, { info with status := .free })] := by
  obtain ⟨S, h, rfl⟩ := h
  rw [freeSpace_eq hself hdone hsize]
  set free : TrunkFullInfo := { info with status := .free }
  have hplaced' : Placed config m.files free := hplaced.congr rfl rfl
  obtain ⟨h₁, hloose⟩ := h.newNode hplaced' fun k hk => hapart _ ⟨k, hk, rfl⟩
  have hnode : (m.newNode free).1.nodes m.nextNode = free := update_self _ _ _
  rcases h₁.addFreeBlock hloose writeBinLog with hmemory | ⟨m', heq, h', hnodes, -, hfiles, hwrites⟩
  · exact .inl hmemory
  refine .inr ⟨m', heq, ⟨insert m.nextNode S, h', ?_⟩, hfiles, ?_⟩
  · rw [hnodes, Set.image_insert_eq, hnode, Set.image_congr fun k hk =>
      show (m.newNode free).1.nodes k = m.nodes k from
        update_of_ne (h.newNode_ne k hk) _ _]
  · rw [hnode] at hwrites
    exact ⟨hwrites.binlog, hwrites.currentTime, hwrites.total⟩

theorem Holds.freeSpace_of_overlaps (hoverlaps : ∃ b ∈ B, Overlaps info b) :
    ∃ m', m.freeSpace config info writeBinLog = .ok (m', eexist) ∧ Holds config m' B ∧
      m'.files = m.files ∧ Writes m m' true [] := by
  obtain ⟨S, h, rfl⟩ := h
  have := config.slotMinSize_pos
  rw [freeSpace_eq hself hdone hsize]
  set free : TrunkFullInfo := { info with status := .free }
  have hnodes : ∀ k ∈ S, (m.newNode free).1.nodes k = m.nodes k := fun k hk =>
    update_of_ne (h.newNode_ne k hk) _ _
  have hnode : (m.newNode free).1.nodes m.nextNode = free := update_self _ _ _
  have h₁ : HoldsAt config (m.newNode free).1 S :=
    h.congr rfl rfl hnodes (Nat.le_succ _) (List.Subset.refl _)
  refine ⟨_, h₁.indexed.addFreeBlock_of_overlaps ?_ ?_ writeBinLog,
    ⟨S, h₁, (Set.image_congr hnodes).symm⟩, rfl, rfl, rfl, rfl⟩
  · rw [hnode]
    exact lt_of_lt_of_le (by assumption) hsize
  · obtain ⟨_, ⟨k, hk, rfl⟩, hoverlaps⟩ := hoverlaps
    refine ⟨k, hk, ?_⟩
    rw [hnode, hnodes k hk]
    exact hoverlaps

end

theorem Holds.allocConfirm (hinfo : { info with status := .hold } ∈ B)
    (status : ℤ) : m.allocConfirm config info status = .ok (m, einval) ∨
      ∃ m', m.allocConfirm config info status = .ok (m', 0) ∧ m'.files = m.files ∧
        if status = 0 ∨ status = eexist then
          Holds config m' (B \ {{ info with status := .hold }}) ∧
            Writes m m' true [(.delSpace, { info with status := .hold })]
        else
          Holds config m'
            (insert { info with status := .free } (B \ {{ info with status := .hold }})) ∧
            Writes m m' true [] := by
  unfold TrunkMem.allocConfirm
  by_cases hcheck : ¬ config.ifTrunkerSelf = true ∨ ¬ m.trunkInitDone = true
  · exact .inl (if_pos hcheck)
  rw [if_neg hcheck]
  by_cases hstatus : status = 0 ∨ status = eexist
  · obtain ⟨m', heq, h', hfiles, hwrites⟩ := h.deleteSpace hinfo true
    rw [if_pos hstatus]
    refine .inr ⟨m', heq, hfiles, ?_⟩
    rw [if_pos hstatus]
    exact ⟨h', hwrites⟩
  · obtain ⟨m', heq, h', hfiles, hwrites⟩ := h.restoreNode hinfo
    rw [if_neg hstatus]
    refine .inr ⟨m', congrArg Except.ok heq, hfiles, ?_⟩
    rw [if_neg hstatus]
    exact ⟨h', hwrites⟩

theorem Holds.setTime (now : Int32) : Holds config (m.setTime now) B := by
  obtain ⟨S, hS, hB⟩ := h
  exact ⟨S, hS.congr rfl rfl (fun _ _ => rfl) le_rfl (List.Subset.refl _), hB⟩

end TrunkMem

end ServerStack.Fastdfs
