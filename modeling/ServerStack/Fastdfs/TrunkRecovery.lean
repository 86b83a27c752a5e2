import ServerStack.Fastdfs.TrunkReplay
import ServerStack.Fastdfs.TrunkSpace

/-!
# The binlog determines the free space

Runs of the trunk server with its clients, in which the binlog is flushed and the free space is saved
from time to time.  The server that is started again from the binlog, or from a data file and the
binlog, has the free space of the one that was stopped.
-/

namespace ServerStack.Fastdfs

open OrderedList Outcome RedoLog Redis.Util List TrunkWorld

namespace TrunkMem

/-! ## The data file -/

/-- The nodes in the order of `storage_trunk_save`. -/
def nodesBySize (m : TrunkMem) : List NodeId := m.treeInfoBySize.toList.flatMap (·.head)

/-- The sum of the sizes of the blocks in the index by size. -/
def sizeTotal (m : TrunkMem) : ℤ := (m.nodesBySize.map fun n => (m.nodes n).file.size).sum

theorem storageTrunkSave_eq (m : TrunkMem) : m.storageTrunkSave =
    snapshotText m.binlog.file.length (m.nodesBySize.map m.nodes) := by
  have hwalk : ∀ (slots : List TrunkSlot) (text : Bytes), AvlTree.walkList
      (fun slot text => (text ++ slot.head.flatMap fun n => fieldsText (m.nodes n), (0 : ℤ)))
      slots text = (text ++ ((slots.flatMap (·.head)).map m.nodes).flatMap fieldsText, 0) := by
    intro slots
    induction slots with
    | nil =>
      intro text
      rw [AvlTree.walkList]
      simp
    | cons slot slots ih =>
      intro text
      rw [AvlTree.walkList, ih]
      simp [flatMap_map]
  unfold storageTrunkSave AvlTreeInfo.walk
  rw [AvlTree.walkLoop_eq, hwalk]
  rw [append_assoc]
  rfl

section

variable {config : TrunkConfig} {m : TrunkMem} {S : Set NodeId} {B : Set TrunkFullInfo}

theorem SizeIndex.mem_nodesBySize (h : SizeIndex m.nodes m.treeInfoBySize S) (n : NodeId) :
    n ∈ m.nodesBySize ↔ n ∈ S := by
  unfold nodesBySize
  rw [mem_flatMap]
  exact (h.mem_iff n).symm

theorem SizeIndex.nodup_nodesBySize (h : SizeIndex m.nodes m.treeInfoBySize S) :
    m.nodesBySize.Nodup := by
  refine nodup_flatMap.2 ⟨h.nodup, h.ordered.sorted.imp_of_mem fun {a b} ha hb hlt => ?_⟩
  intro n hna hnb
  have hsize := (h.size a ha n hna).symm.trans (h.size b hb n hnb)
  rw [compareSize_eq_zero.2 hsize] at hlt
  exact lt_irrefl _ hlt

theorem Holds.storageTrunkSave (h : Holds config m B) :
    ∃ infos, m.storageTrunkSave = snapshotText m.binlog.file.length infos ∧
      (∀ b, b ∈ infos ↔ b ∈ B) ∧
      (infos.map asFree).Pairwise fun a b => ¬ regions.overlaps a b := by
  obtain ⟨S, hS, rfl⟩ := h
  refine ⟨_, m.storageTrunkSave_eq, fun b => ?_, ?_⟩
  · rw [mem_map]
    exact exists_congr fun n => and_congr_left fun _ => hS.indexed.size.mem_nodesBySize n
  · rw [map_map, pairwise_map]
    refine hS.indexed.size.nodup_nodesBySize.imp_of_mem fun {n k} hn hk hne ho => ?_
    rw [hS.indexed.size.mem_nodesBySize] at hn hk
    have hplaced : Placed config m.files (asFree (m.nodes n)) := (hS.placed n hn).congr rfl rfl
    have ho := hplaced.overlaps_iff.1 ho
    exact hne (hS.indexed.file.eq_of_overlaps hn hk ho)

theorem Holds.flush (h : Holds config m B) : Holds config m.flush B := by
  obtain ⟨S, hS, hB⟩ := h
  exact ⟨S, hS.congr rfl rfl (fun _ _ => rfl) le_rfl (List.Subset.refl _), hB⟩

end

/-! ## The binlog as a list of lines -/

structure Logs (log : TrunkBinlog) (flushed pending : List LogLine) : Prop where
  file : log.file = flushed.flatMap LogLine.text
  cache : log.cache = pending.flatMap LogLine.text

variable {flushed pending : List LogLine} {log : TrunkBinlog}

variable (h : Logs log flushed pending)

include h

theorem Logs.fsync : Logs (binlogFsync log) (flushed ++ pending) [] := by
  refine ⟨?_, rfl⟩
  unfold binlogFsync
  rw [h.file, h.cache, flatMap_append]

theorem Logs.binlogWrite (timestamp : Int32) (opType : OpType) (info : TrunkFullInfo) :
    ∃ flushed' pending', Logs (binlogWrite log timestamp opType info) flushed' pending' ∧
      flushed' ++ pending' = flushed ++ pending ++ [⟨timestamp, opType, info⟩] := by
  have hlog : Logs { log with cache := log.cache ++ recordText timestamp opType info } flushed
      (pending ++ [⟨timestamp, opType, info⟩]) := by
    refine ⟨h.file, ?_⟩
    rw [flatMap_append, ← h.cache, flatMap_singleton]
    rfl
  unfold TrunkMem.binlogWrite
  dsimp only
  split_ifs
  · exact ⟨_, _, hlog.fsync, by rw [append_nil, append_assoc]⟩
  · exact ⟨_, _, hlog, by rw [append_assoc]⟩

theorem Logs.foldl_binlogWrite (now : Int32) (records : List (OpType × TrunkFullInfo)) :
    ∃ flushed' pending',
      Logs (records.foldl (fun log r => TrunkMem.binlogWrite log now r.1 r.2) log) flushed'
        pending' ∧
      flushed' ++ pending' = flushed ++ pending ++ records.map fun r => ⟨now, r.1, r.2⟩ := by
  induction records generalizing log flushed pending with
  | nil => exact ⟨flushed, pending, h, (append_nil _).symm⟩
  | cons r records ih =>
    obtain ⟨flushed₁, pending₁, h₁, heq₁⟩ := h.binlogWrite now r.1 r.2
    obtain ⟨flushed₂, pending₂, h₂, heq₂⟩ := ih h₁
    refine ⟨flushed₂, pending₂, h₂, ?_⟩
    rw [heq₂, heq₁, map_cons, append_assoc _ [_], singleton_append]

end TrunkMem

/-! ## The log and the free space -/

open TrunkMem

namespace TrunkWorld

variable {config : TrunkConfig} {w w' : TrunkWorld} {B B' : Set TrunkFullInfo}

def entries (records : List (OpType × TrunkFullInfo)) : List (Entry TrunkFullInfo) :=
  records.map fun r => LogLine.entry ⟨0, r.1, r.2⟩

variable {b : TrunkFullInfo}

theorem asFree_injOn (h : Accounts config w B) {b' : TrunkFullInfo} (hb : b ∈ B) (hb' : b' ∈ B)
    (heq : asFree b = asFree b') : b = b' := by
  have ho : Overlaps (asFree b) (asFree b') :=
    heq ▸ ((h.holds.placed hb).congr rfl rfl : Placed config _ (asFree b)).overlaps_self
  exact h.holds.eq_of_overlaps hb hb' ho

theorem image_asFree_diff {B : Set TrunkFullInfo} {r : TrunkFullInfo}
    (hinj : ∀ b ∈ B, asFree b = asFree r → b = r) :
    asFree '' (B \ {r}) = asFree '' B \ {asFree r} := by
  ext x
  constructor
  · rintro ⟨b, ⟨hb, hne⟩, rfl⟩
    exact ⟨⟨b, hb, rfl⟩, fun heq => hne (hinj b hb heq)⟩
  · rintro ⟨⟨b, hb, rfl⟩, hne⟩
    refine ⟨b, ⟨hb, ?_⟩, rfl⟩
    rintro rfl
    exact hne rfl

theorem asFree_eq (h : b.status = .free) : asFree b = b := by
  unfold asFree
  rw [← h]

variable {files : List TrunkFileIdentifier}

theorem part_self (h : Placed config files b) : regions.part b b :=
  ⟨⟨rfl, le_rfl, le_rfl⟩, rfl, h.size_pos⟩

section

variable {log : List (Entry TrunkFullInfo)} {U : Set TrunkFullInfo}
variable {records : List (OpType × TrunkFullInfo)}

theorem ledger_source (h : Accounts config w B) (hledger : regions.Ledger (asFree '' B) U log)
    (hlog : ∀ x ∈ Regions.history ∅ log, x.identifier ∈ w.mem.files)
    (hU : ∀ u ∈ U, u.identifier ∈ w.mem.files) {block : TrunkFullInfo}
    (hsource : Source config w.mem.files B block files records) :
    ∃ A, regions.Ledger A U (log ++ entries records) ∧ asFree block ∈ A ∧
      A \ {asFree block} = asFree '' (B \ {block}) := by
  cases hsource with
  | old hmem hfree =>
    refine ⟨asFree '' B, ?_, ⟨block, hmem, rfl⟩, (image_asFree_diff fun b hb heq => ?_).symm⟩
    · rwa [show entries [] = [] from rfl, append_nil]
    · exact asFree_injOn h hb hmem heq
  | new hnew =>
    have hfresh : ∀ x : TrunkFullInfo, x.identifier ∈ w.mem.files →
        ¬ regions.overlaps (asFree block) x := by
      rintro x hx (rfl | ho)
      · exact hnew.notMem hx
      · exact hnew.notMem (ho.1 ▸ hx)
    have hnot : block ∉ B := fun hb => hnew.notMem (h.holds.placed hb).file
    have hplaced : Placed config (block.identifier :: w.mem.files) (asFree block) :=
      ((Source.new hnew).placed fun b => h.holds.placed).congr rfl rfl
    refine ⟨insert (asFree block) (asFree '' B), ?_, Set.mem_insert _ _, ?_⟩
    · exact hledger.create (fun x hx => hfresh x (hlog x hx)) (fun u hu => hfresh u (hU u hu))
        (part_self hplaced)
    · rw [Set.insert_sdiff_self_of_notMem, Set.sdiff_singleton_eq_self hnot]
      rintro ⟨b, hb, heq⟩
      refine hfresh b (h.holds.placed hb).file (.inr ?_)
      rw [← heq]
      exact ((h.holds.placed hb).congr rfl rfl : Placed config _ (asFree b)).overlaps_self

theorem ledger_split {A : Set TrunkFullInfo} (hledger : regions.Ledger A U log)
    {block part : TrunkFullInfo} (hblock : asFree block ∈ A) {size : ℤ} (hpos : 0 < size)
    (hsize : size ≤ block.file.size)
    (hpart : part = { partOf config block size with status := .hold }) :
    regions.Ledger (insert (asFree part) ({b | b ∈ restOf config block size} ∪ A \ {asFree block}))
      U (log ++ entries ((.delSpace, block) ::
        (restOf config block size).map (fun b => (.addSpace, b)) ++ [(.addSpace, part)])) := by
  have hparts : ∀ p ∈ restOf config block size ++ [asFree part], regions.part p (asFree block) := by
    intro p hp
    rcases mem_append.1 hp with hp | hp
    · obtain ⟨hpartOf, hlt, hfree⟩ := restOf_part hpos hp
      exact ⟨⟨hpartOf.identifier, hpartOf.le, hpartOf.end_le⟩, hfree, hlt⟩
    · obtain ⟨hpartOf, hle⟩ := partOf_part config hsize
      rw [mem_singleton.1 hp, hpart]
      exact ⟨⟨hpartOf.identifier, hpartOf.le, hpartOf.end_le⟩, rfl, hpos.trans_le hle⟩
  have hpairwise : (restOf config block size ++ [asFree part]).Pairwise
      fun p q => ¬ regions.overlaps p q := by
    rw [hpart]
    unfold restOf partOf
    split_ifs with hsmall
    · exact pairwise_singleton _ _
    · refine pairwise_cons.2 ⟨fun q hq ho => ?_, pairwise_singleton _ _⟩
      rw [mem_singleton.1 hq] at ho
      rcases ho with heq | ⟨-, hlo, hhi⟩
      · have hoffset : block.file.offset + size = block.file.offset :=
          congrArg (fun b => b.file.offset) heq
        omega
      · dsimp only [asFree] at hlo hhi
        omega
  have hentries : entries ((.delSpace, block) ::
      (restOf config block size).map (fun b => (.addSpace, b)) ++ [(.addSpace, part)]) =
      .del (asFree block) :: (restOf config block size ++ [asFree part]).map .add := by
    unfold entries
    rw [cons_append, map_cons, map_append, map_map, map_append]
    refine congrArg _ (congrArg₂ _ (map_congr_left fun b hb => ?_) rfl)
    exact congrArg Entry.add (asFree_eq (restOf_part hpos hb).2.2)
  rw [hentries]
  have hsplit := hledger.split hblock hparts
    (fun p hp => ⟨⟨rfl, le_rfl, le_rfl⟩, rfl, (hparts p hp).2.2⟩) hpairwise
  have hset : {p | p ∈ restOf config block size ++ [asFree part]} ∪ A \ {asFree block} =
      insert (asFree part) ({b | b ∈ restOf config block size} ∪ A \ {asFree block}) := by
    ext b
    change b ∈ restOf config block size ++ [asFree part] ∨ _ ↔ b = asFree part ∨ b ∈ restOf _ _ _ ∨ _
    rw [mem_append, mem_singleton]
    tauto
  rwa [hset] at hsplit

theorem ledger_change (h : Accounts config w B)
    (hledger : regions.Ledger (asFree '' B) (asFree '' {r | r ∈ w.used}) log)
    (hlog : ∀ x ∈ Regions.history ∅ log, x.identifier ∈ w.mem.files)
    {used : List TrunkFullInfo}
    (hchange : Change config w.mem.files B w.used files B' used records) :
    regions.Ledger (asFree '' B') (asFree '' {r | r ∈ used}) (log ++ entries records) := by
  have herase : ∀ {r}, r ∈ w.used → asFree '' {r' | r' ∈ w.used.erase r} ⊆
      asFree '' {r' | r' ∈ w.used} \ {asFree r} := by
    rintro r hr _ ⟨r', hr', rfl⟩
    have hnodup : w.used.Nodup := h.pairwise.imp_of_mem fun {a b} ha _ hnot heq =>
      hnot (heq ▸ (h.placed a ha).overlaps_self)
    have hsymm : Std.Symm fun r r' : TrunkFullInfo => ¬ Overlaps r r' :=
      ⟨fun _ _ hnot ho => hnot ho.symm⟩
    obtain ⟨hne, hmem⟩ := hnodup.mem_erase_iff.1 hr'
    refine ⟨⟨r', hmem, rfl⟩, fun heq => h.pairwise.forall hmem hr hne ?_⟩
    have ho : Overlaps (asFree r') (asFree r) := (show asFree r' = asFree r from heq) ▸
      ((h.placed r' hmem).congr rfl rfl : Placed config _ (asFree r')).overlaps_self
    exact ho
  cases hchange with
  | none => rwa [show entries [] = [] from rfl, append_nil]
  | alloc hsource hpos hsize hpart =>
    rename_i block part records size
    obtain ⟨A, hA, hblock, hdiff⟩ := ledger_source h hledger hlog
      (by rintro _ ⟨r, hr, rfl⟩; exact (h.placed r hr).file) hsource
    have hrest : asFree '' {b | b ∈ restOf config block size} =
        {b | b ∈ restOf config block size} := by
      refine Set.EqOn.image_eq_self fun b hb => ?_
      exact asFree_eq (restOf_part hpos hb).2.2
    have hsplit := ledger_split hA hblock hpos hsize hpart
    rw [hdiff, ← hrest, ← Set.image_union, ← Set.image_insert_eq, append_assoc] at hsplit
    have hentries : entries (records ++ (.delSpace, block) ::
        (restOf config block size).map (fun b => (.addSpace, b)) ++ [(.addSpace, part)]) =
        entries records ++ entries ((.delSpace, block) ::
        (restOf config block size).map (fun b => (.addSpace, b)) ++ [(.addSpace, part)]) := by
      unfold entries
      rw [append_assoc, map_append]
    rwa [hentries]
  | take hr =>
    rename_i r
    have hused : asFree '' {r' | r' ∈ r :: w.used} = insert (asFree r)
        (asFree '' {r' | r' ∈ w.used}) := by
      rw [← Set.image_insert_eq]
      exact congrArg _ (Set.ext fun r' => mem_cons)
    rw [image_asFree_diff fun b hb heq => asFree_injOn h hb hr heq, hused]
    exact hledger.take ⟨r, hr, rfl⟩
  | release hr =>
    rename_i r
    have hset : asFree '' insert (asFree r) (B \ {r}) = asFree '' B := by
      rw [Set.image_insert_eq, show asFree (asFree r) = asFree r from rfl, ← Set.image_insert_eq,
        Set.insert_sdiff_singleton, Set.insert_eq_of_mem hr]
    rw [show entries [] = [] from rfl, append_nil]
    exact hset.symm ▸ hledger
  | free hr =>
    rename_i r
    have hset : asFree '' insert (asFree r) B = insert (asFree r) (asFree '' B) :=
      Set.image_insert_eq
    have hplaced : Placed config _ (asFree r) := (h.placed r hr).congr rfl rfl
    have hgive := (hledger.give ⟨r, hr, rfl⟩ (part_self hplaced)).mono_used (herase hr)
    exact hset.symm ▸ hgive
  | lose hr =>
    rw [show entries [] = [] from rfl, append_nil]
    exact hledger.mono_used ((herase hr).trans Set.sdiff_subset)

end

structure Logged (w : TrunkWorld) (config : TrunkConfig) (B : Set TrunkFullInfo)
    (log : List LogLine) : Prop where
  accounts : Accounts config w B
  ledger : regions.Ledger (asFree '' B) (asFree '' {r | r ∈ w.used}) (log.map LogLine.entry)
  placed : ∀ line ∈ log, Placed config w.mem.files line.info
  self : log ≠ [] → config.ifTrunkerSelf = true
  total : w.mem.trunkTotalFreeSpace = (log.map fun l => (l.opType, l.info)).foldl countSpace 0

theorem change_placed (h : Accounts config w B)
    {used : List TrunkFullInfo} {records : List (OpType × TrunkFullInfo)}
    (hB' : ∀ b ∈ B', Placed config files b)
    (hchange : Change config w.mem.files B w.used files B' used records) :
    w.mem.files ⊆ files ∧ ∀ r ∈ records, Placed config files r.2 := by
  cases hchange with
  | none => exact ⟨List.Subset.refl _, nofun⟩
  | alloc hsource hpos hsize hpart =>
    have hblock := hsource.placed fun b => h.holds.placed
    refine ⟨hsource.files_subset, fun r hr => ?_⟩
    rw [append_assoc] at hr
    rcases mem_append.1 hr with hr | hr
    · cases hsource with
      | old => cases hr
      | new => exact mem_singleton.1 hr ▸ hblock
    · rcases mem_cons.1 hr with rfl | hr
      · exact hblock
      rcases mem_append.1 hr with hr | hr
      · obtain ⟨b, hb, rfl⟩ := mem_map.1 hr
        exact hB' b (.inr (.inl hb))
      · exact mem_singleton.1 hr ▸ hB' _ (Set.mem_insert _ _)
  | take hr => exact ⟨List.Subset.refl _, fun _ hmem => mem_singleton.1 hmem ▸ h.holds.placed hr⟩
  | release hr => exact ⟨List.Subset.refl _, nofun⟩
  | free hr =>
    exact ⟨List.Subset.refl _, fun _ hmem =>
      mem_singleton.1 hmem ▸ (h.placed _ hr).congr rfl rfl⟩
  | lose hr => exact ⟨List.Subset.refl _, nofun⟩

theorem Logged.history_placed {log : List LogLine} (h : Logged w config B log) :
    ∀ x ∈ Regions.history ∅ (log.map LogLine.entry), x.identifier ∈ w.mem.files := by
  intro x hx
  obtain ⟨line, hline, heq⟩ := mem_map.1 ((Regions.mem_history hx).resolve_left (nomatch ·))
  obtain ⟨timestamp, opType, info⟩ := line
  cases opType with
  | addSpace =>
    obtain rfl := Entry.add.inj heq
    exact (h.placed _ hline).file
  | delSpace => cases heq

theorem Logged.follows {log : List LogLine} (h : Logged w config B log) {now : Int32}
    (hfollows : Follows config w B now w') : ∃ B' records, Logged w' config B'
      (log ++ records.map fun r => ⟨now, r.1, r.2⟩) ∧
      Writes (w.mem.setTime now) w'.mem true records ∧ w.mem.files ⊆ w'.mem.files := by
  obtain ⟨B', records, h', hchange, hwrites, hself⟩ := hfollows
  obtain ⟨hfiles, hplaced⟩ := change_placed h.accounts (fun b => h'.holds.placed) hchange
  have hledger := ledger_change h.accounts h.ledger h.history_placed hchange
  have hentries : (log ++ records.map fun r => (⟨now, r.1, r.2⟩ : LogLine)).map LogLine.entry =
      log.map LogLine.entry ++ entries records := by
    rw [map_append, map_map]
    rfl
  refine ⟨B', records, ⟨h', hentries ▸ hledger, ?_, ?_, ?_⟩, hwrites, hfiles⟩
  · intro line hline
    rcases mem_append.1 hline with hline | hline
    · exact (h.placed line hline).mono hfiles
    · obtain ⟨r, hr, rfl⟩ := mem_map.1 hline
      exact hplaced r hr
  · intro hne
    by_cases hlog : log = []
    · apply hself
      rintro rfl
      exact hne (by rw [hlog]; rfl)
    · exact h.self hlog
  · rw [map_append, map_map, foldl_append, ← h.total]
    exact hwrites.total.trans (congrArg (foldl countSpace _) (map_id records).symm)

theorem foldl_countSpace {log : List LogLine} {A : Set TrunkFullInfo} (hA : A.Finite)
    (h : regions.Valid A (log.map LogLine.entry)) :
    (log.map fun l => (l.opType, l.info)).foldl countSpace (∑ᶠ b ∈ A, b.file.size) =
      ∑ᶠ b ∈ replay A (log.map LogLine.entry), b.file.size := by
  induction log generalizing A with
  | nil => rfl
  | cons line log ih =>
    obtain ⟨timestamp, opType, info⟩ := line
    cases opType with
    | addSpace =>
      have hnew : asFree info ∉ A := fun hmem => h.1 _ hmem (regions.refl _)
      refine Eq.trans (congrArg (foldl countSpace · (log.map _)) ?_) (ih (hA.insert _) h.2)
      exact (add_comm _ _).trans (finsum_mem_insert (·.file.size) hnew hA).symm
    | delSpace =>
      have hout : asFree info ∉ A \ {asFree info} := fun h => h.2 rfl
      have hsum := finsum_mem_insert (·.file.size) hout hA.sdiff
      rw [Set.insert_sdiff_singleton, Set.insert_eq_of_mem h.1] at hsum
      refine Eq.trans (congrArg (foldl countSpace · (log.map _)) ?_) (ih hA.sdiff h.2)
      rw [hsum]
      exact add_sub_cancel_left _ _

theorem Logged.total_eq {log : List LogLine} (h : Logged w config B log) :
    w.mem.trunkTotalFreeSpace = w.mem.sizeTotal := by
  obtain ⟨S, hS, rfl⟩ := h.accounts.holds
  have hindex := hS.indexed.size
  have hnodes : S = w.mem.nodesBySize.toFinset := by
    ext n
    rw [Finset.mem_coe, mem_toFinset, hindex.mem_nodesBySize]
  have hinj : S.InjOn fun n => asFree (w.mem.nodes n) := fun a ha b hb heq =>
    hS.indexed.file.eq_of_overlaps ha hb <| by
      rw [asFree_injOn h.accounts ⟨a, ha, rfl⟩ ⟨b, hb, rfl⟩ heq]
      exact (hS.placed b hb).overlaps_self
  have hsum := foldl_countSpace Set.finite_empty h.ledger.valid
  rw [finsum_mem_empty, ← h.total, h.ledger.replay_eq, Set.image_image, finsum_mem_image hinj,
    hnodes, finsum_mem_coe_finset] at hsum
  exact hsum.trans (sum_toFinset _ hindex.nodup_nodesBySize)

end TrunkWorld

/-! ## Runs -/

/-- The trunk server with its clients, and the data files that were saved. -/
structure TrunkHistory where
  world : TrunkWorld
  snapshots : List Bytes

inductive TrunkEvent where
  | request (now : Int32) (op : TrunkOp)
  | flush
  | save

namespace TrunkHistory

variable (config : TrunkConfig)

def step (h : TrunkHistory) : TrunkEvent → Except TrunkFault TrunkHistory
  | .request now op => do
    let world ← h.world.step config (now, op)
    return { h with world }
  | .flush => .ok { h with world := { h.world with mem := h.world.mem.flush } }
  | .save => .ok { h with snapshots := h.world.mem.storageTrunkSave :: h.snapshots }

/-- Space is allocated, confirmed and freed, and the free space is saved only if the binlog file is
not empty; the size of a file is an `off_t`. -/
def Valid (h : TrunkHistory) : TrunkEvent → Prop
  | .request _ (.advance _ _) => False
  | .request now op => TrunkWorld.Valid config h.world (now, op)
  | .flush => True
  | .save => 0 < h.world.mem.binlog.file.length ∧ h.world.mem.binlog.file.length < 2 ^ 63

instance (h : TrunkHistory) : ∀ event, Decidable (Valid config h event)
  | .request _ (.advance _ _) => inferInstanceAs (Decidable False)
  | .request now (.alloc size choice) =>
    inferInstanceAs (Decidable (TrunkWorld.Valid config h.world (now, .alloc size choice)))
  | .request now (.confirm info status) =>
    inferInstanceAs (Decidable (TrunkWorld.Valid config h.world (now, .confirm info status)))
  | .request now (.free info) =>
    inferInstanceAs (Decidable (TrunkWorld.Valid config h.world (now, .free info)))
  | .flush => inferInstanceAs (Decidable True)
  | .save => inferInstanceAs (Decidable (_ ∧ _))

def empty : TrunkHistory := ⟨.empty, []⟩

/-- The data file was saved when `flushed` was in the binlog file and `pending` was not yet. -/
structure Snapshot (config : TrunkConfig) (files : List TrunkFileIdentifier)
    (flushed pending : List LogLine) (infos : List TrunkFullInfo) : Prop where
  nonempty : flushed ≠ []
  length_lt : (flushed.flatMap LogLine.text).length < 2 ^ 63
  placed : ∀ info ∈ infos, Placed config files info
  pairwise : (infos.map asFree).Pairwise fun a b => ¬ regions.overlaps a b
  replay_eq : replay ∅ ((flushed ++ pending).map LogLine.entry) = {b | b ∈ infos.map asFree}

/-- The binlog has the history of the free space, and a data file that of a moment of it. -/
structure Recorded (h : TrunkHistory) (B : Set TrunkFullInfo) (flushed pending : List LogLine) :
    Prop where
  logged : h.world.Logged config B (flushed ++ pending)
  logs : Logs h.world.mem.binlog flushed pending
  snapshots : ∀ s ∈ h.snapshots, ∃ flushed₁ pending₁ later infos,
    flushed ++ pending = flushed₁ ++ (pending₁ ++ later) ∧
    s = snapshotText (flushed₁.flatMap LogLine.text).length infos ∧
    Snapshot config h.world.mem.files flushed₁ pending₁ infos

variable {config} {h h' : TrunkHistory} {B : Set TrunkFullInfo} {flushed pending : List LogLine}

theorem recorded_empty : Recorded config empty ∅ [] [] where
  logged :=
    { accounts := accounts_empty
      ledger := by
        rw [show {r | r ∈ empty.world.used} = ∅ from
          Set.eq_empty_of_forall_notMem fun _ => not_mem_nil, Set.image_empty]
        exact .nil regions
      placed := nofun
      self := fun hne => absurd rfl hne
      total := rfl }
  logs := ⟨rfl, rfl⟩
  snapshots := nofun

theorem Snapshot.mono {files files' : List TrunkFileIdentifier} {infos : List TrunkFullInfo}
    (h : Snapshot config files flushed pending infos) (hfiles : files ⊆ files') :
    Snapshot config files' flushed pending infos :=
  ⟨h.nonempty, h.length_lt, fun info hinfo => (h.placed info hinfo).mono hfiles, h.pairwise,
    h.replay_eq⟩

section

variable (hrec : Recorded config h B flushed pending)

include hrec

theorem Recorded.follows {now : Int32} {w : TrunkWorld}
    (hfollows : TrunkWorld.Follows config h.world B now w) :
    ∃ B' flushed' pending', Recorded config { h with world := w } B' flushed' pending' := by
  obtain ⟨B', records, hlogged, hwrites, hfiles⟩ := hrec.logged.follows hfollows
  obtain ⟨flushed', pending', hlogs, heq⟩ := hrec.logs.foldl_binlogWrite now records
  refine ⟨B', flushed', pending', heq ▸ hlogged, ?_, fun s hs => ?_⟩
  · have hbinlog : w.mem.binlog = _ := hwrites.binlog
    rw [hbinlog]
    exact hlogs
  · obtain ⟨flushed₁, pending₁, later, infos, hsplit, htext, hsnapshot⟩ := hrec.snapshots s hs
    refine ⟨flushed₁, pending₁, later ++ records.map fun r => ⟨now, r.1, r.2⟩, infos, ?_, htext,
      hsnapshot.mono hfiles⟩
    rw [heq, hsplit, append_assoc, append_assoc]

theorem Recorded.flush :
    Recorded config { h with world := { h.world with mem := h.world.mem.flush } } B
      (flushed ++ pending) [] where
  logged := by
    rw [append_nil]
    obtain ⟨⟨hholds, hheld, hnodup, hplaced, hapart, hpairwise⟩, hledger, hlines, hself, hsum⟩ :=
      hrec.logged
    exact ⟨⟨hholds.flush, hheld, hnodup, hplaced, hapart, hpairwise⟩, hledger, hlines, hself, hsum⟩
  logs := hrec.logs.fsync
  snapshots s hs := by
    rw [append_nil]
    exact hrec.snapshots s hs

theorem Recorded.save (hpos : 0 < h.world.mem.binlog.file.length)
    (hlt : h.world.mem.binlog.file.length < 2 ^ 63) :
    Recorded config { h with snapshots := h.world.mem.storageTrunkSave :: h.snapshots } B flushed
      pending where
  logged := hrec.logged
  logs := hrec.logs
  snapshots := by
    refine forall_mem_cons.2 ⟨?_, hrec.snapshots⟩
    obtain ⟨infos, htext, hmem, hpairwise⟩ := hrec.logged.accounts.holds.storageTrunkSave
    rw [hrec.logs.file] at htext hpos hlt
    refine ⟨flushed, pending, [], infos, by rw [append_nil], htext, ?_, hlt,
      fun info hinfo => hrec.logged.accounts.holds.placed ((hmem info).1 hinfo), hpairwise, ?_⟩
    · rintro rfl
      exact lt_irrefl _ hpos
    · rw [hrec.logged.ledger.replay_eq]
      ext b
      change b ∈ asFree '' B ↔ b ∈ infos.map asFree
      rw [mem_map]
      exact exists_congr fun c => and_congr_left fun _ => (hmem c).symm

theorem Recorded.step {event : TrunkEvent} (hvalid : Valid config h event) :
    Meets (step config h event)
      (fun h' => ∃ B' flushed' pending', Recorded config h' B' flushed' pending')
      (· ≠ .outside) := by
  have hrequest : ∀ {now op}, Meets (h.world.step config (now, op))
      (TrunkWorld.Follows config h.world B now) (· ≠ .outside) →
      Meets (TrunkHistory.step config h (.request now op))
        (fun h' => ∃ B' flushed' pending', Recorded config h' B' flushed' pending')
        (· ≠ .outside) := fun hmeets => hmeets.bind fun w hw => hrec.follows hw
  have haccounts := hrec.logged.accounts
  cases event with
  | request now op =>
    cases op with
    | alloc size choice => exact hrequest (haccounts.alloc hvalid.1 hvalid.2 now choice)
    | confirm info status => exact hrequest (haccounts.confirm hvalid now status)
    | free info => exact hrequest (haccounts.free hvalid now)
    | advance hasRoom choices => exact hvalid.elim
  | flush => exact ⟨B, _, _, hrec.flush⟩
  | save => exact ⟨B, _, _, hrec.save hvalid.1 hvalid.2⟩

end

theorem recorded_run {events : List TrunkEvent}
    (hevents : AllSteps (step config) (Valid config) empty events) :
    Meets (events.foldlM (step config) empty)
      (fun h => ∃ B flushed pending, Recorded config h B flushed pending) (· ≠ .outside) := by
  apply Meets.foldlM_of_allSteps _ ⟨∅, [], [], recorded_empty⟩ hevents
  rintro h event ⟨B, flushed, pending, hrec⟩ hvalid
  exact hrec.step hvalid

/-! ## The server started again -/

def blocksBySize (m : TrunkMem) : Set TrunkFullInfo :=
  {b | ∃ n, TrunkWorld.InSizeTree m n ∧ m.nodes n = b}

def blocksByFile (m : TrunkMem) : Set TrunkFullInfo :=
  {b | ∃ n, TrunkWorld.InFileTree m n ∧ m.nodes n = b}

theorem blocks_eq {m : TrunkMem} (hm : Holds config m B) :
    blocksBySize m = B ∧ blocksByFile m = B := by
  obtain ⟨S, hS, rfl⟩ := hm
  constructor
  · ext b
    exact exists_congr fun n => and_congr_left fun _ => (hS.indexed.size.mem_iff n).symm
  · ext b
    exact exists_congr fun n => and_congr_left fun _ => (hS.indexed.file.mem_iff n).symm

/-- The replay succeeds, and both indexes have the blocks of the live ones that are large enough, all
of them free. -/
structure Recovered (config : TrunkConfig) (live : TrunkMem) (r : TrunkMem × ℤ × Option Bytes) :
    Prop where
  result : r.2.1 = 0
  bySize : blocksBySize r.1 = asFree '' {b ∈ blocksBySize live | config.slotMinSize ≤ b.file.size}
  byFile : blocksByFile r.1 = asFree '' {b ∈ blocksByFile live | config.slotMinSize ≤ b.file.size}

/-- The flushed binlog, or a data file and the flushed binlog behind it, gives the free space; no
buffer ends with the data file. -/
structure Recovers (config : TrunkConfig) (h : TrunkHistory) : Prop where
  restore : Meets ((restart h.world.mem.flush).storageTrunkRestore config 0)
    (Recovered config h.world.mem) (· = .memory)
  load : ∀ s ∈ h.snapshots, fits s.length s = true →
    Meets ((restart h.world.mem.flush).storageTrunkLoad config (some s))
      (Recovered config h.world.mem) (· = .memory)

theorem holds_restart (m : TrunkMem) : Holds config (restart m) ∅ :=
  ⟨∅, ⟨⟨sizeIndex_empty _, fileIndex_empty _⟩, nofun, nofun⟩, (Set.image_empty _).symm⟩

theorem map_add_asFree (infos : List TrunkFullInfo) :
    infos.map (fun info => Entry.add (asFree info)) = (infos.map asFree).map .add := by
  rw [map_map]
  rfl

/-- The data file is loaded with the binlog it was saved with, and the free blocks are those that
were saved, if and only if no buffer ends with the data file. -/
theorem storageTrunkLoad_save (config : TrunkConfig) (m : TrunkMem) (B : Set TrunkFullInfo)
    (h : Holds config m B) (hself : config.ifTrunkerSelf = true)
    (hlt : m.binlog.file.length < 2 ^ 63)
    (hB : ∀ b ∈ B, b.status = .free ∧ config.slotMinSize ≤ b.file.size) :
    Meets ((restart m).storageTrunkLoad config (some m.storageTrunkSave))
      (fun r => r.2.1 = 0 ∧ Holds config r.1 B ↔
        fits m.storageTrunkSave.length m.storageTrunkSave = true) (· = .memory) := by
  obtain ⟨infos, htext, hmem, hpairwise⟩ := h.storageTrunkSave
  have hfree : infos.map asFree = infos :=
    (map_congr_left fun b hb => asFree_eq (hB b ((hmem b).1 hb)).1).trans (map_id _)
  rw [htext]
  have hinfos : ∀ info ∈ infos, Printable info ∧ Placed config (restart m).files info :=
    fun info hinfo =>
      have hplaced := h.placed ((hmem info).1 hinfo)
      ⟨hplaced.printable, hplaced⟩
  have hset : {b | b ∈ infos ∧ keep config b} = B := by
    ext b
    exact (and_congr_left' (hmem b)).trans (and_iff_left_of_imp fun hb => (hB b hb).2)
  rw [hfree] at hpairwise
  refine (@Holds.loadSnapshot _ _ _ (holds_restart m) _ _ hself hlt hinfos _ rfl
    (fun r => r.2.1 = 0 ∧ Holds config r.1 B) fun m' _ hbinlog hm' => ?_).mono ?_ fun _ => id
  · rw [map_add_asFree, hfree, foldl_redo_adds hpairwise, hset] at hm'
    unfold storageTrunkRestore
    rw [if_pos (by rw [hbinlog]; rfl)]
    exact ⟨rfl, hm'⟩
  · intro r hr
    split_ifs at hr with hok
    · exact iff_of_true hr hok
    · exact iff_of_false (fun h0 => absurd (h0.1.symm.trans hr) (by decide)) hok

def loneBlock : TrunkFullInfo := ⟨.free, ⟨0, 0, 0⟩, ⟨1, 10, 16⟩⟩

def fill (infos : List TrunkFullInfo) (m : TrunkMem) : Except TrunkFault TrunkMem :=
  infos.foldlM (fun m info => (·.1) <$> m.addSpaceByTrunk smallConfig info) m

def fullBuffer : List TrunkFullInfo :=
  loneBlock ::
    (List.range 136).map fun k => ⟨.free, ⟨255, 255, 255⟩, ⟨Int32.ofNat (2000000000 + k), 100, 16⟩⟩

theorem storageTrunkLoad_fullBuffer : Meets (fill fullBuffer TrunkMem.empty)
    (fun m => Meets
      ((restart m).storageTrunkLoad smallConfig (some m.storageTrunkSave))
      (fun r => r.2.1 = enoent) fun _ => False) fun _ => False := by
  decide +kernel

def loneFile : TrunkMem := restart { TrunkMem.empty with files := [loneBlock.identifier] }

theorem storageTrunkLoad_save_loneBlock :
    Meets (loneFile.addSpaceByTrunk smallConfig loneBlock) (fun r => Meets
        ((restart r.1).storageTrunkLoad smallConfig (some r.1.storageTrunkSave))
        (fun r' => r'.2.1 = 0 ∧ Holds smallConfig r'.1 (insert loneBlock ∅))
        (· = .memory)) fun _ => False := by
  have hfits : Meets (loneFile.addSpaceByTrunk smallConfig loneBlock)
      (fun r => r.1.binlog.file.length < 2 ^ 63 ∧
        fits r.1.storageTrunkSave.length r.1.storageTrunkSave = true) fun _ => False := by
    decide +kernel
  obtain ⟨r, hr, hlt, hfits⟩ := meets_false_iff.1 hfits
  have hadd := (@Holds.addSpaceByTrunk _ _ _ loneBlock (holds_restart _) rfl
    (by constructor <;> decide)).post hr
  rw [hr]
  refine (storageTrunkLoad_save _ _ _ ?_ rfl hlt ?_).mono (fun _ hr => hr.2 hfits) fun _ => id
  · have hkeep : keep smallConfig (asFree loneBlock) := le_refl (16 : ℤ)
    rw [Regions.redo_add hkeep fun c hc => absurd hc (Set.notMem_empty c)] at hadd
    exact hadd.2.2.2
  · rintro b (rfl | hb)
    · decide
    · cases hb

theorem Recorded.recovered (hrec : Recorded config h B flushed pending)
    {r : TrunkMem × ℤ × Option Bytes} (hresult : r.2.1 = 0)
    (hr : Holds config r.1
      {b ∈ replay ∅ ((flushed ++ pending).map LogLine.entry) | keep config b}) :
    Recovered config h.world.mem r := by
  have hset : {b ∈ replay ∅ ((flushed ++ pending).map LogLine.entry) | keep config b} =
      asFree '' {b ∈ B | config.slotMinSize ≤ b.file.size} := by
    rw [hrec.logged.ledger.replay_eq]
    ext b
    constructor
    · rintro ⟨⟨c, hc, rfl⟩, hkeep⟩
      exact ⟨c, ⟨hc, hkeep⟩, rfl⟩
    · rintro ⟨c, ⟨hc, hkeep⟩, rfl⟩
      exact ⟨⟨c, hc, rfl⟩, hkeep⟩
  rw [hset] at hr
  obtain ⟨hsize, hfile⟩ := blocks_eq hrec.logged.accounts.holds
  exact ⟨hresult, by rw [hsize, (blocks_eq hr).1], by rw [hfile, (blocks_eq hr).2]⟩

theorem Recorded.recovers (hrec : Recorded config h B flushed pending)
    (hfiles : ∀ file ∈ h.world.mem.files, 0 ≤ file.id.toInt) : Recovers config h := by
  have hstart : Holds config (restart h.world.mem.flush) ∅ := holds_restart _
  have hnumbered : ∀ {info}, Placed config h.world.mem.files info →
      Numbered config (restart h.world.mem.flush).files info := fun hplaced =>
    ⟨hplaced, hfiles _ hplaced.file⟩
  have hfile := hrec.logs.fsync.file
  have hledger := hrec.logged.ledger
  refine ⟨?_, fun s hs hfits => ?_⟩
  · refine (hstart.storageTrunkRestore_zero hrec.logged.self hfile
      (fun line hline => hnumbered (hrec.logged.placed line hline)) hledger.valid).mono ?_ fun _ => id
    rintro r ⟨hresult, hr⟩
    exact hrec.recovered hresult hr
  · obtain ⟨flushed₁, pending₁, later, infos, hsplit, rfl, hsnapshot⟩ := hrec.snapshots s hs
    have hself := hrec.logged.self (by
      rw [hsplit]
      exact append_ne_nil_of_left_ne_nil hsnapshot.nonempty _)
    have hlines : ∀ line ∈ pending₁ ++ later, Printable line.info ∧
        Placed config (restart h.world.mem.flush).files line.info := by
      intro line hline
      have hplaced := hrec.logged.placed line (hsplit ▸ mem_append_right _ hline)
      exact ⟨hplaced.printable, hplaced⟩
    have hinfos : ∀ info ∈ infos, Printable info ∧
        Placed config (restart h.world.mem.flush).files info := fun info hinfo =>
      ⟨(hsnapshot.placed info hinfo).printable, hsnapshot.placed info hinfo⟩
    refine (hstart.storageTrunkLoad hself hsnapshot.nonempty hsnapshot.length_lt
      (hsplit ▸ hfile) hlines hinfos hfits).mono ?_ fun _ => id
    rintro r ⟨hresult, hr⟩
    refine hrec.recovered hresult ?_
    rw [hsplit] at hledger ⊢
    have hadds : {b | b ∈ infos.map asFree ∧ keep config b} =
        {b ∈ replay ∅ (flushed₁.map LogLine.entry ++ pending₁.map LogLine.entry) |
          keep config b} := by
      rw [← map_append, hsnapshot.replay_eq]
      rfl
    have hvalid := hledger.valid
    have hfine := hledger.fine
    rw [map_append] at hr
    rw [map_append, map_append] at hvalid hfine ⊢
    rw [map_add_asFree, foldl_append, foldl_redo_adds hsnapshot.pairwise, hadds,
      Regions.foldl_redo_snapshot hvalid hfine] at hr
    exact hr

/-- In every run in which the free space is saved only after the binlog file got its first lines, and
in which the numbers of the trunk files do not wrap, the binlog determines the free space. -/
theorem trunk_binlog_replay (config : TrunkConfig) (events : List TrunkEvent)
    (hevents : AllSteps (step config) (Valid config) empty events) :
    Meets (events.foldlM (step config) empty)
      (fun h => (∀ file ∈ h.world.mem.files, 0 ≤ file.id.toInt) → Recovers config h)
      (· ≠ .outside) := by
  apply (recorded_run hevents).mono _ fun _ => id
  rintro h ⟨B, flushed, pending, hrec⟩ hfiles
  exact hrec.recovers hfiles

/-- The free space is saved while lines of the binlog are not yet flushed. -/
def smallEvents : List TrunkEvent :=
  [.request 1 (.alloc 100 ⟨some 0, [(1, 2)]⟩), .flush,
    .request 2 (.confirm ⟨.hold, ⟨0, 1, 2⟩, ⟨1, 0, 100⟩⟩ 0),
    .request 3 (.alloc 50 ⟨some 0, [(1, 3)]⟩), .save,
    .request 4 (.confirm ⟨.hold, ⟨0, 1, 2⟩, ⟨1, 100, 50⟩⟩ 5),
    .request 5 (.free ⟨.hold, ⟨0, 1, 2⟩, ⟨1, 0, 100⟩⟩)]

theorem trunk_binlog_replay_smallEvents :
    AllSteps (step smallConfig) (Valid smallConfig) empty smallEvents ∧
      Meets (smallEvents.foldlM (step smallConfig) empty)
        (fun h => (∀ file ∈ h.world.mem.files, 0 ≤ file.id.toInt) ∧ h.snapshots ≠ [] ∧
          ∀ s ∈ h.snapshots, fits s.length s = true) (fun _ => False) ∧
      Meets (smallEvents.foldlM (step smallConfig) empty)
        (fun h => (∀ file ∈ h.world.mem.files, 0 ≤ file.id.toInt) →
          Recovers smallConfig h) (· ≠ .outside) :=
  ⟨by decide +kernel, by decide +kernel,
    trunk_binlog_replay smallConfig smallEvents (by decide +kernel)⟩

def earlySave : List TrunkEvent :=
  [.request 1 (.alloc 100 ⟨some 0, [(1, 2)]⟩), .save,
    .request 2 (.confirm ⟨.hold, ⟨0, 1, 2⟩, ⟨1, 0, 100⟩⟩ 0)]

/-- The region is in use, but free again when the server was started from the data file. -/
theorem storageTrunkLoad_earlySave : Meets (earlySave.foldlM (step smallConfig) empty)
    (fun h => h.world.used = [⟨.hold, ⟨0, 1, 2⟩, ⟨1, 0, 100⟩⟩] ∧
      (∀ slot ∈ h.world.mem.treeInfoBySize.toList, ∀ n ∈ slot.head,
        h.world.mem.nodes n = ⟨.free, ⟨0, 1, 2⟩, ⟨1, 100, 900⟩⟩) ∧
      ∃ s ∈ h.snapshots, Meets
        ((restart h.world.mem.flush).storageTrunkLoad smallConfig (some s))
        (fun r => r.2.1 = 0 ∧ ∃ slot ∈ r.1.treeInfoBySize.toList, ∃ n ∈ slot.head,
          r.1.nodes n = ⟨.free, ⟨0, 1, 2⟩, ⟨1, 0, 100⟩⟩) (fun _ => False)) (fun _ => False) := by
  decide +kernel

/-! ## The total of the free space -/

/-- As long as no file is created in advance, `g_trunk_total_free_space` is the sum of the sizes of
all blocks in the index by size. -/
theorem trunk_total_free_space (config : TrunkConfig) (events : List TrunkEvent)
    (hevents : AllSteps (step config) (Valid config) empty events) :
    Meets (events.foldlM (step config) empty)
      (fun h => h.world.mem.trunkTotalFreeSpace = h.world.mem.sizeTotal) (· ≠ .outside) := by
  apply (recorded_run hevents).mono _ fun _ => id
  rintro h ⟨B, flushed, pending, hrec⟩
  exact hrec.logged.total_eq

theorem trunk_total_free_space_smallEvents : Meets (smallEvents.foldlM (step smallConfig) empty)
    (fun h => h.world.mem.trunkTotalFreeSpace = h.world.mem.sizeTotal) (· ≠ .outside) :=
  trunk_total_free_space smallConfig smallEvents (by decide +kernel)

/-- A file that is created in advance is counted twice. -/
theorem trunkTotalFreeSpace_smallRun : Meets (smallRun.foldlM (TrunkWorld.step smallConfig) .empty)
    (fun w => w.mem.trunkTotalFreeSpace = 5000 ∧ w.mem.sizeTotal = 3000) (fun _ => False) := by
  decide +kernel

end TrunkHistory

end ServerStack.Fastdfs
