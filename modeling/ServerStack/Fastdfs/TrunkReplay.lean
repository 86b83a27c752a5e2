import ServerStack.Fastdfs.TrunkAlloc
import ServerStack.Fastdfs.TrunkText
import ServerStack.Lib.RedoLog

/-!
# What the replay of the binlog does

The lines of the binlog are applied to the indexes, or collected in a tree by offset first.  Either
way the free space becomes what a redo log of regions makes of it.
-/

namespace ServerStack.Fastdfs

open Decimal OrderedList Outcome RedoLog Redis.Util Redis.Sds List LogLine

namespace TrunkMem

/-! ## Lines as entries of a redo log -/

def asFree (info : TrunkFullInfo) : TrunkFullInfo := { info with status := .free }

/-- Blocks as regions: a block without any bytes overlaps itself too, but is not a part. -/
def regions : Regions TrunkFullInfo where
  overlaps a b := a = b ∨ Overlaps a b
  part a b := PartOf a b ∧ a.status = b.status ∧ 0 < a.file.size
  refl _ := .inl rfl
  symm h := h.imp Eq.symm Overlaps.symm
  antisymm := by
    rintro ⟨s, p, i, o, n⟩ ⟨s', p', i', o', n'⟩ ⟨hab, hstatus, -⟩ ⟨hba, -, -⟩
    obtain ⟨hid, hle, hend⟩ := hab
    obtain ⟨-, hle', hend'⟩ := hba
    cases hid
    dsimp only at hstatus hle hle' hend hend'
    obtain rfl : o = o' := by omega
    obtain rfl : n = n' := by omega
    rw [hstatus]
  trans := by
    rintro a b c ⟨hab, hstatus, hpos⟩ ⟨hbc, hstatus', -⟩
    exact ⟨⟨hab.identifier.trans hbc.identifier, hbc.le.trans hab.le, hab.end_le.trans hbc.end_le⟩,
      hstatus.trans hstatus', hpos⟩
  overlaps_of_part := by
    rintro a b c ⟨hab, -, hpos⟩ ho
    refine .inr (hab.overlaps ?_)
    rcases ho with rfl | ho
    · exact ⟨rfl, by omega, by omega⟩
    · exact ho

def keep (config : TrunkConfig) (info : TrunkFullInfo) : Prop := config.slotMinSize ≤ info.file.size

end TrunkMem

open TrunkMem

def LogLine.entry (line : LogLine) : Entry TrunkFullInfo :=
  match line.opType with
  | .addSpace => .add (asFree line.info)
  | .delSpace => .del (asFree line.info)

namespace TrunkMem

section

variable {config : TrunkConfig} {m : TrunkMem} {R : Set TrunkFullInfo} {info : TrunkFullInfo}

theorem Placed.overlaps_iff {files : List TrunkFileIdentifier} (h : Placed config files info)
    {b : TrunkFullInfo} : regions.overlaps info b ↔ Overlaps info b := by
  constructor
  · rintro (rfl | ho)
    · exact h.overlaps_self
    · exact ho
  · exact .inr

theorem Holds.addSpaceByTrunk (h : Holds config m R) (hself : config.ifTrunkerSelf = true)
    (hinfo : Placed config m.files info) :
    Meets (m.addSpaceByTrunk config (asFree info)) (fun r => r.2 = 0 ∧ r.1.files = m.files ∧
      r.1.binlog = m.binlog ∧
      Holds config r.1 (regions.redo (keep config) R (.add (asFree info)))) (· = .memory) := by
  have hplaced : Placed config m.files (asFree info) := hinfo.congr rfl rfl
  unfold TrunkMem.addSpaceByTrunk
  by_cases hkeep : keep config (asFree info)
  · by_cases hapart : ∀ b ∈ R, ¬ Overlaps (asFree info) b
    · rcases h.freeSpace hself (.inr rfl) hkeep hplaced hapart with
        hmemory | ⟨m', heq, hR, hfiles, hwrites⟩
      · rw [hmemory]
        rfl
      · rw [heq, Regions.redo_add hkeep fun b hb ho => hapart b hb (hplaced.overlaps_iff.1 ho)]
        exact ⟨rfl, hfiles, hwrites.binlog, hR⟩
    · push Not at hapart
      obtain ⟨b, hb, ho⟩ := hapart
      obtain ⟨m', heq, hR, hfiles, hwrites⟩ :=
        h.freeSpace_of_overlaps hself (.inr rfl) hkeep ⟨b, hb, ho⟩
      rw [heq, Regions.redo_add_of_not fun _ => ⟨b, hb, hplaced.overlaps_iff.2 ho⟩]
      exact ⟨rfl, hfiles, hwrites.binlog, hR⟩
  · have hzero : m.freeSpace config (asFree info) false = .ok (m, 0) := by
      unfold TrunkMem.freeSpace
      rw [if_neg (not_not.2 hself), if_neg fun hnot => Bool.false_ne_true hnot.2,
        if_pos (not_le.1 hkeep)]
    rw [hzero, Regions.redo_add_of_not fun hk => absurd hk hkeep]
    exact ⟨rfl, rfl, rfl, h⟩

theorem restoreRecord_indexes (tree : AvlTreeInfo TrunkFullInfo) (line : LogLine) :
    m.restoreRecord config false tree line.record =
      match line.opType with
      | .addSpace => do
        let r ← m.addSpaceByTrunk config (asFree line.info)
        return (r.1, tree, r.2)
      | .delSpace => do
        let r ← m.deleteSpace (asFree line.info) false
        return (r.1, tree, if r.2 = enoent then 0 else r.2) := by
  obtain ⟨timestamp, opType, info⟩ := line
  cases opType <;> rfl

theorem Holds.restoreRecord (h : Holds config m R) (hself : config.ifTrunkerSelf = true)
    {line : LogLine} (hinfo : Placed config m.files line.info) (tree : AvlTreeInfo TrunkFullInfo) :
    Meets (m.restoreRecord config false tree line.record) (fun r => r.2.2 = 0 ∧
      r.1.files = m.files ∧ r.1.binlog = m.binlog ∧
      Holds config r.1 (regions.redo (keep config) R line.entry)) (· = .memory) := by
  rw [restoreRecord_indexes]
  obtain ⟨timestamp, opType, info⟩ := line
  cases opType with
  | addSpace => exact (h.addSpaceByTrunk hself hinfo).bind fun r hr => hr
  | delSpace =>
    have hredo : regions.redo (keep config) R (entry ⟨timestamp, .delSpace, info⟩) =
        R \ {asFree info} := rfl
    rw [hredo]
    by_cases hmem : asFree info ∈ R
    · obtain ⟨m', heq, hR, hfiles, hwrites⟩ := h.deleteSpace hmem false
      rw [heq]
      exact ⟨rfl, hfiles, hwrites.binlog, hR⟩
    · rw [h.deleteSpace_of_notMem hmem false, Set.sdiff_singleton_eq_self hmem]
      exact ⟨rfl, rfl, rfl, h⟩

theorem Holds.storageTrunkRestore (h : Holds config m R) {before after : List LogLine}
    (hself : config.ifTrunkerSelf = true) (hbefore : before ≠ [])
    (hfile : m.binlog.file = (before ++ after).flatMap text)
    (hlines : ∀ line ∈ after, Printable line.info ∧ Placed config m.files line.info) :
    Meets (m.storageTrunkRestore config (before.flatMap text).length) (fun r => r.2.1 = 0 ∧
      Holds config r.1 ((after.map entry).foldl (regions.redo (keep config)) R))
      (· = .memory) := by
  rw [flatMap_append] at hfile
  have hsize : m.binlog.file.length =
      (before.flatMap text).length + (after.flatMap text).length := by
    rw [hfile, length_append]
  have hpos := lt_of_lt_of_le (length_pos_iff.2 hbefore) (length_le_flatMap before)
  unfold TrunkMem.storageTrunkRestore
  by_cases hend : after = []
  · subst hend
    rw [if_pos (by rw [hsize]; rfl)]
    exact ⟨rfl, h⟩
  have hlt := lt_of_lt_of_le (length_pos_iff.2 hend) (length_le_flatMap after)
  rw [if_neg (by omega), if_neg (by omega), decide_eq_false (by omega)]
  obtain ⟨hproper, hremaining, hoffset⟩ := TrunkBinLogReader.init_proper m.binlog.file
    (before.flatMap text).length
  -- the entries still to be redone are those of the lines still to be read
  have hloop := @restoreLoop_lines config false (· = .memory)
    (fun lines m' _ => m'.files = m.files ∧ (∀ line ∈ lines, Placed config m'.files line.info) ∧
      ∃ R', Holds config m' R' ∧ (lines.map entry).foldl (regions.redo (keep config)) R' =
        (after.map entry).foldl (regions.redo (keep config)) R)
    (by
      rintro line lines m' tree - ⟨hfiles, hplaced, R', hR', hfold⟩
      obtain ⟨hline, hlines⟩ := forall_mem_cons.1 hplaced
      refine (hR'.restoreRecord hself hline tree).mono ?_ fun _ => id
      rintro r ⟨hresult, hfiles', -, hR''⟩
      refine ⟨hresult, hfiles'.trans hfiles, ?_, _, hR'', hfold⟩
      rw [hfiles']
      exact hlines)
    after (fun line hline => (hlines line hline).1) _ hproper
    (by rw [hremaining, hfile, drop_left]) m.binlog.file.length (m.binlog.file.length + 1)
    (by rw [hoffset, hsize])
    (by have := length_le_flatMap after; omega) m (.init true compareOffset)
    ⟨rfl, fun line hline => (hlines line hline).2, R, h, rfl⟩
  refine hloop.bind ?_
  rintro ⟨m', tree, result⟩ ⟨hresult, -, -, R', hR', hfold⟩
  obtain rfl : result = 0 := hresult
  rw [← hfold]
  exact ⟨rfl, hR'⟩

def snapshotText (binlogSize : ℕ) (infos : List TrunkFullInfo) : Bytes :=
  decimal binlogSize ++ 10 :: infos.flatMap fieldsText

theorem length_le_snapshotText (binlogSize : ℕ) (infos : List TrunkFullInfo) :
    2 * infos.length ≤ (snapshotText binlogSize infos).length := by
  have hinfos : 2 * infos.length ≤ (infos.flatMap fieldsText).length := by
    induction infos with
    | nil => exact le_rfl
    | cons info infos ih =>
      rw [flatMap_cons, fieldsText_eq]
      unfold blockText
      simp only [length_append, length_cons]
      omega
  unfold snapshotText
  rw [length_append, length_cons]
  omega

theorem Holds.loadSnapshot (h : Holds config m R) {size : ℕ} {infos : List TrunkFullInfo}
    (hself : config.ifTrunkerSelf = true) (hlt : size < 2 ^ 63)
    (hinfos : ∀ info ∈ infos, Printable info ∧ Placed config m.files info)
    {ok : Bool} (hfits : fits (snapshotText size infos).length (snapshotText size infos) = ok)
    {post : TrunkMem × ℤ × Option Bytes → Prop}
    (hrestore : ∀ m', m'.files = m.files → m'.binlog = m.binlog →
      Holds config m' ((infos.map fun info => Entry.add (asFree info)).foldl
        (regions.redo (keep config)) R) →
      Meets (m'.storageTrunkRestore config size) post (· = .memory)) :
    Meets (m.storageTrunkLoad config (some (snapshotText size infos)))
      (fun r => if ok then post r else r.2.1 = enoent) (· = .memory) := by
  have hlength : (decimal size).length < 4 * 1024 := by
    have := @length_decimal_le size 18 (by omega)
    omega
  obtain ⟨htake, hdrop⟩ := take_drop_line (infos.flatMap fieldsText) hlength
  have hline : ∀ b ∈ decimal size, b ≠ 10 ∧ b ≠ 0 := fun b hb => plain_ne (.inl (numeral_decimal b hb))
  have hoffset := @strtoll_decimal [] size (by simp)
  rw [append_nil, min_eq_right (by omega)] at hoffset
  have hloading := loading_of_fits (by omega)
    (by rw [snapshotText, length_append, length_cons]; omega) hfits
  have hfuel := length_le_snapshotText size infos
  unfold snapshotText at hloading hfuel ⊢
  unfold TrunkMem.storageTrunkLoad
  dsimp only
  rw [TrunkBinLogReader.drop_length_take]
  rw [htake, hdrop] at hloading ⊢
  rw [cutLine_of_line hline]
  dsimp only
  rw [hoffset]
  -- the blocks still to be added are those of the lines still to be read
  have hloop := @loadLoop_blocks config (· = .memory)
    (fun infos' m' => m'.files = m.files ∧ m'.binlog = m.binlog ∧
      (∀ info ∈ infos', Placed config m'.files info) ∧
      ∃ R', Holds config m' R' ∧ (infos'.map fun info => Entry.add (asFree info)).foldl
        (regions.redo (keep config)) R' = (infos.map fun info => Entry.add (asFree info)).foldl
        (regions.redo (keep config)) R)
    (by
      rintro info infos' m' - ⟨hfiles, hbinlog, hplaced, R', hR', hfold⟩
      obtain ⟨hinfo, hinfos'⟩ := forall_mem_cons.1 hplaced
      refine (hR'.addSpaceByTrunk hself hinfo).mono ?_ fun _ => id
      rintro r ⟨hresult, hfiles', hbinlog', hR''⟩
      refine ⟨hresult, hfiles'.trans hfiles, hbinlog'.trans hbinlog, ?_, _, hR'', hfold⟩
      rw [hfiles']
      exact hinfos')
    infos (fun info hinfo => (hinfos info hinfo).1) ok _ _ _
    ((decimal size ++ 10 :: infos.flatMap fieldsText).length + 2) (take_append_drop _ _)
    hloading.line (by omega) m
    ⟨rfl, rfl, fun info hinfo => (hinfos info hinfo).2, R, h, rfl⟩
  refine hloop.bind ?_
  rintro ⟨m', result⟩ ⟨hresult, hfiles, hbinlog, -, R', hR', hfold⟩
  cases ok with
  | true =>
    obtain rfl : result = 0 := hresult
    exact hrestore m' hfiles hbinlog (hfold ▸ hR')
  | false =>
    obtain rfl : result = enoent := hresult
    exact rfl

theorem Holds.storageTrunkLoad (h : Holds config m R) {before after : List LogLine}
    {infos : List TrunkFullInfo} (hself : config.ifTrunkerSelf = true) (hbefore : before ≠ [])
    (hlt : (before.flatMap text).length < 2 ^ 63)
    (hfile : m.binlog.file = (before ++ after).flatMap text)
    (hlines : ∀ line ∈ after, Printable line.info ∧ Placed config m.files line.info)
    (hinfos : ∀ info ∈ infos, Printable info ∧ Placed config m.files info)
    (hfits : fits (snapshotText (before.flatMap text).length infos).length
      (snapshotText (before.flatMap text).length infos) = true) :
    Meets (m.storageTrunkLoad config
        (some (snapshotText (before.flatMap text).length infos)))
      (fun r => r.2.1 = 0 ∧ Holds config r.1
        ((infos.map (fun info => Entry.add (asFree info)) ++ after.map entry).foldl
          (regions.redo (keep config)) R)) (· = .memory) := by
  refine h.loadSnapshot hself hlt hinfos hfits fun m' hfiles hbinlog hm' => ?_
  rw [foldl_append]
  rw [← hbinlog] at hfile
  rw [← hfiles] at hlines
  exact hm'.storageTrunkRestore hself hbefore hfile hlines

end

/-! ## The whole binlog -/

/-- The order of `storage_trunk_node_compare_offset`, with a difference that does not wrap. -/
def comparePlace (p₁ p₂ : TrunkFullInfo) : ℤ :=
  let path (p : TrunkFullInfo) : List UInt8 :=
    [p.path.storePathIndex, p.path.subPathHigh, p.path.subPathLow]
  if memcmp (path p₁) (path p₂) ≠ 0 then memcmp (path p₁) (path p₂)
  else if p₁.file.id.toInt - p₂.file.id.toInt ≠ 0 then p₁.file.id.toInt - p₂.file.id.toInt
  else p₁.file.offset - p₂.file.offset

theorem totalCompare_comparePlace : TotalCompare comparePlace :=
  (totalCompare_memcmp.comap fun p : TrunkFullInfo =>
    [p.path.storePathIndex, p.path.subPathHigh, p.path.subPathLow]).lex
    (TotalCompare.sub.lex TotalCompare.sub)

theorem compareOffset_eq {p₁ p₂ : TrunkFullInfo} (h₁ : 0 ≤ p₁.file.id.toInt)
    (h₂ : 0 ≤ p₂.file.id.toInt) : compareOffset p₁ p₂ = comparePlace p₁ p₂ := by
  have hsub : (p₁.file.id - p₂.file.id).toInt = p₁.file.id.toInt - p₂.file.id.toInt := by
    have := p₁.file.id.toInt_lt
    have := p₂.file.id.toInt_lt
    rw [Int32.toInt_sub, Int.bmod_def]
    split_ifs <;> omega
  unfold compareOffset comparePlace
  rw [hsub]

theorem comparePlace_eq_zero {p₁ p₂ : TrunkFullInfo} :
    comparePlace p₁ p₂ = 0 ↔ p₁.identifier = p₂.identifier ∧ p₁.file.offset = p₂.file.offset := by
  obtain ⟨s, ⟨a, b, c⟩, i, o, n⟩ := p₁
  obtain ⟨s', ⟨a', b', c'⟩, i', o', n'⟩ := p₂
  have hid : i.toInt - i'.toInt = 0 ↔ i = i' := sub_eq_zero.trans Int32.toInt_inj
  unfold comparePlace TrunkFullInfo.identifier
  simp only [TrunkFileIdentifier.mk.injEq, TrunkPathInfo.mk.injEq]
  have hpath : memcmp [a, b, c] [a', b', c'] = 0 ↔ a = a' ∧ b = b' ∧ c = c' := by
    rw [memcmp_eq_zero]
    simp
  by_cases hzero : memcmp [a, b, c] [a', b', c'] = 0
  · rw [if_neg (not_not.2 hzero)]
    by_cases hzero' : i.toInt - i'.toInt = 0
    · rw [if_neg (not_not.2 hzero'), sub_eq_zero]
      exact ⟨fun ho => ⟨⟨hpath.1 hzero, hid.1 hzero'⟩, ho⟩, And.right⟩
    · rw [if_pos hzero']
      exact ⟨fun h => absurd h hzero', fun h => absurd (hid.2 h.1.2) hzero'⟩
  · rw [if_pos hzero]
    exact ⟨fun h => absurd h hzero, fun h => absurd (hpath.2 h.1.1) hzero⟩

structure Numbered (config : TrunkConfig) (files : List TrunkFileIdentifier) (info : TrunkFullInfo) :
    Prop where
  placed : Placed config files info
  id_nonneg : 0 ≤ info.file.id.toInt

variable {files : List TrunkFileIdentifier} {info : TrunkFullInfo}

theorem Numbered.asFree {config : TrunkConfig} (h : Numbered config files info) :
    Numbered config files (asFree info) := ⟨h.placed.congr rfl rfl, h.id_nonneg⟩

structure Collects (tree : AvlTreeInfo TrunkFullInfo) (A : Set TrunkFullInfo) : Prop where
  compare_eq : tree.compare = compareOffset
  ordered : AvlTreeInfo.Ordered comparePlace { tree with compare := comparePlace }
  mem_iff : ∀ e, e ∈ tree.toList ↔ e ∈ A

theorem collects_init : Collects (.init true compareOffset) ∅ :=
  ⟨rfl, AvlTreeInfo.ordered_init true comparePlace, fun _ => ⟨nofun, nofun⟩⟩

section

variable {config : TrunkConfig} {files : List TrunkFileIdentifier} {A : Set TrunkFullInfo}
  {tree : AvlTreeInfo TrunkFullInfo} {b : TrunkFullInfo}

theorem Numbered.overlaps_of_zero {e : TrunkFullInfo} (he : Numbered config files e)
    (hb : Numbered config files b) (hzero : comparePlace e b = 0) : regions.overlaps e b := by
  obtain ⟨hid, hoffset⟩ := comparePlace_eq_zero.1 hzero
  have := he.placed.size_pos
  have := hb.placed.size_pos
  exact .inr ⟨hid, by omega, by omega⟩

variable (h : Collects tree A) (hA : ∀ e ∈ A, Numbered config files e)

include h hA

theorem Collects.compare_congr (hb : 0 ≤ b.file.id.toInt) :
    ∀ e ∈ tree.root.toList, tree.compare e b = comparePlace e b := by
  intro e he
  rw [h.compare_eq]
  exact compareOffset_eq (hA e ((h.mem_iff e).1 he)).id_nonneg hb

theorem Collects.insert (hb : Numbered config files b) (hapart : ∀ e ∈ A, ¬ regions.overlaps b e) :
    Collects (tree.insert true b).1 (insert b A) := by
  have hnew : ∀ e ∈ tree.toList, comparePlace e b ≠ 0 := by
    intro e he hzero
    have heA := (h.mem_iff e).1 he
    exact hapart e heA (regions.symm ((hA e heA).overlaps_of_zero hb hzero))
  obtain ⟨hordered, -, hmem⟩ := h.ordered.insert totalCompare_comparePlace hnew
  have hloop : AvlTree.insertLoop tree.compare true b tree.root =
      AvlTree.insertLoop comparePlace true b tree.root :=
    AvlTree.putLoop_congr true id (h.compare_congr hA hb.id_nonneg)
  refine ⟨h.compare_eq, ?_, fun e => ?_⟩
  · unfold AvlTreeInfo.insert
    rw [hloop]
    exact hordered
  · unfold AvlTreeInfo.insert
    rw [hloop, Set.mem_insert_iff, ← h.mem_iff e]
    exact hmem e

theorem Collects.delete (hb : b ∈ A) (hapart : regions.Apart A) :
    Collects (tree.delete b).1.1 (A \ {b}) := by
  obtain ⟨hordered, -, hmem⟩ := h.ordered.delete totalCompare_comparePlace b
  have hloop := AvlTree.deleteLoop_congr (h.compare_congr hA (hA b hb).id_nonneg)
  refine ⟨h.compare_eq, ?_, fun e => ?_⟩
  · unfold AvlTreeInfo.delete
    rw [hloop]
    exact hordered
  · unfold AvlTreeInfo.delete
    rw [hloop, Set.mem_sdiff, ← h.mem_iff e]
    refine (hmem e).trans (and_congr_right fun he => not_congr ⟨fun hzero => ?_, ?_⟩)
    · have heA := (h.mem_iff e).1 he
      exact hapart e heA b hb ((hA e heA).overlaps_of_zero (hA b hb) hzero)
    · rintro rfl
      exact totalCompare_comparePlace.refl e

end

variable {config : TrunkConfig} {m : TrunkMem} {R : Set TrunkFullInfo}

theorem restoreRecord_tree (tree : AvlTreeInfo TrunkFullInfo) (line : LogLine) :
    m.restoreRecord config true tree line.record = .ok (m,
      match line.opType with
      | .addSpace => (tree.insert true (asFree line.info)).1
      | .delSpace => (tree.delete (asFree line.info)).1.1, 0) := by
  obtain ⟨timestamp, opType, info⟩ := line
  cases opType <;> rfl

structure Collecting (config : TrunkConfig) (files : List TrunkFileIdentifier)
    (L : Set TrunkFullInfo) (lines : List LogLine) (tree : AvlTreeInfo TrunkFullInfo)
    (A : Set TrunkFullInfo) : Prop where
  collects : Collects tree A
  numbered : ∀ e ∈ A, Numbered config files e
  free : ∀ e ∈ A, asFree e = e
  apart : regions.Apart A
  numbered_lines : ∀ line ∈ lines, Numbered config files line.info
  valid : regions.Valid A (lines.map entry)
  replay : replay A (lines.map entry) = L

theorem Collecting.restoreRecord {L A : Set TrunkFullInfo}
    {line : LogLine} {lines : List LogLine} {tree : AvlTreeInfo TrunkFullInfo}
    (h : Collecting config files L (line :: lines) tree A) :
    ∃ tree', m.restoreRecord config true tree line.record = .ok (m, tree', 0) ∧
      Collecting config files L lines tree' (apply A line.entry) := by
  obtain ⟨hline, hlines⟩ := forall_mem_cons.1 h.numbered_lines
  have hvalid := h.valid
  have hreplay := h.replay
  refine ⟨_, restoreRecord_tree tree line, ?_⟩
  obtain ⟨timestamp, opType, info⟩ := line
  cases opType with
  | addSpace =>
    refine ⟨h.collects.insert h.numbered hline.asFree hvalid.1, ?_, ?_, h.apart.insert hvalid.1,
      hlines, hvalid.2, hreplay⟩
    · rintro e (rfl | he)
      · exact hline.asFree
      · exact h.numbered e he
    · rintro e (rfl | he)
      · rfl
      · exact h.free e he
  | delSpace =>
    exact ⟨h.collects.delete h.numbered hvalid.1 h.apart, fun e he => h.numbered e he.1,
      fun e he => h.free e he.1, fun a ha c hc => h.apart a ha.1 c hc.1, hlines, hvalid.2, hreplay⟩

theorem addSpaceByNode_eq (hself : config.ifTrunkerSelf = true) (hinfo : asFree info = info) :
    m.addSpaceByNode config info = m.addSpaceByTrunk config (asFree info) := by
  have hspace : m.freeSpace config (asFree info) false =
      if info.file.size < config.slotMinSize then .ok (m, 0)
      else (m.newNode (asFree info)).1.addFreeBlock (m.newNode (asFree info)).2 false := by
    unfold TrunkMem.freeSpace
    rw [if_neg (not_not.2 hself), if_neg (by simp)]
    rfl
  unfold TrunkMem.addSpaceByNode TrunkMem.addSpaceByTrunk
  rw [hspace, hinfo]
  split_ifs <;> rfl

theorem Holds.walkList (h : Holds config m R) (hself : config.ifTrunkerSelf = true)
    {infos : List TrunkFullInfo}
    (hinfos : ∀ info ∈ infos, asFree info = info ∧ Placed config m.files info) :
    AvlTree.walkList (addFreeBlocksCallback config) infos (.ok m) = (.error .memory, 1) ∨
      ∃ m', AvlTree.walkList (addFreeBlocksCallback config) infos (.ok m) = (.ok m', 0) ∧
        Holds config m' ((infos.map Entry.add).foldl (regions.redo (keep config)) R) := by
  induction infos generalizing m R with
  | nil => exact .inr ⟨m, rfl, h⟩
  | cons info infos ih =>
    obtain ⟨⟨hfree, hinfo⟩, hinfos⟩ := forall_mem_cons.1 hinfos
    have hadd := h.addSpaceByTrunk hself hinfo
    rw [← addSpaceByNode_eq hself hfree, hfree] at hadd
    rw [AvlTree.walkList]
    cases heq : m.addSpaceByNode config info with
    | error e =>
      rw [heq] at hadd
      obtain rfl : e = .memory := hadd
      have hcall : addFreeBlocksCallback config info (.ok m) = (.error .memory, 1) := by
        unfold addFreeBlocksCallback
        dsimp only
        rw [heq]
      rw [hcall]
      exact .inl rfl
    | ok r =>
      obtain ⟨m', result⟩ := r
      rw [heq] at hadd
      obtain ⟨hresult, hfiles, -, hR⟩ := hadd
      obtain rfl : result = 0 := hresult
      have hcall : addFreeBlocksCallback config info (.ok m) = (.ok m', 0) := by
        unfold addFreeBlocksCallback
        dsimp only
        rw [heq]
      rw [hcall]
      exact ih hR fun info hmem => by rw [hfiles]; exact hinfos info hmem

theorem Placed.printable (h : Placed config files info) : Printable info := by
  have := h.nonneg
  have := h.size_pos
  have := h.le
  have := config.trunkFileSize_lt
  exact ⟨by omega, by omega, by omega, by omega⟩

theorem foldl_redo_adds {infos : List TrunkFullInfo}
    (hinfos : infos.Pairwise fun a b => ¬ regions.overlaps a b) :
    (infos.map Entry.add).foldl (regions.redo (keep config)) ∅ =
      {b | b ∈ infos ∧ keep config b} := by
  have hvalid : regions.Valid ∅ (infos.map .add) := Regions.valid_adds (fun _ _ _ => nofun) hinfos
  have hredo := @Regions.Valid.foldl_redo _ regions ∅ _ (keep config) hvalid
  rw [Regions.replay_adds, Set.union_empty] at hredo
  rwa [show {b ∈ (∅ : Set TrunkFullInfo) | keep config b} = ∅ from Set.sep_empty _] at hredo

theorem Holds.storageTrunkRestore_zero (h : Holds config m ∅) {log : List LogLine}
    (hself : log ≠ [] → config.ifTrunkerSelf = true)
    (hfile : m.binlog.file = log.flatMap text)
    (hlines : ∀ line ∈ log, Numbered config m.files line.info)
    (hvalid : regions.Valid ∅ (log.map entry)) :
    Meets (m.storageTrunkRestore config 0) (fun r => r.2.1 = 0 ∧
      Holds config r.1 {b ∈ replay ∅ (log.map entry) | keep config b}) (· = .memory) := by
  unfold TrunkMem.storageTrunkRestore
  dsimp only
  by_cases hlog : log = []
  · subst hlog
    rw [if_pos (by rw [hfile]; rfl)]
    refine ⟨rfl, ?_⟩
    rwa [map_nil, replay_nil, Set.sep_empty]
  have hpos : 0 < m.binlog.file.length := by
    rw [hfile]
    exact lt_of_lt_of_le (length_pos_iff.2 hlog) (length_le_flatMap log)
  rw [if_neg (by omega), decide_eq_true rfl]
  obtain ⟨hproper, hremaining, hoffset⟩ := TrunkBinLogReader.init_proper m.binlog.file 0
  set L := replay ∅ (log.map entry)
  have hloop := @restoreLoop_lines config true (· = .memory)
    (fun lines m' tree => m' = m ∧ ∃ A, Collecting config m.files L lines tree A)
    (by
      rintro line lines m' tree - ⟨rfl, A, hA⟩
      obtain ⟨tree', heq, hA'⟩ := hA.restoreRecord
      rw [heq]
      exact ⟨rfl, rfl, _, hA'⟩)
    log (fun line hline => (hlines line hline).placed.printable) _ hproper
    (by rw [hremaining, hfile, drop_zero]) m.binlog.file.length (m.binlog.file.length + 1)
    (by rw [hoffset, hfile, zero_add])
    (by have := length_le_flatMap log; rw [hfile]; omega) m (.init true compareOffset)
    ⟨rfl, ∅, collects_init, nofun, nofun, nofun, hlines, hvalid, rfl⟩
  refine hloop.bind ?_
  rintro ⟨m', tree, result⟩ ⟨hresult, rfl, A, hA⟩
  obtain rfl : result = 0 := hresult
  obtain rfl : A = L := hA.replay
  have hpairwise : tree.toList.Pairwise fun a b => ¬ regions.overlaps a b :=
    hA.collects.ordered.sorted.imp_of_mem fun {a b} ha hb hlt ho => by
      have heq := hA.apart a ((hA.collects.mem_iff a).1 ha) b ((hA.collects.mem_iff b).1 hb) ho
      rw [heq, totalCompare_comparePlace.refl] at hlt
      exact lt_irrefl _ hlt
  have hset : {b | b ∈ tree.toList ∧ keep config b} = {b ∈ L | keep config b} := by
    ext b
    exact and_congr_left fun _ => hA.collects.mem_iff b
  have hwalk := @Holds.walkList config m' ∅ h (hself hlog) tree.toList fun info hinfo =>
    have hmem := (hA.collects.mem_iff info).1 hinfo
    ⟨hA.free info hmem, (hA.numbered info hmem).placed⟩
  rw [foldl_redo_adds hpairwise, hset] at hwalk
  unfold AvlTreeInfo.walk
  rw [AvlTree.walkLoop_eq]
  rcases hwalk with hmemory | ⟨m'', heq, hholds⟩
  · rw [show tree.root.toList = tree.toList from rfl, hmemory]
    rfl
  · rw [show tree.root.toList = tree.toList from rfl, heq]
    exact ⟨rfl, hholds⟩

end TrunkMem

end ServerStack.Fastdfs
