import ServerStack.Fastdfs.TrunkIndex

/-!
# The free blocks of the trunk server

The index by size, and what the operations on one block do to both indexes.
-/

namespace ServerStack.Fastdfs

open OrderedList List Option

namespace TrunkMem

/-! ## The index by size -/

structure SizeIndex (nodes : NodeId → TrunkFullInfo) (tree : AvlTreeInfo TrunkSlot)
    (S : Set NodeId) : Prop where
  ordered : tree.Ordered compareSize
  nonempty : ∀ slot ∈ tree.toList, slot.head ≠ []
  nodup : ∀ slot ∈ tree.toList, slot.head.Nodup
  size : ∀ slot ∈ tree.toList, ∀ n ∈ slot.head, (nodes n).file.size = slot.size
  mem_iff : ∀ n, n ∈ S ↔ ∃ slot ∈ tree.toList, n ∈ slot.head

section

variable {m : TrunkMem} {S : Set NodeId} {slot : TrunkSlot} {n : NodeId}

theorem sizeIndex_empty (nodes : NodeId → TrunkFullInfo) :
    SizeIndex nodes (.init false compareSize) ∅ where
  ordered := AvlTreeInfo.ordered_init _ _
  nonempty := nofun
  nodup := nofun
  size := nofun
  mem_iff _ := ⟨nofun, fun ⟨_, h, _⟩ => nomatch h⟩

theorem SizeIndex.congr {nodes nodes' : NodeId → TrunkFullInfo} {tree : AvlTreeInfo TrunkSlot}
    (h : SizeIndex nodes tree S) (hnodes : ∀ n ∈ S, (nodes' n).file = (nodes n).file) :
    SizeIndex nodes' tree S where
  ordered := h.ordered
  nonempty := h.nonempty
  nodup := h.nodup
  size slot hslot n hn := by
    rw [hnodes n ((h.mem_iff n).2 ⟨slot, hslot, hn⟩)]
    exact h.size slot hslot n hn
  mem_iff := h.mem_iff

variable (h : SizeIndex m.nodes m.treeInfoBySize S)

include h

theorem SizeIndex.mem_head_iff (hslot : slot ∈ m.treeInfoBySize.toList) :
    n ∈ slot.head ↔ n ∈ S ∧ (m.nodes n).file.size = slot.size := by
  constructor
  · exact fun hn => ⟨(h.mem_iff n).2 ⟨slot, hslot, hn⟩, h.size slot hslot n hn⟩
  · rintro ⟨hn, hsize⟩
    obtain ⟨slot', hslot', hn'⟩ := (h.mem_iff n).1 hn
    have hzero : compareSize slot' slot = 0 :=
      compareSize_eq_zero.2 ((h.size slot' hslot' n hn').symm.trans hsize)
    rwa [← h.ordered.eq_of_zero totalCompare_compareSize hslot' hslot hzero]

theorem SizeIndex.set {tree : AvlTreeInfo TrunkSlot} {S' : Set NodeId} (slot : TrunkSlot)
    (hordered : tree.Ordered compareSize)
    (hmem : ∀ e, e ∈ tree.toList ↔ e = slot ∨ e ∈ m.treeInfoBySize.toList ∧ e.size ≠ slot.size)
    (hne : slot.head ≠ []) (hnodup : slot.head.Nodup)
    (hsize : ∀ n ∈ slot.head, (m.nodes n).file.size = slot.size)
    (hS : ∀ n, n ∈ S' ↔ n ∈ slot.head ∨ n ∈ S ∧ (m.nodes n).file.size ≠ slot.size) :
    SizeIndex m.nodes tree S' where
  ordered := hordered
  nonempty := forall_mem_set hmem hne h.nonempty
  nodup := forall_mem_set hmem hnodup h.nodup
  size := forall_mem_set hmem hsize h.size
  mem_iff := mem_blocks_set hmem h.size h.mem_iff hS

theorem SizeIndex.modify (hslot : slot ∈ m.treeInfoBySize.toList) (f : List NodeId → List NodeId) :
    (m.treeInfoBySize.modify slot fun e => { e with head := f e.head }).Ordered compareSize ∧
      ∀ e, e ∈ (m.treeInfoBySize.modify slot fun e => { e with head := f e.head }).toList ↔
        e = { slot with head := f slot.head } ∨
          e ∈ m.treeInfoBySize.toList ∧ e.size ≠ slot.size := by
  obtain ⟨hordered, hmem⟩ := h.ordered.modify totalCompare_compareSize slot
    (fun e => { e with head := f e.head }) fun d _ _ => compareSize_eq_zero.2 rfl
  refine ⟨hordered, fun e => ?_⟩
  rw [hmem e]
  refine or_congr ⟨?_, fun heq => ?_⟩ (and_congr_right fun _ => not_congr compareSize_eq_zero)
  · rintro ⟨d, hd, hzero, heq⟩
    rwa [h.ordered.eq_of_zero totalCompare_compareSize hd hslot hzero] at heq
  · exact ⟨slot, hslot, totalCompare_compareSize.refl _, heq⟩

theorem SizeIndex.link (hn : n ∉ S) : ∃ tree, SizeIndex m.nodes tree (insert n S) ∧
    m.linkNode n = ({ m with treeInfoBySize := tree }, true) := by
  unfold linkNode
  cases hfind : m.treeInfoBySize.find ⟨(m.nodes n).file.size, []⟩ with
  | none =>
    have hnone := (h.ordered.find_eq_none totalCompare_compareSize _).1 hfind
    have hnew : ∀ e ∈ m.treeInfoBySize.toList,
        compareSize e ⟨(m.nodes n).file.size, [n]⟩ ≠ 0 := hnone
    obtain ⟨hordered, hone, hmem⟩ := h.ordered.insert totalCompare_compareSize hnew
    have hother : ∀ e ∈ m.treeInfoBySize.toList, e.size ≠ (m.nodes n).file.size := fun e he heq =>
      hnew e he (compareSize_eq_zero.2 heq)
    refine ⟨_, ?_, Prod.ext rfl (decide_eq_true hone)⟩
    refine h.set ⟨(m.nodes n).file.size, [n]⟩ hordered (fun e => ?_) (cons_ne_nil _ _)
      (nodup_singleton n) (fun k hk => ?_) fun k => ?_
    · rw [hmem e]
      exact or_congr_right ⟨fun he => ⟨he, hother e he⟩, And.left⟩
    · rw [mem_singleton.1 hk]
    · rw [mem_singleton]
      refine or_congr_right ⟨fun hk => ⟨hk, ?_⟩, And.left⟩
      obtain ⟨e, he, hke⟩ := (h.mem_iff k).1 hk
      exact h.size e he k hke ▸ hother e he
  | some slot =>
    obtain ⟨hslot, hzero⟩ := (h.ordered.find_iff totalCompare_compareSize _ _).1 hfind
    have hsize : slot.size = (m.nodes n).file.size := compareSize_eq_zero.1 hzero
    obtain ⟨hordered, hmem⟩ := h.modify hslot (n :: ·)
    refine ⟨_, ?_, rfl⟩
    refine h.set { slot with head := n :: slot.head } hordered hmem (cons_ne_nil _ _)
      (nodup_cons.2 ⟨?_, h.nodup slot hslot⟩) (fun k hk => ?_) fun k => ?_
    · exact fun hmem => hn ((h.mem_iff n).2 ⟨slot, hslot, hmem⟩)
    · rcases mem_cons.1 hk with rfl | hk
      · exact hsize.symm
      · exact h.size slot hslot k hk
    · rw [Set.mem_insert_iff, mem_cons, h.mem_head_iff hslot]
      tauto

theorem SizeIndex.unlink (hslot : slot ∈ m.treeInfoBySize.toList) (hn : n ∈ slot.head) :
    ∃ tree, SizeIndex m.nodes tree (S \ {n}) ∧
      m.unlinkNode slot n = { m with treeInfoBySize := tree } := by
  have hnodup := h.nodup slot hslot
  have hrest : ∀ k, k ∈ slot.head.erase n ↔ k ≠ n ∧ k ∈ S ∧ (m.nodes k).file.size = slot.size :=
    fun k => by rw [hnodup.mem_erase_iff, h.mem_head_iff hslot]
  have hsize := h.size slot hslot n hn
  unfold unlinkNode
  by_cases hnil : slot.head.erase n = []
  · rw [if_pos hnil]
    obtain ⟨hordered, -, hmem⟩ := h.ordered.delete totalCompare_compareSize slot
    refine ⟨_, ?_, rfl⟩
    exact {
      ordered := hordered
      nonempty := fun e he => h.nonempty e ((hmem e).1 he).1
      nodup := fun e he => h.nodup e ((hmem e).1 he).1
      size := fun e he => h.size e ((hmem e).1 he).1
      mem_iff := fun k => by
        constructor
        · rintro ⟨hk, hkn⟩
          obtain ⟨e, he, hke⟩ := (h.mem_iff k).1 hk
          refine ⟨e, (hmem e).2 ⟨he, fun hzero => ?_⟩, hke⟩
          have hmem' := (hrest k).2 ⟨hkn, hk, by
            rw [h.size e he k hke, compareSize_eq_zero.1 hzero]⟩
          rw [hnil] at hmem'
          cases hmem'
        · rintro ⟨e, he, hke⟩
          obtain ⟨he, hne⟩ := (hmem e).1 he
          refine ⟨(h.mem_iff k).2 ⟨e, he, hke⟩, ?_⟩
          rintro rfl
          exact hne (compareSize_eq_zero.2 ((h.size e he _ hke).symm.trans hsize)) }
  · rw [if_neg hnil]
    obtain ⟨hordered, hmem⟩ := h.modify hslot (List.erase · n)
    refine ⟨_, ?_, rfl⟩
    refine h.set { slot with head := slot.head.erase n } hordered hmem hnil (hnodup.erase n)
      (fun k hk => ((hrest k).1 hk).2.2) fun k => ?_
    rw [hrest k, Set.mem_sdiff]
    by_cases hkn : k = n
    · subst hkn
      tauto
    · tauto

theorem SizeIndex.findNode_some {info : TrunkFullInfo} (hfind : m.findNode info = some (slot, n)) :
    slot ∈ m.treeInfoBySize.toList ∧ n ∈ slot.head ∧ m.nodes n = info := by
  obtain ⟨slot', hslot, hfind⟩ := bind_eq_some_iff.1 hfind
  obtain ⟨n', hn, heq⟩ := bind_eq_some_iff.1 hfind
  cases heq
  have hinfo := find?_some hn
  exact ⟨((h.ordered.find_iff totalCompare_compareSize _ _).1 hslot).1, mem_of_find?_eq_some hn,
    of_decide_eq_true hinfo⟩

theorem SizeIndex.findNode_of_mem (hn : n ∈ S) : ∃ found, m.findNode (m.nodes n) = some found := by
  obtain ⟨slot, hslot, hmem⟩ := (h.mem_iff n).1 hn
  have hfind : m.treeInfoBySize.find ⟨(m.nodes n).file.size, []⟩ = some slot :=
    (h.ordered.find_iff totalCompare_compareSize _ _).2
      ⟨hslot, compareSize_eq_zero.2 (h.size slot hslot n hmem).symm⟩
  have hsome : (slot.head.find? fun k => decide (m.nodes k = m.nodes n)).isSome :=
    find?_isSome.2 ⟨n, hmem, decide_eq_true rfl⟩
  obtain ⟨k, hk⟩ := isSome_iff_exists.1 hsome
  exact ⟨(slot, k), bind_eq_some_iff.2 ⟨slot, hfind, bind_eq_some_iff.2 ⟨k, hk, rfl⟩⟩⟩

theorem SizeIndex.findFree_some {fuel : ℕ} {size : ℤ} (hfind : m.findFree fuel size = some (slot, n)) :
    slot ∈ m.treeInfoBySize.toList ∧ n ∈ slot.head ∧ (m.nodes n).status = .free ∧
      size ≤ slot.size := by
  induction fuel generalizing size with
  | zero => cases hfind
  | succ fuel ih =>
    rw [findFree] at hfind
    cases hge : m.treeInfoBySize.findGe ⟨size, []⟩ with
    | none =>
      rw [hge] at hfind
      cases hfind
    | some slot' =>
      obtain ⟨hslot, hle, -⟩ := (h.ordered.findGe totalCompare_compareSize _).1 slot' hge
      have hle' : size ≤ slot'.size := Int.sub_nonneg.1 hle
      rw [hge] at hfind
      dsimp only at hfind
      cases hhead : slot'.head.find? fun n => decide ((m.nodes n).status ≠ .hold) with
      | none =>
        rw [hhead] at hfind
        obtain ⟨hmem, hn, hstatus, hsize⟩ := ih hfind
        exact ⟨hmem, hn, hstatus, by omega⟩
      | some k =>
        rw [hhead] at hfind
        obtain ⟨rfl, rfl⟩ := Prod.mk.inj (some.inj hfind)
        have hstatus := find?_some hhead
        refine ⟨hslot, mem_of_find?_eq_some hhead, ?_, hle'⟩
        cases hs : (m.nodes k).status with
        | free => rfl
        | hold => exact absurd hs (of_decide_eq_true hstatus)

end

/-! ## Both indexes -/

structure Indexed (m : TrunkMem) (S : Set NodeId) : Prop where
  size : SizeIndex m.nodes m.treeInfoBySize S
  file : FileIndex m.nodes m.treeInfoById S

variable {m : TrunkMem} {S : Set NodeId} {n : NodeId}

theorem Indexed.congr {m' : TrunkMem} (h : Indexed m S)
    (hsizes : m'.treeInfoBySize = m.treeInfoBySize) (hfiles : m'.treeInfoById = m.treeInfoById)
    (hnodes : ∀ n ∈ S, (m'.nodes n).path = (m.nodes n).path ∧
      (m'.nodes n).file = (m.nodes n).file) : Indexed m' S :=
  ⟨hsizes ▸ h.size.congr fun n hn => (hnodes n hn).2, hfiles ▸ h.file.congr hnodes⟩

variable (h : Indexed m S)

include h

theorem Indexed.addFreeBlock (hn : n ∉ S) (hsize : 0 < (m.nodes n).file.size)
    (hapart : ∀ k ∈ S, ¬ Overlaps (m.nodes n) (m.nodes k)) (writeBinLog : Bool) :
    m.addFreeBlock n writeBinLog = .error .memory ∨ ∃ sizes files,
      Indexed { m.noteSpace writeBinLog .addSpace (m.nodes n) with
        treeInfoBySize := sizes, treeInfoById := files } (insert n S) ∧
      m.addFreeBlock n writeBinLog = .ok ({ m.noteSpace writeBinLog .addSpace (m.nodes n) with
        treeInfoBySize := sizes, treeInfoById := files }, 0) := by
  have hcheck : m.freeBlockCheckDuplicate (m.nodes n) = .ok 0 := by
    rcases h.file.checkDuplicate hsize with ⟨heq, -⟩ | ⟨-, k, hk, hoverlaps⟩
    · exact heq
    · exact absurd hoverlaps (hapart k hk)
  obtain ⟨sizes, hsizes, hlink⟩ := h.size.link hn
  unfold TrunkMem.addFreeBlock
  dsimp only
  rw [hcheck, hlink]
  have hfile : FileIndex m.nodes m.treeInfoById S := h.file
  rcases @FileIndex.insert
    ({ m with treeInfoBySize := sizes }.noteSpace writeBinLog .addSpace (m.nodes n)) S hfile n hsize
    hapart with hmemory | ⟨files, hfiles, heq⟩
  · exact .inl hmemory
  · exact .inr ⟨sizes, files, ⟨hsizes, hfiles⟩, heq⟩

theorem Indexed.addFreeBlock_of_overlaps (hsize : 0 < (m.nodes n).file.size)
    (hoverlaps : ∃ k ∈ S, Overlaps (m.nodes n) (m.nodes k)) (writeBinLog : Bool) :
    m.addFreeBlock n writeBinLog = .ok (m, eexist) := by
  have hcheck : m.freeBlockCheckDuplicate (m.nodes n) = .ok eexist := by
    rcases h.file.checkDuplicate hsize with ⟨-, hapart⟩ | ⟨heq, -⟩
    · obtain ⟨k, hk, ho⟩ := hoverlaps
      exact absurd ho (hapart k hk)
    · exact heq
  unfold TrunkMem.addFreeBlock
  dsimp only
  rw [hcheck]
  rfl

theorem Indexed.unlink {slot : TrunkSlot} (hslot : slot ∈ m.treeInfoBySize.toList)
    (hn : n ∈ slot.head) : ∃ sizes files,
      Indexed { m with treeInfoBySize := sizes, treeInfoById := files } (S \ {n}) ∧
      (m.unlinkNode slot n).freeBlockDelete (m.nodes n) =
        .ok ({ m with treeInfoBySize := sizes, treeInfoById := files }, 0) := by
  obtain ⟨sizes, hsizes, hunlink⟩ := h.size.unlink hslot hn
  obtain ⟨files, hfiles, heq⟩ := @FileIndex.delete { m with treeInfoBySize := sizes } S h.file n
    ((h.size.mem_iff n).2 ⟨slot, hslot, hn⟩)
  refine ⟨sizes, files, ⟨hsizes, hfiles⟩, ?_⟩
  rw [hunlink]
  exact heq

theorem Indexed.findNode (hn : n ∈ S) :
    ∃ slot ∈ m.treeInfoBySize.toList, n ∈ slot.head ∧ m.findNode (m.nodes n) = some (slot, n) := by
  obtain ⟨⟨slot, k⟩, hfind⟩ := h.size.findNode_of_mem hn
  obtain ⟨hslot, hk, heq⟩ := h.size.findNode_some hfind
  have hpos := h.file.size_pos n hn
  have hoverlaps : Overlaps (m.nodes k) (m.nodes n) := by
    rw [heq]
    exact ⟨rfl, by omega, by omega⟩
  obtain rfl := h.file.eq_of_overlaps ((h.size.mem_iff k).2 ⟨slot, hslot, hk⟩) hn hoverlaps
  exact ⟨slot, hslot, hk, hfind⟩

theorem Indexed.deleteSpace (hn : n ∈ S) (writeBinLog : Bool) : ∃ sizes files,
    Indexed { m.noteSpace writeBinLog .delSpace (m.nodes n) with
      treeInfoBySize := sizes, treeInfoById := files } (S \ {n}) ∧
    m.deleteSpace (m.nodes n) writeBinLog = .ok ({ m.noteSpace writeBinLog .delSpace (m.nodes n) with
      treeInfoBySize := sizes, treeInfoById := files }, 0) := by
  obtain ⟨slot, hslot, hmem, hfind⟩ := h.findNode hn
  obtain ⟨sizes, files, hindexed, hunlink⟩ := h.unlink hslot hmem
  refine ⟨sizes, files, ⟨hindexed.size, hindexed.file⟩, ?_⟩
  unfold TrunkMem.deleteSpace
  rw [hfind]
  dsimp only
  rw [hunlink]
  rfl

theorem Indexed.deleteSpace_of_not_mem {info : TrunkFullInfo} (hinfo : ∀ k ∈ S, m.nodes k ≠ info)
    (writeBinLog : Bool) : m.deleteSpace info writeBinLog = .ok (m, enoent) := by
  unfold TrunkMem.deleteSpace
  cases hfind : m.findNode info with
  | none => rfl
  | some found =>
    obtain ⟨hslot, hmem, heq⟩ := h.size.findNode_some hfind
    exact absurd heq (hinfo _ ((h.size.mem_iff _).2 ⟨_, hslot, hmem⟩))

theorem Indexed.restoreNode (hn : n ∈ S) : m.restoreNode (m.nodes n) =
    ({ m with nodes := Function.update m.nodes n { m.nodes n with status := .free } }, 0) := by
  obtain ⟨slot, -, -, hfind⟩ := h.findNode hn
  unfold TrunkMem.restoreNode
  rw [hfind]

end TrunkMem

end ServerStack.Fastdfs
