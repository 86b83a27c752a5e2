import ServerStack.Fastdfs.AvlTreeSet
import ServerStack.Fastdfs.TrunkMem
import ServerStack.Lib.Outcome

/-!
# The two indexes of the free blocks

Each index is a set of nodes.  Linking a node and unlinking it add it to the set and take it away,
and the check for a duplicate finds exactly the blocks that overlap one of the set.
-/

namespace ServerStack.Fastdfs

open BinarySearch Endian OrderedList Outcome List

/-! ## Comparison functions -/

theorem totalCompare_compareSize : TotalCompare compareSize where
  swap a b := by
    unfold compareSize
    omega
  trans hab hbc := by
    unfold compareSize at *
    omega

theorem totalCompare_compareEntry : TotalCompare compareEntry :=
  totalCompare_memcmp.comap fun p : TrunksById => p.trunkFileId.bytes

theorem compareSize_eq_zero {p q : TrunkSlot} : compareSize p q = 0 ↔ p.size = q.size := by
  unfold compareSize
  omega

theorem TrunkFileIdentifier.bytes_injective : Function.Injective TrunkFileIdentifier.bytes := by
  rintro ⟨⟨s, h, l⟩, i⟩ ⟨⟨s', h', l'⟩, i'⟩ heq
  simp only [bytes, List.cons.injEq, true_and] at heq
  obtain ⟨rfl, rfl, rfl, hid⟩ := heq
  have hnat := congrArg ofLittleEndian hid
  rw [ofLittleEndian_littleEndian i.toUInt32.toNat_lt,
    ofLittleEndian_littleEndian i'.toUInt32.toNat_lt] at hnat
  have hi : i = i' := congrArg Int32.ofUInt32 (UInt32.toNat_inj.1 hnat)
  rw [hi]

theorem compareEntry_eq_zero {p q : TrunksById} :
    compareEntry p q = 0 ↔ p.trunkFileId = q.trunkFileId := by
  unfold compareEntry
  rw [memcmp_eq_zero]
  exact TrunkFileIdentifier.bytes_injective.eq_iff

/-! ## Overlapping blocks -/

def Overlaps (a b : TrunkFullInfo) : Prop :=
  a.identifier = b.identifier ∧ a.file.offset < b.file.offset + b.file.size ∧
    b.file.offset < a.file.offset + a.file.size

instance (a b : TrunkFullInfo) : Decidable (Overlaps a b) := inferInstanceAs (Decidable (_ ∧ _))

theorem Overlaps.symm {a b : TrunkFullInfo} (h : Overlaps a b) : Overlaps b a :=
  ⟨h.1.symm, h.2.2, h.2.1⟩

section

variable {file block block' : TrunkFileInfo}

theorem duplicateSide_before (hfile : 0 < file.size) :
    TrunkMem.duplicateSide file block = .before ↔ file.offset + file.size ≤ block.offset := by
  unfold TrunkMem.duplicateSide
  split_ifs <;> simp only [true_iff, false_iff] <;> omega

theorem duplicateSide_after (hblock : 0 < block.size) :
    TrunkMem.duplicateSide file block = .after ↔ block.offset + block.size ≤ file.offset := by
  unfold TrunkMem.duplicateSide
  split_ifs <;> simp only [true_iff, false_iff] <;> omega

theorem duplicateSide_here (hfile : 0 < file.size) (hblock : 0 < block.size) :
    TrunkMem.duplicateSide file block = .here ↔
      file.offset < block.offset + block.size ∧ block.offset < file.offset + file.size := by
  unfold TrunkMem.duplicateSide
  split_ifs <;> simp only [true_iff, false_iff] <;> omega

theorem offsetSide_before :
    TrunkMem.offsetSide file block = .before ↔ file.offset < block.offset := by
  unfold TrunkMem.offsetSide
  split_ifs <;> simp only [true_iff, false_iff] <;> omega

theorem offsetSide_after :
    TrunkMem.offsetSide file block = .after ↔ block.offset < file.offset := by
  unfold TrunkMem.offsetSide
  split_ifs <;> simp only [true_iff, false_iff] <;> omega

theorem offsetSide_here : TrunkMem.offsetSide file block = .here ↔ block.offset = file.offset := by
  unfold TrunkMem.offsetSide
  split_ifs <;> simp only [true_iff, false_iff] <;> omega

end

/-! ## The array of a file -/

def Sequential (nodes : NodeId → TrunkFullInfo) (blocks : List NodeId) : Prop :=
  blocks.Pairwise fun a b => (nodes a).file.offset + (nodes a).file.size ≤ (nodes b).file.offset

namespace TrunkMem

section

variable {m : TrunkMem} {blocks : List NodeId}

theorem blockAt_append (l : List NodeId) (n : NodeId) (r : List NodeId) :
    m.blockAt (l ++ n :: r) l.length = .ok (m.nodes n).file := by
  unfold blockAt
  rw [if_pos (Int.natCast_nonneg _), Int.toNat_natCast, getElem?_append_right le_rfl,
    Nat.sub_self, getElem?_cons_zero]

theorem blockAt_of_lt {i : ℕ} (hi : i < blocks.length) :
    m.blockAt blocks i = .ok (m.nodes blocks[i]).file := by
  unfold blockAt
  rw [if_pos (Int.natCast_nonneg _), Int.toNat_natCast, getElem?_eq_getElem hi]

theorem search_blocks {side : TrunkFileInfo → Side} (hseq : Sequential m.nodes blocks)
    (hlen : blocks.length ≤ 2 ^ 30)
    (hside : ∀ a ∈ blocks, ∀ b ∈ blocks,
      (m.nodes a).file.offset + (m.nodes a).file.size ≤ (m.nodes b).file.offset →
        (side (m.nodes a).file = .before → side (m.nodes b).file = .before) ∧
          (side (m.nodes b).file = .after → side (m.nodes a).file = .after)) :
    (∃ l n r, blocks = l ++ n :: r ∧ side (m.nodes n).file = .here ∧
        search (fun mid => side <$> m.blockAt blocks mid) blocks.length = .ok (true, ↑l.length)) ∨
      ∃ l r, ∃ mid : ℤ, blocks = l ++ r ∧ (∀ n ∈ l, side (m.nodes n).file = .after) ∧
        (∀ n ∈ r, side (m.nodes n).file = .before) ∧
        (mid = l.length ∧ r ≠ [] ∨ mid + 1 = l.length ∨ blocks = []) ∧
        search (fun mid => side <$> m.blockAt blocks mid) blocks.length = .ok (false, mid) := by
  set f : ℕ → Side := fun i =>
    if hi : i < blocks.length then side (m.nodes blocks[i]).file else .before
  have hfi : ∀ i (hi : i < blocks.length), f i = side (m.nodes blocks[i]).file := fun i hi =>
    dif_pos hi
  have horder : ∀ i j, i ≤ j → j < blocks.length →
      (f i = .before → f j = .before) ∧ (f j = .after → f i = .after) := by
    intro i j hij hj
    rcases hij.lt_or_eq with hlt | rfl
    · rw [hfi i (hlt.trans hj), hfi j hj]
      exact hside _ (getElem_mem _) _ (getElem_mem _)
        (pairwise_iff_getElem.1 hseq i j (hlt.trans hj) hj hlt)
    · exact ⟨id, id⟩
  have hread : ∀ i < blocks.length, side <$> m.blockAt blocks i = .ok (f i) := by
    intro i hi
    rw [blockAt_of_lt hi, hfi i hi]
    rfl
  rcases @search_spec _ (fun mid => side <$> m.blockAt blocks mid) f _ hread hlen
    (fun i j hij hj => (horder i j hij hj).1) (fun i j hij hj => (horder i j hij hj).2) with
    ⟨i, hi, hhere, hsearch⟩ | ⟨cut, mid, hcut, hsearch⟩
  · refine .inl ⟨blocks.take i, blocks[i], blocks.drop (i + 1), ?_, hfi i hi ▸ hhere, ?_⟩
    · rw [getElem_cons_drop, take_append_drop]
    · rw [hsearch, length_take_of_le hi.le]
  · refine .inr ⟨blocks.take cut, blocks.drop cut, mid, (take_append_drop _ _).symm, ?_, ?_,
      ?_, hsearch⟩
    · intro n hn
      obtain ⟨i, hi, rfl⟩ := getElem_of_mem hn
      rw [length_take] at hi
      rw [getElem_take, ← hfi i (by omega)]
      exact hcut.after i (by omega)
    · intro n hn
      obtain ⟨i, hi, rfl⟩ := getElem_of_mem hn
      rw [length_drop] at hi
      rw [getElem_drop, ← hfi (cut + i) (by omega)]
      exact hcut.before _ (by omega) (by omega)
    · rw [length_take_of_le hcut.le]
      rcases hcut.near with ⟨hmid, hlt⟩ | hmid | hzero
      · refine .inl ⟨hmid, fun hnil => ?_⟩
        have := drop_eq_nil_iff.1 hnil
        omega
      · exact .inr (.inl hmid)
      · exact .inr (.inr (length_eq_zero_iff.1 hzero))

theorem blockAt_first (hseq : Sequential m.nodes blocks) (hne : blocks ≠ []) :
    ∃ a ∈ blocks, m.blockAt blocks 0 = .ok (m.nodes a).file ∧ ∀ b ∈ blocks, b = a ∨
      (m.nodes a).file.offset + (m.nodes a).file.size ≤ (m.nodes b).file.offset := by
  obtain ⟨a, t, rfl⟩ := exists_cons_of_ne_nil hne
  refine ⟨a, mem_cons_self, blockAt_append [] a t, fun b hb => ?_⟩
  exact (mem_cons.1 hb).imp_right ((pairwise_cons.1 hseq).1 b)

theorem blockAt_last (hseq : Sequential m.nodes blocks) (hne : blocks ≠ []) :
    ∃ z ∈ blocks, m.blockAt blocks (blocks.length - 1) = .ok (m.nodes z).file ∧
      ∀ b ∈ blocks, b = z ∨
        (m.nodes b).file.offset + (m.nodes b).file.size ≤ (m.nodes z).file.offset := by
  obtain ⟨l, z, rfl⟩ := eq_nil_or_concat' blocks |>.resolve_left hne
  refine ⟨z, mem_append_right _ (mem_singleton_self z), ?_, fun b hb => ?_⟩
  · rw [length_append, length_singleton, Nat.cast_add, Nat.cast_one, add_sub_cancel_right]
    exact blockAt_append l z []
  · rcases mem_append.1 hb with hb | hb
    · exact .inr ((pairwise_append.1 hseq).2.2 b hb z (mem_singleton_self z))
    · exact .inl (mem_singleton.1 hb)

theorem insertIdx_append (l r : List NodeId) (n : NodeId) :
    (l ++ r).insertIdx l.length n = l ++ n :: r := by
  induction l with
  | nil => rfl
  | cons a l ih => rw [cons_append, length_cons, insertIdx_succ_cons, ih]; rfl

def AllocSize (alloc : ℕ) : Prop := ∃ k ≤ 30, alloc = 2 ^ k

theorem growAlloc_cases {len alloc : ℕ} (hlen : len ≤ alloc) (halloc : alloc = 0 ∨ AllocSize alloc) :
    growAlloc len alloc = .error .memory ∨
      ∃ alloc', growAlloc len alloc = .ok alloc' ∧ AllocSize alloc' ∧ len + 1 ≤ alloc' := by
  unfold growAlloc
  by_cases hfull : len ≥ alloc
  · rw [if_pos hfull]
    rcases halloc with rfl | ⟨k, hk, rfl⟩
    · exact .inr ⟨32, rfl, ⟨5, by omega, rfl⟩, by omega⟩
    · have hpow : 0 < 2 ^ k := Nat.two_pow_pos k
      unfold freeBlockRealloc
      rw [if_neg hpow.ne', ← Nat.pow_succ']
      by_cases hlt : 2 ^ (k + 1) < 2 ^ 31
      · have hk' := (Nat.pow_lt_pow_iff_right (by omega : 1 < 2)).1 hlt
        rw [if_pos hlt]
        exact .inr ⟨_, rfl, ⟨k + 1, by omega, rfl⟩, by rw [Nat.pow_succ]; omega⟩
      · exact .inl (if_neg hlt)
  · rw [if_neg hfull]
    exact .inr ⟨alloc, rfl, halloc.resolve_left (by omega), by omega⟩

theorem shrinkAlloc_eq {len alloc : ℕ} (hlen : len ≤ alloc) (halloc : AllocSize alloc) :
    ∃ alloc', shrinkAlloc len alloc = .ok alloc' ∧ AllocSize alloc' ∧ len ≤ alloc' := by
  unfold shrinkAlloc freeBlockRealloc
  by_cases hsmall : len < alloc / 2 ∧ len > 16
  · obtain ⟨k, hk, rfl⟩ := halloc
    cases k with
    | zero => omega
    | succ k =>
      have hhalf : 2 ^ (k + 1) / 2 = 2 ^ k := by
        omega
      have hlt : 2 ^ k < 2 ^ 31 := Nat.pow_lt_pow_right (by omega) (by omega)
      rw [hhalf] at hsmall
      rw [hhalf, if_pos hsmall, if_pos hlt]
      exact ⟨_, rfl, ⟨k, by omega, rfl⟩, hsmall.1.le⟩
  · rw [if_neg hsmall]
    exact ⟨alloc, rfl, halloc, hlen⟩

theorem nodup_offsets (hseq : Sequential m.nodes blocks)
    (hpos : ∀ n ∈ blocks, 0 < (m.nodes n).file.size) :
    (blocks.map fun n => (m.nodes n).file.offset).Nodup := by
  refine pairwise_map.2 (hseq.imp_of_mem fun {c d} hc _ hle => ?_)
  have := hpos c hc
  omega

theorem sequential_insert {l r : List NodeId} {n : NodeId} (hseq : Sequential m.nodes (l ++ r))
    (hl : ∀ b ∈ l, (m.nodes b).file.offset + (m.nodes b).file.size ≤ (m.nodes n).file.offset)
    (hr : ∀ b ∈ r, (m.nodes n).file.offset + (m.nodes n).file.size ≤ (m.nodes b).file.offset) :
    Sequential m.nodes (l ++ n :: r) := by
  obtain ⟨hseql, hseqr, hlr⟩ := pairwise_append.1 hseq
  refine pairwise_append.2 ⟨hseql, pairwise_cons.2 ⟨hr, hseqr⟩, fun a ha b hb => ?_⟩
  rcases mem_cons.1 hb with rfl | hb
  · exact hl a ha
  · exact hlr a ha b hb

theorem doInsert_spec {array : TrunksById} {n : NodeId} (hseq : Sequential m.nodes array.blocks)
    (hpos : ∀ b ∈ array.blocks, 0 < (m.nodes b).file.size) (hn : 0 < (m.nodes n).file.size)
    (hlen : array.blocks.length ≤ array.alloc) (halloc : array.alloc = 0 ∨ AllocSize array.alloc)
    (hapart : ∀ b ∈ array.blocks,
      (m.nodes n).file.offset + (m.nodes n).file.size ≤ (m.nodes b).file.offset ∨
        (m.nodes b).file.offset + (m.nodes b).file.size ≤ (m.nodes n).file.offset) :
    m.freeBlockDoInsert n array = .error .memory ∨
      ∃ alloc l r, array.blocks = l ++ r ∧ Sequential m.nodes (l ++ n :: r) ∧ AllocSize alloc ∧
        (l ++ n :: r).length ≤ alloc ∧
        m.freeBlockDoInsert n array = .ok ({ array with alloc, blocks := l ++ n :: r }, 0) := by
  unfold freeBlockDoInsert
  rcases growAlloc_cases hlen halloc with hgrow | ⟨alloc, hgrow, hsize, hroom⟩
  · rw [hgrow]
    exact .inl rfl
  rw [hgrow]
  dsimp only [bind, Except.bind, pure, Except.pure]
  right
  -- it is enough to say where the block goes
  have hdone : ∀ {x : Except TrunkFault (TrunksById × ℤ)} l r, array.blocks = l ++ r →
      (∀ b ∈ l, (m.nodes b).file.offset < (m.nodes n).file.offset) →
      (∀ b ∈ r, (m.nodes n).file.offset < (m.nodes b).file.offset) →
      x = .ok ({ array with alloc, blocks := l ++ n :: r }, 0) →
      ∃ alloc l r, array.blocks = l ++ r ∧ Sequential m.nodes (l ++ n :: r) ∧ AllocSize alloc ∧
        (l ++ n :: r).length ≤ alloc ∧ x = .ok ({ array with alloc, blocks := l ++ n :: r }, 0) := by
    intro x l r hblocks hl hr hx
    refine ⟨alloc, l, r, hblocks,
      sequential_insert (hblocks ▸ hseq) (fun b hb => ?_) (fun b hb => ?_), hsize, ?_, hx⟩
    · have := hl b hb
      have := hapart b (hblocks ▸ mem_append_left _ hb)
      omega
    · have hb' : b ∈ array.blocks := hblocks ▸ mem_append_right _ hb
      have := hr b hb
      have := hapart b hb'
      have := hpos b hb'
      omega
    · rw [hblocks] at hroom
      simpa [length_append, Nat.add_assoc] using hroom
  by_cases hnil : array.blocks = []
  · rw [if_pos (length_eq_zero_iff.2 hnil)]
    exact hdone [] [] hnil nofun nofun rfl
  obtain ⟨a, ha, hfirst, hafirst⟩ := blockAt_first hseq hnil
  obtain ⟨z, hz, hlast, hzlast⟩ := blockAt_last hseq hnil
  rw [if_neg (by rwa [length_eq_zero_iff]), hfirst, hlast]
  dsimp only
  by_cases hbelow : (m.nodes n).file.offset < (m.nodes a).file.offset
  · rw [if_pos hbelow]
    refine hdone [] array.blocks rfl nofun (fun b hb => ?_) rfl
    have := hpos a ha
    rcases hafirst b hb with rfl | hle <;> omega
  rw [if_neg hbelow]
  by_cases habove : (m.nodes n).file.offset > (m.nodes z).file.offset
  · rw [if_pos habove]
    refine hdone array.blocks [] (append_nil _).symm (fun b hb => ?_) nofun rfl
    have := hpos b hb
    rcases hzlast b hb with rfl | hle <;> omega
  rw [if_neg habove]
  have hsearch := @search_blocks m array.blocks (offsetSide (m.nodes n).file) hseq (by
    obtain ⟨k, hk, rfl⟩ := hsize
    have := Nat.pow_le_pow_right (by omega : 0 < 2) hk
    omega) fun b hb c hc hbc => by
      have hb' := hpos b hb
      rw [offsetSide_before, offsetSide_before, offsetSide_after, offsetSide_after]
      omega
  rcases hsearch with ⟨l, b, r, hblocks, hhere, -⟩ | ⟨l, r, mid, hblocks, hl, hr, hmid, heq⟩
  · have hb : b ∈ array.blocks := hblocks ▸ mem_append_right _ mem_cons_self
    have := offsetSide_here.1 hhere
    have := hpos b hb
    have := hapart b hb
    omega
  rw [heq]
  dsimp only
  rw [if_neg (by decide)]
  refine hdone l r hblocks (fun b hb => offsetSide_after.1 (hl b hb))
    (fun b hb => offsetSide_before.1 (hr b hb)) ?_
  -- the last middle is the block before the place, or the one behind it
  rcases hmid with ⟨rfl, hr'⟩ | hmid | hnil'
  · obtain ⟨b, t, rfl⟩ := exists_cons_of_ne_nil hr'
    have hlt := offsetSide_before.1 (hr b mem_cons_self)
    rw [hblocks, blockAt_append]
    dsimp only
    rw [if_pos hlt, Int.toNat_natCast, insertIdx_append]
  · obtain ⟨t, b, rfl⟩ : ∃ t b, l = t ++ [b] := by
      refine (eq_nil_or_concat' l).resolve_left fun hl' => ?_
      rw [hl', nil_append] at hblocks
      exact hbelow (offsetSide_before.1 (hr a (hblocks ▸ ha)))
    have hlt := offsetSide_after.1 (hl b (mem_append_right _ (mem_singleton_self b)))
    have hmid' : mid = t.length := by
      rw [length_append, length_singleton] at hmid
      omega
    rw [hblocks, hmid', append_assoc t, singleton_append, blockAt_append]
    dsimp only
    rw [if_neg (by omega)]
    have hpos' : (t.length + 1 : ℤ).toNat = (t ++ [b]).length := by
      omega
    have hidx := insertIdx_append (t ++ [b]) r n
    rw [append_assoc t, singleton_append] at hidx
    rw [hpos', hidx]
  · exact absurd hnil' hnil

end

/-! ## The index by file -/

section

variable {α κ : Type} {l l' : List α} {a : α} {key : α → κ}
  (hmem : ∀ e, e ∈ l' ↔ e = a ∨ e ∈ l ∧ key e ≠ key a)
include hmem

theorem forall_mem_set {P : α → Prop} (ha : P a) (h : ∀ e ∈ l, P e) : ∀ e ∈ l', P e := by
  intro e he
  rcases (hmem e).1 he with rfl | ⟨he, -⟩
  · exact ha
  · exact h e he

theorem mem_blocks_set {blocks : α → List NodeId} {nodeKey : NodeId → κ} {S S' : Set NodeId}
    (hkey : ∀ e ∈ l, ∀ n ∈ blocks e, nodeKey n = key e) (hold : ∀ n, n ∈ S ↔ ∃ e ∈ l, n ∈ blocks e)
    (hS : ∀ n, n ∈ S' ↔ n ∈ blocks a ∨ n ∈ S ∧ nodeKey n ≠ key a) (n : NodeId) :
    n ∈ S' ↔ ∃ e ∈ l', n ∈ blocks e := by
  rw [hS]
  constructor
  · rintro (hn | ⟨hn, hne⟩)
    · exact ⟨a, (hmem a).2 (.inl rfl), hn⟩
    · obtain ⟨e, he, hn'⟩ := (hold n).1 hn
      exact ⟨e, (hmem e).2 (.inr ⟨he, hkey e he n hn' ▸ hne⟩), hn'⟩
  · rintro ⟨e, he, hn⟩
    rcases (hmem e).1 he with rfl | ⟨he, hne⟩
    · exact .inl hn
    · exact .inr ⟨(hold n).2 ⟨e, he, hn⟩, (hkey e he n hn).symm ▸ hne⟩

end

structure FileIndex (nodes : NodeId → TrunkFullInfo) (tree : AvlTreeInfo TrunksById)
    (S : Set NodeId) : Prop where
  ordered : tree.Ordered compareEntry
  nonempty : ∀ array ∈ tree.toList, array.blocks ≠ []
  identifier : ∀ array ∈ tree.toList, ∀ n ∈ array.blocks, (nodes n).identifier = array.trunkFileId
  sequential : ∀ array ∈ tree.toList, Sequential nodes array.blocks
  length_le : ∀ array ∈ tree.toList, array.blocks.length ≤ array.alloc
  alloc_eq : ∀ array ∈ tree.toList, AllocSize array.alloc
  mem_iff : ∀ n, n ∈ S ↔ ∃ array ∈ tree.toList, n ∈ array.blocks
  size_pos : ∀ n ∈ S, 0 < (nodes n).file.size

section

variable {m : TrunkMem} {S : Set NodeId} {info : TrunkFullInfo} {array : TrunksById}

theorem fileIndex_empty (nodes : NodeId → TrunkFullInfo) :
    FileIndex nodes (.init true compareEntry) ∅ where
  ordered := AvlTreeInfo.ordered_init _ _
  nonempty := nofun
  identifier := nofun
  sequential := nofun
  length_le := nofun
  alloc_eq := nofun
  mem_iff _ := ⟨nofun, fun ⟨_, h, _⟩ => nomatch h⟩
  size_pos := nofun

theorem FileIndex.congr {nodes nodes' : NodeId → TrunkFullInfo} {tree : AvlTreeInfo TrunksById}
    (h : FileIndex nodes tree S) (hnodes : ∀ n ∈ S, (nodes' n).path = (nodes n).path ∧
      (nodes' n).file = (nodes n).file) : FileIndex nodes' tree S where
  ordered := h.ordered
  nonempty := h.nonempty
  identifier array harray n hn := by
    obtain ⟨hpath, hfile⟩ := hnodes n ((h.mem_iff n).2 ⟨array, harray, hn⟩)
    unfold TrunkFullInfo.identifier
    rw [hpath, hfile]
    exact h.identifier array harray n hn
  sequential array harray := by
    refine (h.sequential array harray).imp_of_mem fun {a b} ha hb hab => ?_
    rw [(hnodes a ((h.mem_iff a).2 ⟨array, harray, ha⟩)).2,
      (hnodes b ((h.mem_iff b).2 ⟨array, harray, hb⟩)).2]
    exact hab
  length_le := h.length_le
  alloc_eq := h.alloc_eq
  mem_iff := h.mem_iff
  size_pos n hn := by
    rw [(hnodes n hn).2]
    exact h.size_pos n hn

variable (h : FileIndex m.nodes m.treeInfoById S)

include h

theorem FileIndex.length_le_pow (harray : array ∈ m.treeInfoById.toList) :
    array.blocks.length ≤ 2 ^ 30 := by
  obtain ⟨k, hk, halloc⟩ := h.alloc_eq array harray
  have := h.length_le array harray
  have := Nat.pow_le_pow_right (by omega : 0 < 2) hk
  omega

variable {n : NodeId}

theorem FileIndex.mem_blocks_iff (harray : array ∈ m.treeInfoById.toList) :
    n ∈ array.blocks ↔ n ∈ S ∧ (m.nodes n).identifier = array.trunkFileId := by
  constructor
  · exact fun hn => ⟨(h.mem_iff n).2 ⟨array, harray, hn⟩, h.identifier array harray n hn⟩
  · rintro ⟨hn, hid⟩
    obtain ⟨array', harray', hn'⟩ := (h.mem_iff n).1 hn
    have hzero := compareEntry_eq_zero.2 ((h.identifier array' harray' n hn').symm.trans hid)
    rwa [← h.ordered.eq_of_zero totalCompare_compareEntry harray' harray hzero]

theorem FileIndex.block_pos (harray : array ∈ m.treeInfoById.toList) :
    ∀ b ∈ array.blocks, 0 < (m.nodes b).file.size := fun b hb =>
  h.size_pos b ((h.mem_blocks_iff harray).1 hb).1

theorem FileIndex.find_cases (id : TrunkFileIdentifier) :
    (m.treeInfoById.find ⟨id, 0, []⟩ = none ∧ (∀ n ∈ S, (m.nodes n).identifier ≠ id) ∧
        ∀ array ∈ m.treeInfoById.toList, array.trunkFileId ≠ id) ∨
      ∃ array ∈ m.treeInfoById.toList, array.trunkFileId = id ∧
        m.treeInfoById.find ⟨id, 0, []⟩ = some array := by
  cases hfind : m.treeInfoById.find ⟨id, 0, []⟩ with
  | none =>
    have hnone := (h.ordered.find_eq_none totalCompare_compareEntry _).1 hfind
    have hid : ∀ array ∈ m.treeInfoById.toList, array.trunkFileId ≠ id := fun array harray heq =>
      hnone array harray (compareEntry_eq_zero.2 heq)
    refine .inl ⟨rfl, fun n hn heq => ?_, hid⟩
    obtain ⟨array, harray, hmem⟩ := (h.mem_iff n).1 hn
    exact hid array harray ((h.identifier array harray n hmem).symm.trans heq)
  | some array =>
    obtain ⟨harray, hzero⟩ := (h.ordered.find_iff totalCompare_compareEntry _ _).1 hfind
    exact .inr ⟨array, harray, compareEntry_eq_zero.1 hzero, rfl⟩

theorem FileIndex.checkDuplicate (hsize : 0 < info.file.size) :
    m.freeBlockCheckDuplicate info = .ok 0 ∧ (∀ n ∈ S, ¬ Overlaps info (m.nodes n)) ∨
      m.freeBlockCheckDuplicate info = .ok eexist ∧ ∃ n ∈ S, Overlaps info (m.nodes n) := by
  unfold freeBlockCheckDuplicate
  rcases h.find_cases info.identifier with ⟨hfind, hno, -⟩ | ⟨array, harray, hid, hfind⟩
  · rw [hfind]
    exact .inl ⟨rfl, fun n hn hoverlaps => hno n hn hoverlaps.1.symm⟩
  have hne := h.nonempty array harray
  have hseq := h.sequential array harray
  have hpos := h.block_pos harray
  have hapart : (∀ b ∈ array.blocks, info.file.offset + info.file.size ≤ (m.nodes b).file.offset ∨
        (m.nodes b).file.offset + (m.nodes b).file.size ≤ info.file.offset) →
      ∀ n ∈ S, ¬ Overlaps info (m.nodes n) := by
    rintro hall n hn ⟨hident, hlo, hhi⟩
    have := hall n ((h.mem_blocks_iff harray).2 ⟨hn, hident.symm.trans hid.symm⟩)
    omega
  obtain ⟨a, ha, hfirst, hafirst⟩ := blockAt_first hseq hne
  obtain ⟨z, hz, hlast, hzlast⟩ := blockAt_last hseq hne
  rw [hfind]
  dsimp only
  rw [if_neg (by rwa [length_eq_zero_iff]), hfirst, hlast]
  dsimp only [bind, Except.bind, pure, Except.pure]
  by_cases hbelow : info.file.offset + info.file.size ≤ (m.nodes a).file.offset
  · rw [if_pos hbelow]
    refine .inl ⟨rfl, hapart fun b hb => .inl ?_⟩
    have := hpos a ha
    rcases hafirst b hb with rfl | hle <;> omega
  rw [if_neg hbelow]
  by_cases habove : info.file.offset ≥ (m.nodes z).file.offset + (m.nodes z).file.size
  · rw [if_pos habove]
    refine .inl ⟨rfl, hapart fun b hb => .inr ?_⟩
    have := hpos z hz
    rcases hzlast b hb with rfl | hle <;> omega
  rw [if_neg habove]
  have hsearch := @search_blocks m array.blocks (duplicateSide info.file) hseq
    (h.length_le_pow harray) fun b hb c hc hbc => by
      have hb' := hpos b hb
      have hc' := hpos c hc
      rw [duplicateSide_before hsize, duplicateSide_before hsize, duplicateSide_after hb',
        duplicateSide_after hc']
      omega
  rcases hsearch with ⟨l, n, r, hblocks, hhere, heq⟩ | ⟨l, r, mid, hblocks, hl, hr, -, heq⟩
  · have hn : n ∈ array.blocks := hblocks ▸ mem_append_right _ mem_cons_self
    obtain ⟨hnS, hident⟩ := (h.mem_blocks_iff harray).1 hn
    obtain ⟨hlo, hhi⟩ := (duplicateSide_here hsize (hpos n hn)).1 hhere
    rw [heq]
    exact .inr ⟨rfl, n, hnS, (hident.trans hid).symm, hlo, hhi⟩
  · rw [heq]
    refine .inl ⟨rfl, hapart fun b hb => ?_⟩
    rcases mem_append.1 (hblocks ▸ hb) with hb' | hb'
    · exact .inr ((duplicateSide_after (hpos b hb)).1 (hl b hb'))
    · exact .inl ((duplicateSide_before hsize).1 (hr b hb'))

theorem FileIndex.set {tree : AvlTreeInfo TrunksById} {S' : Set NodeId} (array : TrunksById)
    (hordered : tree.Ordered compareEntry)
    (hmem : ∀ e, e ∈ tree.toList ↔
      e = array ∨ e ∈ m.treeInfoById.toList ∧ e.trunkFileId ≠ array.trunkFileId)
    (hne : array.blocks ≠ [])
    (hident : ∀ n ∈ array.blocks, (m.nodes n).identifier = array.trunkFileId)
    (hseq : Sequential m.nodes array.blocks) (hlen : array.blocks.length ≤ array.alloc)
    (halloc : AllocSize array.alloc)
    (hS : ∀ n, n ∈ S' ↔ n ∈ array.blocks ∨ n ∈ S ∧ (m.nodes n).identifier ≠ array.trunkFileId)
    (hpos : ∀ n ∈ S', 0 < (m.nodes n).file.size) : FileIndex m.nodes tree S' where
  ordered := hordered
  nonempty := forall_mem_set hmem hne h.nonempty
  identifier := forall_mem_set hmem hident h.identifier
  sequential := forall_mem_set hmem hseq h.sequential
  length_le := forall_mem_set hmem hlen h.length_le
  alloc_eq := forall_mem_set hmem halloc h.alloc_eq
  mem_iff := mem_blocks_set hmem h.identifier h.mem_iff hS
  size_pos := hpos

theorem FileIndex.modify (harray : array ∈ m.treeInfoById.toList) {array' : TrunksById}
    (hid : array'.trunkFileId = array.trunkFileId) :
    (m.treeInfoById.modify array fun _ => array').Ordered compareEntry ∧
      ∀ e, e ∈ (m.treeInfoById.modify array fun _ => array').toList ↔
        e = array' ∨ e ∈ m.treeInfoById.toList ∧ e.trunkFileId ≠ array'.trunkFileId := by
  obtain ⟨hordered, hmem⟩ := h.ordered.modify totalCompare_compareEntry array (fun _ => array')
    fun d _ hzero => compareEntry_eq_zero.2 (hid.trans (compareEntry_eq_zero.1 hzero).symm)
  refine ⟨hordered, fun e => ?_⟩
  rw [hmem e, hid]
  refine or_congr ⟨?_, fun heq => ?_⟩ (and_congr_right fun _ => not_congr compareEntry_eq_zero)
  · rintro ⟨d, -, -, heq⟩
    exact heq
  · exact ⟨array, harray, totalCompare_compareEntry.refl _, heq⟩

theorem FileIndex.insert (hsize : 0 < (m.nodes n).file.size)
    (hapart : ∀ k ∈ S, ¬ Overlaps (m.nodes n) (m.nodes k)) :
    m.freeBlockInsert n = .error .memory ∨ ∃ tree, FileIndex m.nodes tree (insert n S) ∧
      m.freeBlockInsert n = .ok ({ m with treeInfoById := tree }, 0) := by
  have hpos : ∀ k ∈ Insert.insert n S, 0 < (m.nodes k).file.size := by
    rintro k (rfl | hk)
    · exact hsize
    · exact h.size_pos k hk
  unfold freeBlockInsert
  dsimp only
  rcases h.find_cases (m.nodes n).identifier with ⟨hfind, hno, hnone⟩ | ⟨array, harray, hid, hfind⟩
  · set target : TrunksById := ⟨(m.nodes n).identifier, 0, []⟩
    have hnew : ∀ e ∈ m.treeInfoById.toList, compareEntry e target ≠ 0 := fun e he hzero =>
      hnone e he (compareEntry_eq_zero.1 hzero)
    obtain ⟨hordered, hone, hmem⟩ := h.ordered.insert totalCompare_compareEntry hnew
    rw [hfind]
    rw [if_neg (by rw [hone]; decide)]
    rcases @doInsert_spec m target n .nil nofun hsize le_rfl (.inl rfl) nofun with
      hmemory | ⟨alloc, l, r, hblocks, hseq, halloc, hlen, heq⟩
    · rw [hmemory]
      exact .inl rfl
    obtain ⟨rfl, rfl⟩ := append_eq_nil_iff.1 hblocks.symm
    rw [heq]
    refine .inr ⟨_, ?_, rfl⟩
    obtain ⟨hordered', hmem'⟩ := hordered.modify totalCompare_compareEntry target
      (fun _ => ⟨(m.nodes n).identifier, alloc, [n]⟩)
      fun d _ hzero => compareEntry_eq_zero.2 (compareEntry_eq_zero.1 hzero).symm
    refine h.set ⟨(m.nodes n).identifier, alloc, [n]⟩ hordered' (fun e => ?_) (cons_ne_nil _ _)
      ?_ hseq hlen halloc (fun k => ?_) hpos
    · refine (hmem' e).trans ⟨?_, ?_⟩
      · rintro (⟨d, -, -, rfl⟩ | ⟨he, hzero⟩)
        · exact .inl rfl
        · rcases (hmem e).1 he with rfl | he
          · exact absurd (totalCompare_compareEntry.refl _) hzero
          · exact .inr ⟨he, hnone e he⟩
      · rintro (rfl | ⟨he, hid⟩)
        · exact .inl ⟨target, (hmem _).2 (.inl rfl), totalCompare_compareEntry.refl _, rfl⟩
        · exact .inr ⟨(hmem e).2 (.inr he), hnew e he⟩
    · intro k hk
      rw [mem_singleton.1 hk]
    · rw [mem_singleton]
      exact or_congr_right ⟨fun hk => ⟨hk, hno k hk⟩, And.left⟩
  · have hblock : ∀ b ∈ array.blocks, b ∈ S ∧ (m.nodes b).identifier = (m.nodes n).identifier :=
      fun b hb => hid ▸ (h.mem_blocks_iff harray).1 hb
    rw [hfind]
    dsimp only
    rcases @doInsert_spec m array n (h.sequential array harray)
      (fun b hb => h.size_pos b (hblock b hb).1) hsize (h.length_le array harray)
      (.inr (h.alloc_eq array harray)) (fun b hb => by
        by_contra hnot
        exact hapart b (hblock b hb).1 ⟨(hblock b hb).2.symm, by omega, by omega⟩) with
      hmemory | ⟨alloc, l, r, hblocks, hseq, halloc, hlen, heq⟩
    · rw [hmemory]
      exact .inl rfl
    rw [heq]
    refine .inr ⟨_, ?_, rfl⟩
    obtain ⟨hordered, hmem⟩ := @h.modify m S array harray
        { array with alloc, blocks := l ++ n :: r } rfl
    have hmem' : ∀ k, k ∈ l ++ n :: r ↔ k = n ∨ k ∈ array.blocks := by
      intro k
      rw [hblocks, mem_append, mem_cons, mem_append]
      tauto
    refine h.set { array with alloc, blocks := l ++ n :: r } hordered hmem (by simp) ?_ hseq hlen
      halloc (fun k => ?_) hpos
    · intro k hk
      rcases (hmem' k).1 hk with rfl | hk
      · exact hid.symm
      · exact h.identifier array harray k hk
    · rw [Set.mem_insert_iff, hmem' k, h.mem_blocks_iff harray]
      tauto

theorem FileIndex.search (harray : array ∈ m.treeInfoById.toList)
    (hn : n ∈ array.blocks) : ∃ l r, array.blocks = l ++ n :: r ∧
      BinarySearch.search (fun mid => offsetSide (m.nodes n).file <$> m.blockAt array.blocks mid)
        array.blocks.length = .ok (true, ↑l.length) := by
  have hpos := h.block_pos harray
  have hseq := h.sequential array harray
  rcases @search_blocks m array.blocks (offsetSide (m.nodes n).file) hseq (h.length_le_pow harray)
    fun b hb c hc hbc => by
      have := hpos b hb
      rw [offsetSide_before, offsetSide_before, offsetSide_after, offsetSide_after]
      omega with
    ⟨l, b, r, hblocks, hhere, heq⟩ | ⟨l, r, -, hblocks, hl, hr, -⟩
  · have hb : b ∈ array.blocks := hblocks ▸ mem_append_right _ mem_cons_self
    obtain rfl := inj_on_of_nodup_map (nodup_offsets hseq hpos) hb hn (offsetSide_here.1 hhere)
    exact ⟨l, r, hblocks, heq⟩
  · rw [hblocks, mem_append] at hn
    rcases hn with hn | hn
    · exact absurd (offsetSide_after.1 (hl n hn)) (lt_irrefl _)
    · exact absurd (offsetSide_before.1 (hr n hn)) (lt_irrefl _)

theorem FileIndex.delete (hn : n ∈ S) : ∃ tree, FileIndex m.nodes tree (S \ {n}) ∧
      m.freeBlockDelete (m.nodes n) = .ok ({ m with treeInfoById := tree }, 0) := by
  unfold freeBlockDelete
  rcases h.find_cases (m.nodes n).identifier with ⟨-, hno, -⟩ | ⟨array, harray, hid, hfind⟩
  · exact absurd rfl (hno n hn)
  have hblock := (h.mem_blocks_iff harray).2 ⟨hn, hid.symm⟩
  obtain ⟨l, r, hblocks, hsearch⟩ := h.search harray hblock
  have herase : array.blocks.eraseIdx l.length = l ++ r := by
    rw [hblocks, eraseIdx_append_of_length_le le_rfl, Nat.sub_self, eraseIdx_cons_zero]
  have hseq := h.sequential array harray
  have hlen := h.length_le array harray
  rw [hfind]
  dsimp only
  rw [hsearch]
  dsimp only [bind, Except.bind, pure, Except.pure]
  rw [if_neg (by decide), Int.toNat_natCast, herase]
  have hnodup : (l ++ n :: r).Nodup :=
    hblocks ▸ (nodup_offsets hseq (h.block_pos harray)).of_map
  have hrest : ∀ k, k ∈ l ++ r ↔ k ∈ array.blocks ∧ k ≠ n := by
    intro k
    have hnot := (nodup_middle.1 hnodup).notMem
    rw [hblocks, mem_append, mem_append, mem_cons]
    rw [mem_append] at hnot
    constructor
    · intro hk
      refine ⟨by tauto, ?_⟩
      rintro rfl
      exact hnot hk
    · tauto
  by_cases hlast : (l ++ r).length = 0
  · obtain ⟨hordered, hone, hmem⟩ := h.ordered.delete totalCompare_compareEntry array
    rw [if_pos hlast, if_neg (by
      rw [hone ⟨array, harray, totalCompare_compareEntry.refl _⟩]
      decide)]
    refine ⟨_, ?_, rfl⟩
    have hnil := eq_nil_of_length_eq_zero hlast
    have hother : ∀ k ∈ S, k ≠ n → (m.nodes k).identifier ≠ array.trunkFileId := by
      intro k hk hkn hident
      have := (hrest k).2 ⟨(h.mem_blocks_iff harray).2 ⟨hk, hident⟩, hkn⟩
      rw [hnil] at this
      cases this
    exact {
      ordered := hordered
      nonempty := fun e he => h.nonempty e ((hmem e).1 he).1
      identifier := fun e he => h.identifier e ((hmem e).1 he).1
      sequential := fun e he => h.sequential e ((hmem e).1 he).1
      length_le := fun e he => h.length_le e ((hmem e).1 he).1
      alloc_eq := fun e he => h.alloc_eq e ((hmem e).1 he).1
      mem_iff := fun k => by
        constructor
        · rintro ⟨hk, hkn⟩
          obtain ⟨e, he, hke⟩ := (h.mem_iff k).1 hk
          refine ⟨e, (hmem e).2 ⟨he, fun hzero => hother k hk hkn ?_⟩, hke⟩
          rw [h.identifier e he k hke, compareEntry_eq_zero.1 hzero]
        · rintro ⟨e, he, hke⟩
          obtain ⟨he, hne⟩ := (hmem e).1 he
          refine ⟨(h.mem_iff k).2 ⟨e, he, hke⟩, ?_⟩
          rintro rfl
          exact hne (compareEntry_eq_zero.2 ((h.identifier e he _ hke).symm.trans hid.symm))
      size_pos := fun k hk => h.size_pos k hk.1 }
  · rw [if_neg hlast]
    have hlen' : (l ++ r).length ≤ array.alloc := by
      rw [hblocks, length_append, length_cons] at hlen
      rw [length_append]
      omega
    obtain ⟨alloc, hshrink, halloc, hle⟩ := shrinkAlloc_eq hlen' (h.alloc_eq array harray)
    rw [hshrink]
    refine ⟨_, ?_, rfl⟩
    obtain ⟨hordered, hmem⟩ := @h.modify m S array harray { array with alloc, blocks := l ++ r } rfl
    refine h.set { array with alloc, blocks := l ++ r } hordered hmem (fun hnil => hlast ?_)
      (fun k hk => h.identifier array harray k ((hrest k).1 hk).1) ?_ hle halloc (fun k => ?_)
      fun k hk => h.size_pos k hk.1
    · rw [show l ++ r = [] from hnil]
      rfl
    · exact hseq.sublist (hblocks ▸ (sublist_cons_self n r).append_left l)
    · rw [hrest k, h.mem_blocks_iff harray, Set.mem_sdiff, hid]
      by_cases hkn : k = n
      · tauto
      · tauto

theorem FileIndex.eq_of_overlaps {a b : NodeId} (ha : a ∈ S) (hb : b ∈ S)
    (hoverlaps : Overlaps (m.nodes a) (m.nodes b)) : a = b := by
  obtain ⟨array, harray, hmem⟩ := (h.mem_iff a).1 ha
  have hid := h.identifier array harray a hmem
  have hmem' := (h.mem_blocks_iff harray).2 ⟨hb, hoverlaps.1.symm.trans hid⟩
  by_contra hne
  have hapart : array.blocks.Pairwise fun a b => ¬ Overlaps (m.nodes a) (m.nodes b) :=
    (h.sequential array harray).imp fun {c d} hle ho => absurd ho.2.2 (not_lt.2 hle)
  have : Std.Symm fun a b => ¬ Overlaps (m.nodes a) (m.nodes b) :=
    ⟨fun _ _ hnot ho => hnot ho.symm⟩
  exact hapart.forall hmem hmem' hne hoverlaps

end

/-! ## Runs of the index by file -/

inductive IndexOp where
  -- if the check accepts the block
  | insert (n : NodeId)
  | delete (n : NodeId)

def nodesById (m : TrunkMem) : List NodeId := m.treeInfoById.toList.flatMap (·.blocks)

/-- A call; an insertion that returns `ENOMEM` leaves the array of its file as it is. -/
def IndexOp.step (m : TrunkMem) : IndexOp → Except TrunkFault TrunkMem
  | .insert n => do
    if (← m.freeBlockCheckDuplicate (m.nodes n)) ≠ 0 then return m
    match m.freeBlockInsert n with
    | .error .memory => return m
    | inserted => return (← inserted).1
  | .delete n => do return (← m.freeBlockDelete (m.nodes n)).1

def IndexOp.Valid (m : TrunkMem) : IndexOp → Prop
  | .insert n => 0 < (m.nodes n).file.size ∧ (m.nodes n).file.offset + (m.nodes n).file.size < 2 ^ 31
  | .delete n => n ∈ m.nodesById

instance (m : TrunkMem) : ∀ op, Decidable (IndexOp.Valid m op)
  | .insert _ => inferInstanceAs (Decidable (_ ∧ _))
  | .delete n => inferInstanceAs (Decidable (n ∈ m.nodesById))

/-- The blocks of each file are sorted and disjoint, and the check finds exactly the overlaps. -/
def ChecksExactly (m : TrunkMem) : Prop :=
  (∀ array ∈ m.treeInfoById.toList, Sequential m.nodes array.blocks ∧
    ∀ n ∈ array.blocks, (m.nodes n).identifier = array.trunkFileId) ∧
  ∀ info, 0 < info.file.size → m.freeBlockCheckDuplicate info =
    .ok (if ∃ n ∈ m.nodesById, Overlaps info (m.nodes n) then eexist else 0)

section

variable {m : TrunkMem} {S : Set NodeId} (h : FileIndex m.nodes m.treeInfoById S)

include h

theorem FileIndex.mem_nodesById (n : NodeId) : n ∈ m.nodesById ↔ n ∈ S := by
  rw [nodesById, mem_flatMap, h.mem_iff]

theorem FileIndex.step {op : IndexOp} (hop : op.Valid m) :
    Meets (op.step m) (fun m' => ∃ S', FileIndex m'.nodes m'.treeInfoById S') fun _ => False := by
  cases op with
  | insert n =>
    rw [IndexOp.step]
    rcases h.checkDuplicate hop.1 with ⟨heq, hapart⟩ | ⟨heq, -⟩
    · rcases h.insert hop.1 hapart with hmemory | ⟨tree, htree, hinsert⟩
      · rw [heq, hmemory]
        exact ⟨S, h⟩
      · rw [heq, hinsert]
        exact ⟨_, htree⟩
    · rw [heq]
      exact ⟨S, h⟩
  | delete n =>
    obtain ⟨tree, htree, heq⟩ := h.delete ((h.mem_nodesById n).1 hop)
    rw [IndexOp.step, heq]
    exact ⟨_, htree⟩

theorem FileIndex.checksExactly : m.ChecksExactly := by
  refine ⟨fun array harray => ⟨h.sequential array harray, h.identifier array harray⟩,
    fun info hsize => ?_⟩
  rcases h.checkDuplicate hsize with ⟨heq, hapart⟩ | ⟨heq, n, hn, ho⟩
  · rw [heq, if_neg fun ⟨n, hn, ho⟩ => hapart n ((h.mem_nodesById n).1 hn) ho]
  · rw [heq, if_pos ⟨n, (h.mem_nodesById n).2 hn, ho⟩]

end

end TrunkMem

end ServerStack.Fastdfs
