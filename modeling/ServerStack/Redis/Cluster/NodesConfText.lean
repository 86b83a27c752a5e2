import ServerStack.Redis.Cluster.NodesConf

/-!
# The text of `nodes.conf`

What `clusterGenNodeDescription` writes.  Each line is a line of plain words that fits into the buffer
of the reader, and the ranges of a line cover the slots of the node, with one exception.  The loop
over the slots closes an open range at the last slot even if the last slot does not belong to the
node.
-/

namespace ServerStack.Redis.Cluster.NodesConf

open Util Decimal Sds List Option

variable (flags : NodeFlags)

/-! ## Ranges of slots -/

def InRanges (ranges : List (ℕ × ℕ)) (slot : ℕ) : Prop :=
  ∃ range ∈ ranges, range.1 ≤ slot ∧ slot ≤ range.2

variable {range : ℕ × ℕ} {j : ℕ}

theorem inRanges_cons {ranges : List (ℕ × ℕ)} {slot : ℕ} : InRanges (range :: ranges) slot ↔
      (range.1 ≤ slot ∧ slot ≤ range.2) ∨ InRanges ranges slot := by
  rw [InRanges, exists_mem_cons_iff, ← InRanges]

section

variable {bit : ℕ → Bool} {n j : ℕ} {start : Option ℕ}

theorem slotRanges_bit (hbit : bit j = true) (hj : j ≠ clusterSlots - 1) :
    slotRanges bit (n + 1) j start = slotRanges bit n (j + 1) (some (start.getD j)) := by
  rw [slotRanges, if_pos hbit]
  simp only
  rw [if_neg (by simp [hbit, hj])]

theorem slotRanges_gap (hbit : bit j = false) :
    slotRanges bit (n + 1) j none = slotRanges bit n (j + 1) none := by
  rw [slotRanges, if_neg (by simp [hbit])]

theorem slotRanges_close {a : ℕ} (hbit : bit j = false) (hj : j ≠ clusterSlots - 1) :
    slotRanges bit (n + 1) j (some a) = (a, j - 1) :: slotRanges bit n (j + 1) none := by
  rw [slotRanges, if_neg (by simp [hbit])]
  simp only
  rw [if_pos (.inl hbit), if_neg hj]

theorem slotRanges_last {a : ℕ} (hj : j = clusterSlots - 1)
    (hopen : (if bit j then some (start.getD j) else start) = some a) :
    slotRanges bit 1 j start = [(a, j)] := by
  rw [slotRanges, hopen]
  simp only
  rw [if_pos (.inr hj), if_pos hj, slotRanges, Nat.add_sub_cancel]

end

/-- A range is open if and only if the slot before belongs to the node.  The loop writes the open
range and the slots from `j` on, and the last slot also if the one before it is there. -/
theorem inRanges_slotRanges (bit : ℕ → Bool) {n j : ℕ} {start : Option ℕ}
    (hn : j + (n + 1) = clusterSlots) (hstart : ∀ a, start = some a → a < j ∧ bit (j - 1) = true)
    (hclosed : 0 < j → start = none → bit (j - 1) = false) (slot : ℕ) :
    InRanges (slotRanges bit (n + 1) j start) slot ↔ (∃ a, start = some a ∧ a ≤ slot ∧ slot < j) ∨
      (j ≤ slot ∧ slot < clusterSlots ∧
        (bit slot = true ∨ slot = clusterSlots - 1 ∧ bit (clusterSlots - 2) = true)) := by
  have hslots : clusterSlots = 16384 := rfl
  have hempty : ¬ InRanges [] slot := by simp [InRanges]
  induction n generalizing j start with
  | zero =>
    have hj : j = clusterSlots - 1 := by omega
    have hprev : clusterSlots - 2 = j - 1 := by omega
    have hslot : (j ≤ slot ∧ slot < clusterSlots) ↔ slot = j := by omega
    rw [← and_assoc, hslot, ← hj, hprev]
    -- the slots of the range that is closed here
    have hlast : ∀ a, start.getD j = a → (bit j = true ∨ bit (j - 1) = true) → a ≤ j →
        (InRanges [(a, j)] slot ↔ (∃ a, start = some a ∧ a ≤ slot ∧ slot < j) ∨
          slot = j ∧ (bit slot = true ∨ slot = j ∧ bit (j - 1) = true)) := by
      rintro a rfl hb ha
      rw [inRanges_cons, or_iff_left hempty]
      rcases eq_or_ne slot j with rfl | hne
      · exact iff_of_true ⟨ha, le_rfl⟩ (.inr ⟨rfl, hb.imp_right (⟨rfl, ·⟩)⟩)
      · cases start with
        | none | some b => simp [hne]; omega
    cases start with
    | some a =>
      have ha := hstart a rfl
      rw [@slotRanges_last bit j (some a) a hj (by simp)]
      exact hlast a rfl (.inr ha.2) ha.1.le
    | none =>
      cases hbit : bit j with
      | true =>
        rw [@slotRanges_last bit j none j hj (by simp [hbit])]
        exact hlast j rfl (.inl hbit) le_rfl
      | false =>
        have hb := hclosed (by omega) rfl
        rw [slotRanges_gap hbit]
        refine iff_of_false hempty ?_
        rintro (⟨a, ha, -⟩ | ⟨rfl, hb' | ⟨-, hb'⟩⟩)
        · cases ha
        · simp [hbit] at hb'
        · simp [hb] at hb'
  | succ n ih =>
    have hj : j ≠ clusterSlots - 1 := by omega
    cases hbit : bit j with
    | true =>
      have hfrom : start.getD j ≤ j := by
        cases start with
        | none => exact le_rfl
        | some a => exact (hstart a rfl).1.le
      rw [slotRanges_bit hbit hj]
      refine (@ih (j + 1) (some (start.getD j)) (by omega)
        (fun a ha => ⟨by rw [← some.inj ha]; omega, hbit⟩) (fun _ h => by cases h)).trans ?_
      rcases eq_or_ne slot j with rfl | hslot
      · exact iff_of_true (.inl ⟨_, rfl, hfrom, by omega⟩) (.inr ⟨le_rfl, by omega, .inl hbit⟩)
      · have hrest : j + 1 ≤ slot ↔ j ≤ slot := by omega
        rw [hrest]
        apply or_congr_left
        cases start <;> simp <;> omega
    | false =>
      have hskip : (j + 1 ≤ slot ∧ slot < clusterSlots ∧
          (bit slot = true ∨ slot = clusterSlots - 1 ∧ bit (clusterSlots - 2) = true)) ↔
          (j ≤ slot ∧ slot < clusterSlots ∧
          (bit slot = true ∨ slot = clusterSlots - 1 ∧ bit (clusterSlots - 2) = true)) := by
        rcases eq_or_ne slot j with rfl | hslot
        · simp [hbit, hj]
        · have hrest : j + 1 ≤ slot ↔ j ≤ slot := by omega
          rw [hrest]
      have hnext : InRanges (slotRanges bit (n + 1) (j + 1) none) slot ↔ _ :=
        (@ih (j + 1) none (by omega) (fun a ha => by cases ha) (fun _ _ => hbit)).trans
          (or_iff_right (fun ⟨a, ha, _⟩ => by cases ha))
      cases start with
      | none => rw [slotRanges_gap hbit, hnext, hskip]; simp
      | some a =>
        have hlt := (hstart a rfl).1
        have hrange : (a ≤ slot ∧ slot ≤ j - 1) ↔ a ≤ slot ∧ slot < j := by omega
        rw [slotRanges_close hbit hj, inRanges_cons, hnext, hskip, hrange]
        simp

theorem mem_slotRanges {bit : ℕ → Bool} {n : ℕ} {start : Option ℕ} (hn : j + n ≤ clusterSlots)
    (hstart : ∀ a, start = some a → a < j) (h : range ∈ slotRanges bit n j start) :
    range.1 ≤ range.2 ∧ range.2 < clusterSlots := by
  induction n generalizing j start with
  | zero => cases h
  | succ n ih =>
    rw [slotRanges] at h
    cases hopen : (if bit j then some (start.getD j) else start) with
    | none =>
      rw [hopen] at h
      exact @ih (j + 1) none (by omega) (fun a ha => by cases ha) h
    | some a =>
      rw [hopen] at h
      have ha : a ≤ j ∧ (bit j = false → a < j) := by
        cases start with
        | none =>
          split_ifs at hopen with hbit
          exact ⟨(some.inj hopen).symm.le, fun hb => by rw [hb] at hbit; cases hbit⟩
        | some b =>
          obtain rfl : b = a := by split_ifs at hopen <;> exact some.inj hopen
          exact ⟨(hstart b rfl).le, fun _ => hstart b rfl⟩
      split_ifs at h with hlast hj
      · rcases mem_cons.1 h with rfl | h
        · exact ⟨by simpa using ha.1, by simp; omega⟩
        · obtain rfl : n = 0 := by omega
          cases h
      · rcases mem_cons.1 h with rfl | h
        · have hbit := hlast.resolve_right hj
          have := ha.2 hbit
          exact ⟨by simp only; omega, by simp only; omega⟩
        · exact @ih (j + 1) none (by omega) (fun a ha => by cases ha) h
      · exact @ih (j + 1) (some a) (by omega) (fun b hb => by rw [← some.inj hb]; omega) h

theorem length_slotRanges (bit : ℕ → Bool) (n j : ℕ) (start : Option ℕ) :
    (slotRanges bit n j start).length ≤ n := by
  induction n generalizing j start with
  | zero => exact le_rfl
  | succ n ih =>
    rw [slotRanges]
    split
    · exact (ih _ _).trans n.le_succ
    · split_ifs
      · exact Nat.succ_le_succ (ih _ _)
      · exact Nat.succ_le_succ (ih _ _)
      · exact (ih _ _).trans n.le_succ

/-! ## Words -/

theorem plain_of_isHexDigit {b : UInt8} (h : isHexDigit b = true) : Plain b := by
  revert b
  decide +kernel

theorem plain_of_isDigit {b : UInt8} (h : IsDigit b) : Plain b := by
  revert b
  decide +kernel

def Word (w : Bytes) : Prop := w ≠ [] ∧ ∀ b ∈ w, Plain b

theorem word_name (name : Name) : Word name.1 :=
  ⟨fun h => by simpa [h] using name.2.1, fun b hb => plain_of_isHexDigit (name.2.2 b hb)⟩

theorem word_decimal (n : ℕ) : Word (decimal n) :=
  ⟨decimal_ne_nil n, fun _ hb => plain_of_isDigit (isDigit_of_mem_decimal hb)⟩

theorem word_decimalInt (v : ℤ) : Word (decimalInt v) := by
  rw [decimalInt]
  split_ifs
  · exact ⟨by simp, forall_mem_cons.2 ⟨by decide, (word_decimal _).2⟩⟩
  · exact word_decimal _

def flagsWord : Bytes := (flagsText flags).dropLast

theorem flagsText_eq : flagsText flags = flagsWord flags ++ [44] ∧ flagsWord flags ≠ [] ∧
      (flagsWord flags).length < 64 := by
  rcases flags with ⟨myself, master, slave, pfail, fail, handshake, noaddr⟩
  revert myself master slave pfail fail handshake noaddr
  decide +kernel

theorem word_flagsWord : Word (flagsWord flags) := by
  have hflag : ∀ (p : Prop) [Decidable p] (text : Bytes), (∀ b ∈ text, Plain b) →
      ∀ b ∈ if p then text else [], Plain b := by
    intro p _ text htext
    split_ifs
    · exact htext
    · simp
  have htext : ∀ b ∈ flagsText flags, Plain b := by
    simp only [flagsText, forall_mem_append]
    refine ⟨⟨⟨⟨⟨⟨⟨?_, ?_⟩, ?_⟩, ?_⟩, ?_⟩, ?_⟩, ?_⟩, ?_⟩ <;>
      exact hflag _ _ (by decide +kernel)
  exact ⟨(flagsText_eq flags).2.1, fun b hb => htext b ((dropLast_sublist _).subset hb)⟩

def rangeWord (range : ℕ × ℕ) : Bytes := (rangeText range).tail

theorem rangeText_eq (range : ℕ × ℕ) : rangeText range = 32 :: rangeWord range := by
  rw [rangeWord, rangeText]
  split_ifs <;> rfl

theorem word_rangeWord (range : ℕ × ℕ) : Word (rangeWord range) := by
  rw [rangeWord, rangeText]
  split_ifs
  · exact word_decimal _
  · refine ⟨by simp, forall_mem_append.2 ⟨(word_decimal _).2, ?_⟩⟩
    exact forall_mem_cons.2 ⟨by decide, (word_decimal _).2⟩

variable (c : Config)

def importingWritten (j : ℕ) : Option Name :=
  if (c.migratingSlotsTo j).isSome then none else c.importingSlotsFrom j

def moveWord (direction : UInt8) (j : ℕ) (name : Name) : Bytes :=
  91 :: (decimal j ++ (45 :: direction :: 45 :: (name.1 ++ [93])))

def moveWords (j : ℕ) : List Bytes :=
  ((c.migratingSlotsTo j).map (moveWord 62 j)).toList ++
    ((importingWritten c j).map (moveWord 60 j)).toList

theorem moveText_eq (j : ℕ) : moveText c j = (moveWords c j).flatMap (32 :: ·) := by
  rw [moveText, moveWords, importingWritten]
  cases hm : c.migratingSlotsTo j with
  | some name => simp [moveWord]
  | none => cases hi : c.importingSlotsFrom j <;> simp [moveWord]

theorem word_moveWords {c : Config} {w : Bytes} (h : w ∈ moveWords c j) : Word w := by
  have hword : ∀ direction name, Plain direction → Word (moveWord direction j name) := by
    intro direction name hdirection
    refine ⟨by simp [moveWord], ?_⟩
    simp only [moveWord, forall_mem_cons, forall_mem_append]
    exact ⟨by decide, (word_decimal j).2, by decide, hdirection, by decide, (word_name name).2,
      by decide, by simp⟩
  rw [moveWords, mem_append, mem_toList, mem_toList] at h
  rcases h with h | h
  · obtain ⟨name, -, rfl⟩ := map_eq_some_iff.1 h
    exact hword 62 name (by decide)
  · obtain ⟨name, -, rfl⟩ := map_eq_some_iff.1 h
    exact hword 60 name (by decide)

variable (node : ConfNode)

def linkWord : Bytes :=
  if node.link ∨ node.flags.myself then ascii "connected" else ascii "disconnected"

def slaveofWord : Bytes :=
  match node.slaveof with
  | some master => master.1
  | none => [45]

def nodeRanges : List (ℕ × ℕ) :=
  slotRanges (clusterNodeGetSlotBit c node) clusterSlots 0 none

def slotWords : List Bytes :=
  (nodeRanges c node).map rangeWord ++
    if node.flags.myself then (List.range clusterSlots).flatMap (moveWords c) else []

def nodeWords : List Bytes :=
  (node.ip ++ 58 :: decimal node.port) :: flagsWord node.flags :: slaveofWord node ::
    decimalInt node.pingSent :: decimalInt node.pongReceived :: decimal node.configEpoch ::
    linkWord node :: slotWords c node

theorem flatMap_slotWords :
    (slotWords c node).flatMap (32 :: ·) = (nodeRanges c node).flatMap rangeText ++
      if node.flags.myself then (List.range clusterSlots).flatMap (moveText c) else [] := by
  have hranges : ((nodeRanges c node).map rangeWord).flatMap (32 :: ·) =
      (nodeRanges c node).flatMap rangeText := by
    rw [flatMap_map]
    exact congrArg (fun f => (nodeRanges c node).flatMap f) (funext fun r => (rangeText_eq r).symm)
  rw [slotWords, flatMap_append, hranges]
  split_ifs
  · rw [flatMap_assoc]
    congr 2
    exact funext fun j => (moveText_eq c j).symm
  · rfl

theorem clusterGenNodeDescription_eq :
    clusterGenNodeDescription c node ++ [10] = wordsLine node.name.1 (nodeWords c node) := by
  have hlast : (node.name.1 ++ [32] ++ node.ip ++ [58] ++ decimal node.port ++ [32] ++
      (flagsWord node.flags ++ [44])).getLast? = some 44 := by
    rw [← append_assoc, getLast?_append]
    rfl
  have hblank : ascii "- " = [45, 32] := rfl
  rw [clusterGenNodeDescription, (flagsText_eq node.flags).1]
  simp only [hlast, if_true]
  rw [wordsLine, nodeWords, ← append_assoc _ (flagsWord node.flags), dropLast_concat,
    slaveofWord, ← linkWord, ← nodeRanges]
  simp only [flatMap_cons, flatMap_slotWords]
  cases node.slaveof with
  | some master => split_ifs <;> simp only [append_assoc, cons_append, nil_append, append_nil]
  | none => split_ifs <;> simp only [hblank, append_assoc, cons_append, nil_append, append_nil]

theorem word_nodeWords : ∀ w ∈ node.name.1 :: nodeWords c node, Word w := by
  have haddress : Word (node.ip ++ 58 :: decimal node.port) :=
    ⟨by simp, forall_mem_append.2 ⟨node.ip_plain,
      forall_mem_cons.2 ⟨by decide, (word_decimal _).2⟩⟩⟩
  have hslaveof : Word (slaveofWord node) := by
    rw [slaveofWord]
    cases node.slaveof with
    | some master => exact word_name master
    | none => exact ⟨by decide +kernel, by decide +kernel⟩
  have hlink : Word (linkWord node) := by
    rw [linkWord]
    split_ifs
    · exact ⟨by decide +kernel, by decide +kernel⟩
    · exact ⟨by decide +kernel, by decide +kernel⟩
  have hslots : ∀ w ∈ slotWords c node, Word w := by
    intro w hw
    rcases mem_append.1 hw with hw | hw
    · obtain ⟨range, -, rfl⟩ := mem_map.1 hw
      exact word_rangeWord range
    · split_ifs at hw
      · obtain ⟨j, -, hw⟩ := mem_flatMap.1 hw
        exact word_moveWords hw
      · cases hw
  simp only [nodeWords, forall_mem_cons]
  exact ⟨word_name _, haddress, word_flagsWord _, hslaveof, word_decimalInt _,
    word_decimalInt _, word_decimal _, hlink, hslots⟩

/-! ## The length of a line -/

theorem length_flatMap_le {α : Type} {f : α → Bytes} {l : List α} {k : ℕ}
    (h : ∀ a ∈ l, (f a).length ≤ k) : (l.flatMap f).length ≤ l.length * k := by
  induction l with
  | nil => simp
  | cons a l ih =>
    obtain ⟨ha, hl⟩ := forall_mem_cons.1 h
    rw [flatMap_cons, length_append, length_cons, Nat.succ_mul]
    have := ih hl
    omega

theorem length_decimal_slot (h : j < clusterSlots) : (decimal j).length ≤ 5 :=
  length_decimal_le (k := 4) (h.trans (by decide))

theorem length_rangeText (h : range.1 ≤ range.2 ∧ range.2 < clusterSlots) :
    (rangeText range).length ≤ 12 := by
  have h1 := length_decimal_slot (h.1.trans_lt h.2)
  have h2 := length_decimal_slot h.2
  rw [rangeText]
  split_ifs
  · rw [length_cons]
    omega
  · rw [length_cons, length_append, length_cons]
    omega

theorem length_moveText (h : j < clusterSlots) : (moveText c j).length ≤ 51 := by
  have hj := length_decimal_slot h
  rw [moveText]
  split
  · rename_i name _
    simp only [length_cons, length_append, length_nil, name.2.1]
    omega
  · split
    · rename_i name _
      simp only [length_cons, length_append, length_nil, name.2.1]
      omega
    · simp

theorem length_decimalInt {v : ℤ} (h : IsLongLong v) : (decimalInt v).length ≤ 21 := by
  obtain ⟨hlow, hhigh⟩ := h
  have hlength : (decimal v.natAbs).length ≤ 20 := length_decimal_le (k := 19) (by omega)
  rw [decimalInt]
  split_ifs
  · rw [length_cons]
    omega
  · omega

theorem length_slotWords : ((slotWords c node).flatMap (32 :: ·)).length ≤ clusterSlots * 63 := by
  have hranges : ((nodeRanges c node).flatMap rangeText).length ≤ clusterSlots * 12 :=
    (length_flatMap_le fun range hrange => length_rangeText
      (mem_slotRanges (by omega) (fun a ha => by cases ha) hrange)).trans
      (Nat.mul_le_mul_right _ (length_slotRanges _ _ _ _))
  have hmoves : ((List.range clusterSlots).flatMap (moveText c)).length ≤ clusterSlots * 51 := by
    refine (length_flatMap_le fun j hj => length_moveText c (mem_range.1 hj)).trans ?_
    rw [length_range]
  rw [flatMap_slotWords, length_append]
  split_ifs
  · omega
  · rw [length_nil]
    omega

theorem length_clusterGenNodeDescription :
    (clusterGenNodeDescription c node).length + 1 < maxline := by
  have hline : (clusterGenNodeDescription c node).length + 1 =
      (wordsLine node.name.1 (nodeWords c node)).length := by
    rw [← clusterGenNodeDescription_eq, length_append, length_singleton]
  have hport : (decimal node.port).length ≤ 10 := by
    refine length_decimal_le (k := 9) (node.port_lt.trans ?_)
    norm_num
  have hepoch : (decimal node.configEpoch).length ≤ 20 := by
    refine length_decimal_le (k := 19) (node.configEpoch_lt.trans ?_)
    norm_num
  have hslaveof : (slaveofWord node).length ≤ 40 := by
    rw [slaveofWord]
    cases node.slaveof with
    | some master => exact master.2.1.le
    | none => simp
  have hlink : (linkWord node).length ≤ 12 := by
    rw [linkWord]
    split_ifs <;> decide
  have hflags := (flagsText_eq node.flags).2.2
  have hping := length_decimalInt node.pingSent_bound
  have hpong := length_decimalInt node.pongReceived_bound
  have hip := node.ip_length
  have hslots := length_slotWords c node
  have hname := node.name.2.1
  rw [hline, wordsLine, nodeWords, maxline]
  simp only [flatMap_cons, length_append, length_cons, length_nil]
  omega

end ServerStack.Redis.Cluster.NodesConf
