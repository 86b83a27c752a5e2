import ServerStack.Redis.Cluster.NodesConfText

/-!
# Reading `nodes.conf` back

What `clusterLoadConfig` makes of the text that `clusterGenNodesDescription` has written.  The tables
of the slots come back, with two exceptions.  The last slot goes to the first node in the file whose
ranges reach it, which need not be its owner, and of a slot that is both migrating and importing only
the migration is written.
-/

namespace ServerStack.Redis.Cluster.NodesConf

open Util Decimal Sds List

/-! ## The fields before the slots -/

theorem lookupOrCreate_eq (st : Loaded) {s : Bytes} (h : 40 ≤ s.length) :
    ∃ nodes, lookupOrCreate st s = .ok ({ st with nodes := nodes }, s.take 40) := by
  rw [lookupOrCreate]
  simp only [if_neg (Nat.not_lt.2 h)]
  split_ifs
  · exact ⟨st.nodes, rfl⟩
  · exact ⟨_, rfl⟩

theorem lookupOrCreate_name (st : Loaded) (name : Name) (rest : Bytes) :
    ∃ nodes, lookupOrCreate st (name.1 ++ rest) = .ok ({ st with nodes := nodes }, name.1) := by
  obtain ⟨nodes, h⟩ := lookupOrCreate_eq st (s := name.1 ++ rest)
    (by rw [length_append]; omega)
  exact ⟨nodes, by rw [h, take_left' name.2.1]⟩

theorem strchr_append {s rest : Bytes} {c : UInt8} (h : ∀ b ∈ s, b ≠ c) :
    strchr (s ++ c :: rest) c = some (s, rest) := by
  have htrue : ∀ b ∈ s, decide (b ≠ c) = true := fun b hb => decide_eq_true (h b hb)
  rw [strchr, if_pos (by simp), takeWhile_append_of_pos htrue,
    dropWhile_append_of_pos htrue, takeWhile_cons_of_neg (by simp),
    dropWhile_cons_of_neg (by simp), append_nil, tail_cons]

theorem loadAddress_eq (st : Loaded) (name : Bytes) {ip port : Bytes} (h : ip.length < 46) :
    ∃ nodes, loadAddress st name (ip ++ 58 :: port) = .ok { st with nodes := nodes } := by
  -- The address itself may have a colon, as those of IPv6 do.
  have hlength : ((ip ++ 58 :: port).takeWhile (· ≠ 58)).length ≤ ip.length := by
    rw [takeWhile_append]
    split_ifs with hall
    · rw [takeWhile_cons_of_neg (by simp), append_nil]
    · exact (takeWhile_sublist _).length_le
  rw [loadAddress, strchr, if_pos (by simp)]
  simp only
  rw [if_pos (by omega)]
  exact ⟨_, rfl⟩

/-- The flags that are written other than `myself`. -/
def otherFlags (flags : NodeFlags) : List Bytes :=
  ((flagsWord flags).splitOn 44).filter (· ≠ ascii "myself")

theorem splitOn_flagsWord (flags : NodeFlags) : (flagsWord flags).splitOn 44 =
      (if flags.myself then [ascii "myself"] else []) ++ otherFlags flags ∧
    ∀ s ∈ otherFlags flags, s.map toLower ≠ ascii "myself" ∧
      (flagTable.lookup (s.map toLower)).isSome = true := by
  rcases flags with ⟨myself, master, slave, pfail, fail, handshake, noaddr⟩
  revert myself master slave pfail fail handshake noaddr
  decide +kernel

theorem foldlM_loadFlag {name : Bytes} {l : List Bytes}
    (h : ∀ s ∈ l, s.map toLower ≠ ascii "myself" ∧
      (flagTable.lookup (s.map toLower)).isSome = true) (st : Loaded) :
    ∃ nodes, l.foldlM (loadFlag name) st = .ok { st with nodes := nodes } := by
  induction l generalizing st with
  | nil => exact ⟨st.nodes, rfl⟩
  | cons s l ih =>
    obtain ⟨⟨hs, hsome⟩, hl⟩ := forall_mem_cons.1 h
    obtain ⟨f, hf⟩ := Option.isSome_iff_exists.1 hsome
    have hflag : loadFlag name st s =
        .ok (modifyNode st name fun n => { n with flags := f n.flags }) := by
      rw [loadFlag]
      simp only [if_neg hs, hf]
    obtain ⟨nodes, hnodes⟩ := ih hl (modifyNode st name fun n => { n with flags := f n.flags })
    refine ⟨nodes, ?_⟩
    rw [foldlM_cons, hflag]
    exact hnodes

theorem loadFlags_eq {st : Loaded} {flags : NodeFlags} (name : Bytes)
    (h : flags.myself = true → st.myself = none) :
    ∃ nodes, loadFlags st name (flagsWord flags) = .ok
      { st with nodes := nodes, myself := if flags.myself then some name else st.myself } := by
  obtain ⟨hsplit, hothers⟩ := splitOn_flagsWord flags
  rw [loadFlags, hsplit]
  cases hmyself : flags.myself with
  | true =>
    have hlower : (ascii "myself").map toLower = ascii "myself" := by decide +kernel
    have hflag : loadFlag name st (ascii "myself") =
        .ok { modifyNode st name (fun n => { n with flags := { n.flags with myself := true } }) with
          myself := some name } := by
      rw [loadFlag, h hmyself]
      simp only [hlower, if_true, Option.isSome_none, Bool.false_eq_true, if_false]
    rw [if_pos rfl, singleton_append, foldlM_cons, hflag]
    exact foldlM_loadFlag hothers _
  | false =>
    rw [if_neg Bool.false_ne_true, nil_append]
    exact foldlM_loadFlag hothers st

theorem loadSlaveof_eq (st : Loaded) (name : Bytes) (node : ConfNode) :
    ∃ nodes, loadSlaveof st name (slaveofWord node) = .ok { st with nodes := nodes } := by
  rw [slaveofWord]
  cases node.slaveof with
  | none => exact ⟨st.nodes, rfl⟩
  | some master =>
    have hhead : master.1.head? ≠ some 45 := fun hhead =>
      absurd (master.2.2 45 (mem_of_head? hhead)) (by decide)
    obtain ⟨nodes, hlookup⟩ := lookupOrCreate_name st master []
    rw [append_nil] at hlookup
    simp only [loadSlaveof, if_neg hhead, hlookup]
    exact ⟨_, rfl⟩

/-! ## The slots -/

/-- A table of slots after the slots of the list have been added for a node. -/
def addedSlots (slots : ℕ → Option Bytes) (name : Bytes) (added : ℕ → Prop) [DecidablePred added] :
    ℕ → Option Bytes :=
  fun k => (slots k).or (if added k then some name else none)

theorem addedSlots_addedSlots (slots : ℕ → Option Bytes) (name : Bytes) (p q r : ℕ → Prop)
    [DecidablePred p] [DecidablePred q] [DecidablePred r] (h : ∀ k, r k ↔ p k ∨ q k) :
    addedSlots (addedSlots slots name p) name q = addedSlots slots name r := by
  funext k
  simp only [addedSlots, h k]
  cases slots k with
  | some owner => rfl
  | none => by_cases hp : p k <;> simp [hp]

theorem addedSlots_eq_self {slots : ℕ → Option Bytes} {name : Bytes} {p : ℕ → Prop}
    [DecidablePred p] (h : ∀ k, p k → (slots k).isSome = true) : addedSlots slots name p = slots := by
  funext k
  by_cases hp : p k
  · obtain ⟨owner, howner⟩ := Option.isSome_iff_exists.1 (h k hp)
    simp [addedSlots, howner]
  · simp [addedSlots, hp]

variable {j : ℕ} {node : ConfNode}

section

variable (name : Bytes)

theorem clusterAddSlot_eq (st : Loaded) (h : j < clusterSlots) :
    clusterAddSlot name st j = .ok { st with slots := addedSlots st.slots name (· = j) } := by
  rw [clusterAddSlot, if_neg (by omega)]
  simp only [Int.toNat_natCast]
  split_ifs with hsome
  · rw [addedSlots_eq_self fun k hk => by rw [hk]; exact hsome]
  · congr 2
    funext k
    rcases eq_or_ne k j with rfl | hk
    · simp [addedSlots, Option.not_isSome_iff_eq_none.1 hsome]
    · simp [addedSlots, hk]

theorem foldlM_clusterAddSlot {l : List ℕ} (h : ∀ j ∈ l, j < clusterSlots) (st : Loaded) :
    (l.map fun j : ℕ => (j : ℤ)).foldlM (clusterAddSlot name) st =
      .ok { st with slots := addedSlots st.slots name (· ∈ l) } := by
  induction l generalizing st with
  | nil =>
    rw [addedSlots_eq_self fun k hk => by cases hk]
    rfl
  | cons j l ih =>
    obtain ⟨hj, hl⟩ := forall_mem_cons.1 h
    rw [map_cons, foldlM_cons, clusterAddSlot_eq name st hj]
    refine (ih hl _).trans ?_
    rw [addedSlots_addedSlots _ _ _ _ (· ∈ j :: l) fun k => mem_cons]

theorem addSlots_eq (st : Loaded) {a b : ℕ} (hb : b < clusterSlots) : addSlots name st a b =
      .ok { st with slots := addedSlots st.slots name fun k => a ≤ k ∧ k ≤ b } := by
  have hlist : ((List.range ((b : ℤ) + 1 - a).toNat).map fun i : ℕ => (a : ℤ) + (i : ℤ)) =
      (List.range' a (b + 1 - a)).map fun j : ℕ => (j : ℤ) := by
    rw [List.range'_eq_map_range, map_map, show ((b : ℤ) + 1 - a).toNat = b + 1 - a by omega]
    exact map_congr_left fun i _ => by simp
  rw [addSlots, hlist, foldlM_clusterAddSlot name (fun j hj => by
    rw [mem_range'_1] at hj
    omega)]
  congr 3
  funext k
  rw [mem_range'_1]
  exact propext (by omega)

theorem head_decimal_append {n : ℕ} {rest : Bytes} {b : UInt8}
    (h : (decimal n ++ rest).head? = some b) : IsDigit b := by
  obtain ⟨d, t, hdt⟩ := exists_cons_of_ne_nil (decimal_ne_nil n)
  rw [hdt] at h
  rw [← Option.some.inj h]
  exact isDigit_of_mem_decimal (show d ∈ decimal n by rw [hdt]; exact mem_cons_self)

theorem ne_minus_of_mem_decimal {n : ℕ} : ∀ b ∈ decimal n, b ≠ 45 := fun _ hb =>
  (IsDigit.cases (isDigit_of_mem_decimal hb)).2.1

theorem atoi_decimal_slot (h : j < clusterSlots) : atoi (decimal j) = j := by
  have hj := @atoi_decimal [] j (h.trans (by decide)) (fun b hb => by cases hb)
  rwa [append_nil] at hj

theorem loadSlot_rangeWord (st : Loaded) {range : ℕ × ℕ}
    (h : range.1 ≤ range.2 ∧ range.2 < clusterSlots) : loadSlot name st (rangeWord range) =
      .ok { st with slots := addedSlots st.slots name fun k => range.1 ≤ k ∧ k ≤ range.2 } := by
  have hfirst := atoi_decimal_slot (h.1.trans_lt h.2)
  have hlast := atoi_decimal_slot h.2
  rw [rangeWord, rangeText]
  split_ifs with heq
  · have hhead : (decimal range.1).head? ≠ some 91 := fun hhead =>
      absurd (@head_decimal_append _ [] _ (by rwa [append_nil])) (by decide)
    have hnone : strchr (decimal range.1) 45 = none :=
      if_neg fun hmem => ne_minus_of_mem_decimal 45 hmem rfl
    rw [tail_cons, loadSlot, if_neg hhead, hnone]
    rw [hfirst, addSlots_eq name st (h.1.trans_lt h.2), heq]
  · have hhead : (decimal range.1 ++ 45 :: decimal range.2).head? ≠ some 91 := fun hhead =>
      absurd (head_decimal_append hhead) (by decide)
    rw [tail_cons, loadSlot, if_neg hhead, strchr_append ne_minus_of_mem_decimal]
    simp only
    rw [hfirst, hlast, addSlots_eq name st h.2]

instance (ranges : List (ℕ × ℕ)) : DecidablePred (InRanges ranges) := fun _ =>
  inferInstanceAs (Decidable (∃ range ∈ ranges, _))

theorem foldlM_rangeWord {ranges : List (ℕ × ℕ)}
    (h : ∀ range ∈ ranges, range.1 ≤ range.2 ∧ range.2 < clusterSlots) (st : Loaded) :
    (ranges.map rangeWord).foldlM (loadSlot name) st =
      .ok { st with slots := addedSlots st.slots name (InRanges ranges) } := by
  induction ranges generalizing st with
  | nil =>
    rw [addedSlots_eq_self fun k ⟨_, hrange, _⟩ => by cases hrange]
    rfl
  | cons range ranges ih =>
    obtain ⟨hrange, hranges⟩ := forall_mem_cons.1 h
    rw [map_cons, foldlM_cons, loadSlot_rangeWord name st hrange]
    refine (ih hranges _).trans ?_
    rw [addedSlots_addedSlots _ _ _ _ (InRanges (range :: ranges)) fun k => inRanges_cons]

/-! ## Slots that move -/

end

section

variable (old : ℕ → Option Bytes)

variable (written : ℕ → Option Name)

/-- A table of moving slots after the slots of the list have been read. -/
def movedSlots (l : List ℕ) : ℕ → Option Bytes :=
  fun k => if k ∈ l then ((written k).map Subtype.val).or (old k) else old k

@[simp] theorem movedSlots_nil : movedSlots old written [] = old := by
  funext k
  simp [movedSlots]

theorem movedSlots_cons (j : ℕ) (l : List ℕ) :
    movedSlots (movedSlots old written [j]) written l = movedSlots old written (j :: l) := by
  funext k
  simp only [movedSlots, mem_cons]
  by_cases hl : k ∈ l <;> by_cases hk : k = j <;> cases written k <;> simp [hl, hk]

end

theorem movedSlots_of_eq_none {old : ℕ → Option Bytes} {written : ℕ → Option Name}
    (h : written j = none) : movedSlots old written [j] = old := by
  funext k
  rcases eq_or_ne k j with rfl | hk
  · simp [movedSlots, h]
  · simp [movedSlots, hk]

theorem movedSlots_of_eq_some {old : ℕ → Option Bytes} {written : ℕ → Option Name} {name : Name}
    (h : written j = some name) :
    movedSlots old written [j] = Function.update old j (some name.1) := by
  funext k
  rcases eq_or_ne k j with rfl | hk
  · simp [movedSlots, h]
  · simp [movedSlots, hk]

theorem loadSlot_moveWord (name : Bytes) (st : Loaded) (hj : j < clusterSlots) (direction : UInt8)
    (target : Name) :
    ∃ nodes, loadSlot name st (moveWord direction j target) = .ok (if direction = 62 then
        { st with
          nodes := nodes
          migratingSlotsTo := Function.update st.migratingSlotsTo j (some target.1) }
      else
        { st with
          nodes := nodes
          importingSlotsFrom := Function.update st.importingSlotsFrom j (some target.1) }) := by
  have hminus : ∀ b ∈ (91 : UInt8) :: decimal j, b ≠ 45 :=
    forall_mem_cons.2 ⟨by decide, ne_minus_of_mem_decimal⟩
  have hsplit : strchr (moveWord direction j target) 45 =
      some (91 :: decimal j, direction :: 45 :: (target.1 ++ [93])) := by
    exact strchr_append hminus
  obtain ⟨nodes, hlookup⟩ := lookupOrCreate_name st target [93]
  have hhead : (moveWord direction j target).head? = some 91 := rfl
  refine ⟨nodes, ?_⟩
  rw [loadSlot, if_pos hhead, loadMove, hsplit]
  simp only [tail_cons, atoi_decimal_slot hj, drop_succ_cons, drop_zero, hlookup]
  refine (if_neg (by omega)).trans ?_
  rw [head?_cons]
  simp only [Option.some.injEq]
  split_ifs <;> rfl

def Loaded.withMoves (st : Loaded) (c : Config) (nodes : Bytes → Option NodeInfo) (l : List ℕ) :
    Loaded :=
  { st with
    nodes := nodes
    migratingSlotsTo := movedSlots st.migratingSlotsTo c.migratingSlotsTo l
    importingSlotsFrom := movedSlots st.importingSlotsFrom (importingWritten c) l }

theorem foldlM_moveWords (c : Config) (name : Bytes) (st : Loaded) (hj : j < clusterSlots) :
    ∃ nodes, (moveWords c j).foldlM (loadSlot name) st = .ok (st.withMoves c nodes [j]) := by
  cases hm : c.migratingSlotsTo j with
  | some target =>
    have hi : importingWritten c j = none := by rw [importingWritten, hm]; rfl
    obtain ⟨nodes, hload⟩ := loadSlot_moveWord name st hj 62 target
    refine ⟨nodes, ?_⟩
    rw [moveWords, hm, hi, Loaded.withMoves, movedSlots_of_eq_some hm, movedSlots_of_eq_none hi]
    simp only [Option.map_some, Option.map_none, Option.toList_some, Option.toList_none,
      append_nil, foldlM_cons, hload]
    rfl
  | none =>
    cases hi : importingWritten c j with
    | some target =>
      obtain ⟨nodes, hload⟩ := loadSlot_moveWord name st hj 60 target
      refine ⟨nodes, ?_⟩
      rw [moveWords, hm, hi, Loaded.withMoves, movedSlots_of_eq_none hm, movedSlots_of_eq_some hi]
      simp only [Option.map_some, Option.map_none, Option.toList_some, Option.toList_none,
        nil_append, foldlM_cons, hload]
      rfl
    | none =>
      refine ⟨st.nodes, ?_⟩
      rw [moveWords, hm, hi, Loaded.withMoves, movedSlots_of_eq_none hm, movedSlots_of_eq_none hi]
      rfl

theorem foldlM_flatMap_moveWords (c : Config) (name : Bytes) {l : List ℕ}
    (h : ∀ j ∈ l, j < clusterSlots) (st : Loaded) :
    ∃ nodes, (l.flatMap (moveWords c)).foldlM (loadSlot name) st =
      .ok (st.withMoves c nodes l) := by
  induction l generalizing st with
  | nil => exact ⟨st.nodes, rfl⟩
  | cons j l ih =>
    obtain ⟨hj, hl⟩ := forall_mem_cons.1 h
    obtain ⟨nodes, hfirst⟩ := foldlM_moveWords c name st hj
    obtain ⟨nodes', hrest⟩ := ih hl (st.withMoves c nodes [j])
    refine ⟨nodes', ?_⟩
    rw [flatMap_cons, foldlM_append, hfirst]
    refine hrest.trans ?_
    simp only [Loaded.withMoves, movedSlots_cons]

/-! ## Lines -/

def Loaded.afterLine (st : Loaded) (c : Config) (node : ConfNode)
    (nodes : Bytes → Option NodeInfo) : Loaded :=
  let moving := if node.flags.myself then List.range clusterSlots else []
  { myself := if node.flags.myself then some node.name.1 else st.myself
    nodes := nodes
    slots := addedSlots st.slots node.name.1 (InRanges (nodeRanges c node))
    migratingSlotsTo := movedSlots st.migratingSlotsTo c.migratingSlotsTo moving
    importingSlotsFrom := movedSlots st.importingSlotsFrom (importingWritten c) moving }

section

variable (c : Config)

theorem foldlM_slotWords (node : ConfNode) (st : Loaded) :
    ∃ nodes, (slotWords c node).foldlM (loadSlot node.name.1) st =
      .ok { st.withMoves c nodes (if node.flags.myself then List.range clusterSlots else []) with
        slots := addedSlots st.slots node.name.1 (InRanges (nodeRanges c node)) } := by
  have hranges := @foldlM_rangeWord node.name.1 (nodeRanges c node)
    (fun range hrange => mem_slotRanges (by omega) (fun a ha => by cases ha) hrange) st
  rw [slotWords, foldlM_append, hranges]
  split_ifs
  · obtain ⟨nodes, hmoves⟩ := foldlM_flatMap_moveWords c node.name.1 (fun j hj => mem_range.1 hj)
      { st with slots := addedSlots st.slots node.name.1 (InRanges (nodeRanges c node)) }
    refine ⟨nodes, ?_⟩
    simp only [bind, Except.bind, hmoves, Loaded.withMoves]
  · refine ⟨st.nodes, ?_⟩
    rfl

theorem loadArgs_nodeWords {st : Loaded} (h : node.flags.myself = true → st.myself = none) :
    ∃ nodes, loadArgs st (node.name.1 :: nodeWords c node) = .ok (st.afterLine c node nodes) := by
  obtain ⟨nodes₁, hlookup⟩ := lookupOrCreate_name st node.name []
  rw [append_nil] at hlookup
  obtain ⟨nodes₂, haddress⟩ := @loadAddress_eq { st with nodes := nodes₁ } node.name.1 _
    (decimal node.port) node.ip_length
  obtain ⟨nodes₃, hflags⟩ := @loadFlags_eq { st with nodes := nodes₂ } node.flags node.name.1 h
  obtain ⟨nodes₄, hslaveof⟩ := loadSlaveof_eq { st with
      nodes := nodes₃
      myself := if node.flags.myself then some node.name.1 else st.myself } node.name.1 node
  obtain ⟨nodes₅, hslots⟩ := foldlM_slotWords c node (loadTimes { st with
        nodes := nodes₄
        myself := if node.flags.myself then some node.name.1 else st.myself } node.name.1
      (decimalInt node.pingSent) (decimalInt node.pongReceived) (decimal node.configEpoch))
  refine ⟨nodes₅, ?_⟩
  rw [loadArgs]
  simp only [nodeWords, arg, getElem?_cons_zero, getElem?_cons_succ, drop_succ_cons, drop_zero]
  simp only [bind, Except.bind, hlookup, haddress, hflags, hslaveof]
  exact hslots

theorem loadLine_clusterGenNodeDescription {st : Loaded}
    (h : node.flags.myself = true → st.myself = none) :
    ∃ nodes, loadLine st (clusterGenNodeDescription c node ++ [10]) =
      .ok (st.afterLine c node nodes) := by
  obtain ⟨hne, hplain⟩ := word_name node.name
  have hhead : (wordsLine node.name.1 (nodeWords c node)).head? ≠ some 10 := by
    obtain ⟨b, t, hbt⟩ := exists_cons_of_ne_nil hne
    rw [hbt]
    intro hb
    exact (hplain b (by rw [hbt]; exact mem_cons_self)).cases.2.2.2.2.2 (Option.some.inj hb)
  rw [clusterGenNodeDescription_eq, loadLine, if_neg hhead,
    sdssplitargs_wordsLine (word_nodeWords c node)]
  exact loadArgs_nodeWords c h

theorem fgets_clusterGenNodeDescription (node : ConfNode) (file : Bytes) :
    fgets maxline (clusterGenNodeDescription c node ++ [10] ++ file) =
      some (clusterGenNodeDescription c node ++ [10], file) := by
  refine fgets_line (fun b hb => ?_) (length_clusterGenNodeDescription c node) file
  have hline : clusterGenNodeDescription c node =
      node.name.1 ++ (nodeWords c node).flatMap (32 :: ·) := by
    have := clusterGenNodeDescription_eq c node
    rw [wordsLine, ← append_assoc] at this
    exact append_cancel_right this
  rw [hline] at hb
  exact (mem_wordsLine (word_nodeWords c node) hb).2

def nodesText (nodes : List ConfNode) : Bytes :=
  nodes.flatMap fun node => clusterGenNodeDescription c node ++ [10]

end

def movingSlots (nodes : List ConfNode) : List ℕ :=
  if nodes.any (·.flags.myself) then List.range clusterSlots else []

structure AfterLines (c : Config) (nodes : List ConfNode) (st st' : Loaded) : Prop where
  myself : st'.myself = ((nodes.find? (·.flags.myself)).map (·.name.1)).or st.myself
  slots : ∀ k, st'.slots k =
    (st.slots k).or ((nodes.find? fun n => InRanges (nodeRanges c n) k).map (·.name.1))
  migrating : st'.migratingSlotsTo =
    movedSlots st.migratingSlotsTo c.migratingSlotsTo (movingSlots nodes)
  importing : st'.importingSlotsFrom =
    movedSlots st.importingSlotsFrom (importingWritten c) (movingSlots nodes)

theorem movedSlots_movingSlots (old : ℕ → Option Bytes) (written : ℕ → Option Name)
    {nodes : List ConfNode} (h : node.flags.myself = true → nodes.any (·.flags.myself) = false) :
    movedSlots (movedSlots old written (if node.flags.myself then List.range clusterSlots else []))
      written (movingSlots nodes) = movedSlots old written (movingSlots (node :: nodes)) := by
  cases hnode : node.flags.myself with
  | true =>
    rw [movingSlots, movingSlots, h hnode, any_cons, hnode, Bool.true_or, if_neg Bool.false_ne_true, movedSlots_nil]
  | false =>
    rw [movingSlots, movingSlots, any_cons, hnode, Bool.false_or, if_neg Bool.false_ne_true,
      movedSlots_nil]

theorem AfterLines.cons {c : Config} {node : ConfNode} {nodes : List ConfNode} {st st' : Loaded}
    {table : Bytes → Option NodeInfo} (hst' : AfterLines c nodes (st.afterLine c node table) st')
    (h : node.flags.myself = true → nodes.any (·.flags.myself) = false) :
    AfterLines c (node :: nodes) st st' where
  myself := by
    rw [hst'.myself, Loaded.afterLine]
    cases hnode : node.flags.myself with
    | true =>
      have hnone : nodes.find? (·.flags.myself) = none := by
        rw [← Option.not_isSome_iff_eq_none, isSome_find?, h hnode]
        exact Bool.false_ne_true
      rw [hnone, find?_cons, hnode]
      rfl
    | false =>
      rw [find?_cons, hnode]
      rfl
  slots k := by
    have hadded : (st.afterLine c node table).slots k = (st.slots k).or
        (if InRanges (nodeRanges c node) k then some node.name.1 else none) := rfl
    rw [hst'.slots k, hadded, Option.or_assoc]
    congr 1
    by_cases hin : InRanges (nodeRanges c node) k
    · rw [if_pos hin, find?_cons_of_pos (by simpa using hin)]
      rfl
    · rw [if_neg hin, find?_cons_of_neg (by simpa using hin)]
      rfl
  migrating := hst'.migrating.trans (movedSlots_movingSlots _ _ h)
  importing := hst'.importing.trans (movedSlots_movingSlots _ _ h)

section

variable (c : Config)

theorem loadLines_nodesText {nodes : List ConfNode} {fuel : ℕ} {st : Loaded}
    (hfuel : nodes.length ≤ fuel)
    (hmyself : (nodes.filter (·.flags.myself)).length + st.myself.toList.length ≤ 1) :
    ∃ st', loadLines fuel st (nodesText c nodes) = .ok st' ∧ AfterLines c nodes st st' := by
  induction nodes generalizing fuel st with
  | nil =>
    have hnone : movingSlots [] = [] := rfl
    refine ⟨st, by cases fuel <;> rfl, rfl, fun k => ?_, ?_, ?_⟩
    · rw [find?_nil, Option.map_none, Option.or_none]
    · rw [hnone, movedSlots_nil]
    · rw [hnone, movedSlots_nil]
  | cons node nodes ih =>
    obtain ⟨fuel, rfl⟩ : ∃ k, fuel = k + 1 := ⟨fuel - 1, by rw [length_cons] at hfuel; omega⟩
    have hfirst : node.flags.myself = true → st.myself = none ∧
        nodes.filter (·.flags.myself) = [] := by
      intro hnode
      rw [filter_cons, if_pos hnode, length_cons] at hmyself
      refine ⟨?_, length_eq_zero_iff.1 (by omega)⟩
      rw [← Option.toList_eq_nil_iff]
      exact length_eq_zero_iff.1 (by omega)
    have hrest : node.flags.myself = true → nodes.any (·.flags.myself) = false := by
      intro hnode
      rw [← Bool.not_eq_true, any_eq_true]
      rintro ⟨other, hother, htrue⟩
      have hmem : other ∈ nodes.filter (·.flags.myself) := mem_filter.2 ⟨hother, htrue⟩
      rw [(hfirst hnode).2] at hmem
      cases hmem
    obtain ⟨table, hline⟩ := loadLine_clusterGenNodeDescription c fun hnode => (hfirst hnode).1
    obtain ⟨st', hload, hst'⟩ := @ih fuel (st.afterLine c node table)
      (by rw [length_cons] at hfuel; omega) (by
        rw [Loaded.afterLine]
        cases hnode : node.flags.myself with
        | true => simp [(hfirst hnode).2]
        | false => simpa [hnode] using hmyself)
    refine ⟨st', ?_, hst'.cons hrest⟩
    rw [nodesText, flatMap_cons, loadLines, fgets_clusterGenNodeDescription]
    simp only [hline]
    exact hload

/-! ## The round trip -/

theorem length_le_length_nodesText (nodes : List ConfNode) :
    nodes.length ≤ (nodesText c nodes).length := by
  induction nodes with
  | nil => exact Nat.zero_le _
  | cons node nodes ih =>
    rw [nodesText, flatMap_cons, length_append, length_append, length_cons,
      length_singleton, ← nodesText]
    omega

theorem clusterGenNodesDescription_eq :
    clusterGenNodesDescription c NodeFlags.handshake = nodesText c c.nodes := by
  refine flatMap_congr fun node hnode => ?_
  rw [c.no_handshake node hnode]
  rfl

theorem any_myself : c.nodes.any (·.flags.myself) = true := by
  obtain ⟨node, hnode⟩ := length_pos_iff_exists_mem.1
    (show 0 < (c.nodes.filter (·.flags.myself)).length by rw [c.one_myself]; exact one_pos)
  exact any_eq_true.2 ⟨node, mem_filter.1 hnode⟩

theorem clusterLoadConfig_eq :
    ∃ loaded, clusterLoadConfig (clusterGenNodesDescription c NodeFlags.handshake) = .ok loaded ∧
      AfterLines c c.nodes Loaded.init loaded := by
  have hlength := length_le_length_nodesText c c.nodes
  obtain ⟨loaded, hload, hloaded⟩ := @loadLines_nodesText c c.nodes
    ((nodesText c c.nodes).length + 1) Loaded.init (by omega)
    (by rw [c.one_myself]; exact le_rfl)
  have hmyself : loaded.myself ≠ none := by
    have hfind : (c.nodes.find? (·.flags.myself)).isSome = true := by
      rw [isSome_find?, any_myself]
    obtain ⟨node, hnode⟩ := Option.isSome_iff_exists.1 hfind
    rw [hloaded.myself, hnode]
    exact Option.some_ne_none _
  refine ⟨loaded, ?_, hloaded⟩
  rw [clusterGenNodesDescription_eq, clusterLoadConfig, hload]
  exact if_neg hmyself

def TablesKept (loaded : Loaded) : Prop :=
  ∀ j < clusterSlots, loaded.slots j = (c.slots j).map Subtype.val ∧
    loaded.migratingSlotsTo j = (c.migratingSlotsTo j).map Subtype.val ∧
    loaded.importingSlotsFrom j = (c.importingSlotsFrom j).map Subtype.val

def LineBefore (a b : Name) : Prop :=
  (c.nodes.map ConfNode.name).idxOf a < (c.nodes.map ConfNode.name).idxOf b

/-- The owner of the slot before the last one has the last slot as well, or the last slot belongs to
a node on an earlier line. -/
def LastSlotSafe : Prop :=
  ∀ name, c.slots (clusterSlots - 2) = some name → c.slots (clusterSlots - 1) = some name ∨
    ∃ owner, c.slots (clusterSlots - 1) = some owner ∧ LineBefore c owner name

theorem find_eq_some_iff {l : List Name} {a : Name} (ha : a ∈ l) (y : Option Name) :
    l.find? (fun n => some a = some n ∨ y = some n) = some a ↔
      ∀ b, y = some b → a = b ∨ l.idxOf a < l.idxOf b := by
  induction l with
  | nil => cases ha
  | cons n l ih =>
    rcases eq_or_ne n a with rfl | hna
    · refine iff_of_true (find?_cons_of_pos (by simp)) fun b _ => ?_
      rcases eq_or_ne n b with rfl | hnb
      · exact .inl rfl
      · right
        rw [idxOf_cons_self, idxOf_cons_ne _ hnb]
        exact Nat.succ_pos _
    · by_cases hy : y = some n
      · rw [find?_cons_of_pos (by simp [hy])]
        refine iff_of_false (fun h => hna (Option.some.inj h)) fun h => ?_
        rcases h n hy with rfl | hlt
        · exact hna rfl
        · rw [idxOf_cons_self] at hlt
          exact absurd hlt (Nat.not_lt_zero _)
      · rw [find?_cons_of_neg (by simp [hy, hna.symm]), ih ((mem_cons.1 ha).resolve_left hna.symm)]
        refine forall₂_congr fun b hb => ?_
        have hnb : n ≠ b := by
          rintro rfl
          exact hy hb
        rw [idxOf_cons_ne _ hna, idxOf_cons_ne _ hnb, Nat.succ_lt_succ_iff]

theorem find_eq_iff {l : List Name} {x y : Option Name} (hx : ∀ a, x = some a → a ∈ l)
    (hy : ∀ b, y = some b → b ∈ l) :
    l.find? (fun n => x = some n ∨ y = some n) = x ↔
      ∀ b, y = some b → x = some b ∨ ∃ a, x = some a ∧ l.idxOf a < l.idxOf b := by
  cases x with
  | none =>
    simp only [reduceCtorEq, false_or, false_and, exists_false, find?_eq_none,
      decide_eq_true_eq]
    exact ⟨fun h b hb => h b (hy b hb) hb, fun h n _ hn => h n hn⟩
  | some a =>
    rw [find_eq_some_iff (hx a rfl)]
    simp only [Option.some.injEq, exists_eq_left']

def slotBeforeLast (j : ℕ) : Option Name :=
  if j = clusterSlots - 1 then c.slots (clusterSlots - 2) else none

theorem inRanges_nodeRanges (node : ConfNode) (hj : j < clusterSlots) :
    InRanges (nodeRanges c node) j ↔
      c.slots j = some node.name ∨ slotBeforeLast c j = some node.name := by
  have hranges := @inRanges_slotRanges (clusterNodeGetSlotBit c node) (clusterSlots - 1) 0 none
    (by decide) (fun a ha => by cases ha) (fun h => absurd h (Nat.lt_irrefl 0)) j
  have hslots : clusterSlots - 1 + 1 = clusterSlots := by decide
  rw [hslots] at hranges
  rw [nodeRanges, hranges, slotBeforeLast]
  simp only [reduceCtorEq, false_and, exists_false, false_or, Nat.zero_le, true_and, hj,
    clusterNodeGetSlotBit, decide_eq_true_eq]
  refine or_congr_right ?_
  split_ifs with hlast
  · rw [and_iff_right hlast]
  · simp [hlast]

end

theorem loaded_slots_iff {c : Config} {loaded : Loaded}
    (h : AfterLines c c.nodes Loaded.init loaded) (hj : j < clusterSlots) :
    loaded.slots j = (c.slots j).map Subtype.val ↔ ∀ b, slotBeforeLast c j = some b →
        c.slots j = some b ∨ ∃ a, c.slots j = some a ∧ LineBefore c a b := by
  have hfind : loaded.slots j = ((c.nodes.map ConfNode.name).find?
      fun n => c.slots j = some n ∨ slotBeforeLast c j = some n).map Subtype.val := by
    rw [h.slots j, find?_map, Option.map_map]
    refine congrArg (Option.map _) (congrArg (fun p => c.nodes.find? p) ?_)
    funext node
    simp only [Function.comp, inRanges_nodeRanges c node hj]
  have hbefore : ∀ b, slotBeforeLast c j = some b → b ∈ c.nodes.map ConfNode.name := by
    intro b hb
    rw [slotBeforeLast] at hb
    split_ifs at hb
    exact c.slots_mem _ _ hb
  rw [hfind, (Option.map_injective Subtype.val_injective).eq_iff,
    find_eq_iff (fun a ha => c.slots_mem _ _ ha) hbefore]
  rfl

theorem loaded_moves {c : Config} {loaded : Loaded} (h : AfterLines c c.nodes Loaded.init loaded)
    (hj : j < clusterSlots) :
    loaded.migratingSlotsTo j = (c.migratingSlotsTo j).map Subtype.val ∧
      loaded.importingSlotsFrom j = (importingWritten c j).map Subtype.val := by
  have hmoving : j ∈ movingSlots c.nodes := by
    rw [movingSlots, if_pos (any_myself c)]
    exact mem_range.2 hj
  have hmoved : ∀ written : ℕ → Option Name,
      movedSlots (fun _ => none) written (movingSlots c.nodes) j = (written j).map Subtype.val := by
    intro written
    rw [movedSlots, if_pos hmoving, Option.or_none]
  exact ⟨by rw [h.migrating]; exact hmoved _, by rw [h.importing]; exact hmoved _⟩

theorem importingWritten_eq_iff (c : Config) (j : ℕ) :
    importingWritten c j = c.importingSlotsFrom j ↔
      c.migratingSlotsTo j = none ∨ c.importingSlotsFrom j = none := by
  rw [importingWritten]
  cases c.migratingSlotsTo j with
  | none => simp
  | some name => simp [eq_comm]

/-- Every configuration is read back.  The tables of the slots are the same if and only if the last
slot is not claimed by the owner of the slot before it on an earlier line, and no slot is both
migrating and importing. -/
theorem nodes_conf_round_trip (c : Config) :
    ∃ loaded, clusterLoadConfig (clusterGenNodesDescription c NodeFlags.handshake) = .ok loaded ∧
      (TablesKept c loaded ↔ LastSlotSafe c ∧
        ∀ j < clusterSlots, c.migratingSlotsTo j = none ∨ c.importingSlotsFrom j = none) := by
  obtain ⟨loaded, hload, hloaded⟩ := clusterLoadConfig_eq c
  have himport : ∀ {j}, j < clusterSlots →
      (loaded.importingSlotsFrom j = (c.importingSlotsFrom j).map Subtype.val ↔
        c.migratingSlotsTo j = none ∨ c.importingSlotsFrom j = none) := by
    intro j hj
    rw [(loaded_moves hloaded hj).2, (Option.map_injective Subtype.val_injective).eq_iff,
      importingWritten_eq_iff]
  refine ⟨loaded, hload, fun h => ⟨?_, ?_⟩, fun ⟨hlast, hmoves⟩ j hj => ?_⟩
  · have hslots := (loaded_slots_iff hloaded (by decide)).1 (h (clusterSlots - 1) (by decide)).1
    exact hslots
  · exact fun j hj => (himport hj).1 (h j hj).2.2
  · refine ⟨(loaded_slots_iff hloaded hj).2 ?_, (loaded_moves hloaded hj).1,
      (himport hj).2 (hmoves j hj)⟩
    intro b hb
    rw [slotBeforeLast] at hb
    split_ifs at hb with hj'
    rw [hj']
    exact hlast b hb

/-- A node with the name `000…0`. -/
def loneNode : ConfNode where
  name := ⟨List.replicate 40 48, by decide +kernel⟩
  ip := ascii "127.0.0.1"
  port := 7000
  flags := { NodeFlags.none with myself := true, master := true }
  slaveof := none
  pingSent := 0
  pongReceived := 0
  configEpoch := 1
  link := false
  ip_length := by decide +kernel
  ip_plain := by decide +kernel
  port_lt := by norm_num
  pingSent_bound := by constructor <;> norm_num
  pongReceived_bound := by constructor <;> norm_num
  configEpoch_lt := by norm_num

/-- A cluster of one node that serves only the slot before the last one. -/
def slotBeforeLastOnly : Config where
  nodes := [loneNode]
  slots := fun j => if j = clusterSlots - 2 then some loneNode.name else none
  migratingSlotsTo := fun _ => none
  importingSlotsFrom := fun _ => none
  names_nodup := nodup_singleton _
  slots_mem := by
    intro slot owner h
    split_ifs at h
    exact mem_singleton.2 (Option.some.inj h).symm
  one_myself := rfl
  no_handshake := by simp [loneNode, NodeFlags.none]

/-- The last slot belongs to nobody, and after a restart to the node. -/
theorem last_slot_claimed :
    ∃ loaded, clusterLoadConfig (clusterGenNodesDescription slotBeforeLastOnly
      NodeFlags.handshake) = .ok loaded ∧
      slotBeforeLastOnly.slots (clusterSlots - 1) = none ∧
      loaded.slots (clusterSlots - 1) = some loneNode.name.1 := by
  have hslots : ∀ j, slotBeforeLastOnly.slots j =
      if j = clusterSlots - 2 then some loneNode.name else none := fun _ => rfl
  obtain ⟨loaded, hload, hloaded⟩ := clusterLoadConfig_eq slotBeforeLastOnly
  refine ⟨loaded, hload, by rw [hslots, if_neg (by decide)], ?_⟩
  have hin : InRanges (nodeRanges slotBeforeLastOnly loneNode) (clusterSlots - 1) := by
    rw [inRanges_nodeRanges _ _ (by decide)]
    exact .inr rfl
  have hnodes : slotBeforeLastOnly.nodes = [loneNode] := rfl
  rw [hloaded.slots, hnodes, find?_cons_of_pos (by simpa using hin)]
  rfl

end ServerStack.Redis.Cluster.NodesConf
