import ServerStack.Leveldb.Log.Reading

/-!
# Recovery of a log

A log that was cut off at any byte, and of which any blocks were overwritten with zeros.  A fragment
survives if it lies before the cut and outside of the zeroed blocks.  The reader notices every loss
and returns exactly the records all of whose fragments survive.
-/

namespace ServerStack.Leveldb.Log

open List Nat

/-! ## Losses -/

section

variable (alive : Extent → Bool)

/-- What is left of a list of fragments: the surviving ones, a `bad` for each run of lost ones, and
nothing or a `bad` for those lost at the end. -/
inductive Damaged : List (Fragment × Extent) → List Event → Prop
  | lost {l : List (Fragment × Extent)} (h : ∀ x ∈ l, alive x.2 = false) : Damaged l []
  | kept {x : Fragment × Extent} {l : List (Fragment × Extent)} {es : List Event}
      (h : alive x.2 = true) (hes : Damaged l es) : Damaged (x :: l) (.fragment x.1 :: es)
  | run {d l : List (Fragment × Extent)} {es : List Event} (hd : d ≠ [])
      (h : ∀ x ∈ d, alive x.2 = false) (hes : Damaged l es) : Damaged (d ++ l) (.bad :: es)

variable {alive} in
theorem Damaged.run_lost {d : List (Fragment × Extent)} (hd : d ≠ [])
    (h : ∀ x ∈ d, alive x.2 = false) : Damaged alive d [.bad] := by
  have hnil : Damaged alive [] [] := .lost (by simp)
  have hrun := Damaged.run hd h hnil
  rwa [append_nil] at hrun

/-- The fragments, with a `bad` for each lost one. -/
def marked (l : List (Fragment × Extent)) : List Event :=
  l.map fun x => if alive x.2 then .fragment x.1 else .bad

variable {alive}

theorem marked_cons_of_alive {x : Fragment × Extent} (h : alive x.2 = true)
    (l : List (Fragment × Extent)) : marked alive (x :: l) = .fragment x.1 :: marked alive l := by
  rw [marked, map_cons, if_pos h, ← marked]

theorem marked_cons_of_lost {x : Fragment × Extent} (h : alive x.2 = false)
    (l : List (Fragment × Extent)) : marked alive (x :: l) = .bad :: marked alive l := by
  rw [marked, map_cons, h, if_neg Bool.false_ne_true, ← marked]

theorem collect_marked_lost {d : List (Fragment × Extent)} (hd : d ≠ [])
    (h : ∀ x ∈ d, alive x.2 = false) (scratch : Option Bytes) (es : List Event) :
    collect scratch (marked alive d ++ es) = collect none es := by
  induction d generalizing scratch with
  | nil => exact absurd rfl hd
  | cons x d ih =>
    obtain ⟨hx, hrest⟩ := forall_mem_cons.1 h
    rw [marked_cons_of_lost hx]
    rcases eq_or_ne d [] with rfl | hne
    · rfl
    · exact ih hne hrest none

variable {es : List Event} {fs : List (Fragment × Extent)} {l : List (Fragment × Extent)}

/-- It does not matter how many `bad`s a loss leaves. -/
theorem Damaged.collect_eq (h : Damaged alive l es)
    (scratch : Option Bytes) : collect scratch es = collect scratch (marked alive l) := by
  induction h generalizing scratch with
  | @lost l h =>
    rcases eq_or_ne l [] with rfl | hne
    · rfl
    · have := collect_marked_lost hne h scratch []
      rw [append_nil] at this
      rw [this]
      rfl
  | @kept x l es h hes ih =>
    obtain ⟨⟨type, data⟩, extent⟩ := x
    rw [marked_cons_of_alive h]
    cases type with
    | full => exact congrArg (data :: ·) (ih none)
    | first => exact ih (some data)
    | middle =>
      cases scratch with
      | none => exact ih none
      | some s => exact ih (some (s ++ data))
    | last =>
      cases scratch with
      | none => exact ih none
      | some s => exact congrArg ((s ++ data) :: ·) (ih none)
  | @run d l es hd h hes ih =>
    rw [marked, map_append, ← marked, collect_marked_lost hd h]
    exact ih none

theorem Damaged.eq_map (h : Damaged alive l es)
    (hall : ∀ x ∈ l, alive x.2 = true) : es = l.map fun x => .fragment x.1 := by
  induction h with
  | @lost l h =>
    cases l with
    | nil => rfl
    | cons x l =>
      have := hall x mem_cons_self
      rw [h x mem_cons_self] at this
      cases this
  | kept h hes ih => rw [map_cons, ih fun x hx => hall x (mem_cons_of_mem _ hx)]
  | @run d l es hd h hes ih =>
    obtain ⟨x, d, rfl⟩ := exists_cons_of_ne_nil hd
    have := hall x mem_cons_self
    rw [h x mem_cons_self] at this
    cases this

/-! ## Records -/

/-- The fragments of a record after the first one: with the first one they make the record if they
all survive, without it they are dropped. -/
theorem collect_tail {data : Bytes} {fs : List (Fragment × Extent)}
    (h : IsTail data (fs.map Prod.fst)) (es : List Event) :
    collect none (marked alive fs ++ es) = collect none es ∧
    ∀ s, collect (some s) (marked alive fs ++ es) =
      (if (fs.map Prod.snd).all alive then [s ++ data] else []) ++ collect none es := by
  generalize hb : fs.map Prod.fst = b at h
  induction h generalizing fs with
  | last data =>
    obtain ⟨⟨f, extent⟩, rest, rfl, rfl, hrest⟩ := map_eq_cons_iff.1 hb
    obtain rfl := map_eq_nil_iff.1 hrest
    cases halive : alive extent <;> simp [marked, halive, collect]
  | @middle data rest b htail ih =>
    obtain ⟨⟨f, extent⟩, fs, rfl, rfl, hfs⟩ := map_eq_cons_iff.1 hb
    obtain ⟨hnone, hsome⟩ := ih hfs
    cases halive : alive extent with
    | true =>
      rw [marked_cons_of_alive halive, map_cons, all_cons, halive, Bool.true_and]
      refine ⟨hnone, fun s => (hsome (s ++ data)).trans ?_⟩
      rw [append_assoc]
    | false =>
      rw [marked_cons_of_lost halive, map_cons, all_cons, halive]
      exact ⟨hnone, fun s => hnone⟩

theorem collect_record {data : Bytes} (h : IsRecord data (fs.map Prod.fst)) (es : List Event) :
    collect none (marked alive fs ++ es) =
      (if (fs.map Prod.snd).all alive then [data] else []) ++ collect none es := by
  generalize hb : fs.map Prod.fst = b at h
  cases h with
  | full =>
    obtain ⟨⟨f, extent⟩, rest, rfl, rfl, hrest⟩ := map_eq_cons_iff.1 hb
    obtain rfl := map_eq_nil_iff.1 hrest
    cases halive : alive extent <;> simp [marked, halive, collect]
  | @first data rest b htail =>
    obtain ⟨⟨f, extent⟩, fs, rfl, rfl, rfl⟩ := map_eq_cons_iff.1 hb
    obtain ⟨hnone, hsome⟩ := @collect_tail alive _ _ htail es
    cases halive : alive extent with
    | true =>
      rw [marked_cons_of_alive halive, map_cons, all_cons, halive]
      exact hsome data
    | false =>
      rw [marked_cons_of_lost halive, map_cons, all_cons, halive]
      exact hnone

def survivors (alive : Extent → Bool) (records : List (Bytes × List Extent)) : List Bytes :=
  (records.filter fun x => x.2.all alive).map Prod.fst

theorem collect_records {records : List (Bytes × List Extent)} (h : IsRecords records fs) :
    collect none (marked alive fs) = survivors alive records := by
  induction h with
  | nil => rfl
  | @cons data fs rest records hrecord hrest ih =>
    rw [marked, map_append, ← marked, ← marked, collect_record hrecord, ih, survivors, survivors,
      filter_cons]
    split_ifs <;> rfl

theorem orderly_tail {data : Bytes} (h : IsTail data (fs.map Prod.fst)) (hes : Orderly none es)
    (s : Bytes) : Orderly (some s) (fs.map (fun x => .fragment x.1) ++ es) := by
  generalize hb : fs.map Prod.fst = b at h
  induction h generalizing fs s with
  | last data =>
    obtain ⟨⟨f, extent⟩, rest, rfl, rfl, hrest⟩ := map_eq_cons_iff.1 hb
    obtain rfl := map_eq_nil_iff.1 hrest
    exact hes
  | @middle data rest b htail ih =>
    obtain ⟨⟨f, extent⟩, fs, rfl, rfl, hfs⟩ := map_eq_cons_iff.1 hb
    exact ih (s ++ data) hfs

theorem orderly_records {records : List (Bytes × List Extent)} (h : IsRecords records fs) :
    Orderly none (fs.map fun x => .fragment x.1) := by
  induction h with
  | nil => rfl
  | @cons data fs rest records hrecord hrest ih =>
    rw [map_append]
    generalize hb : fs.map Prod.fst = b at hrecord
    cases hrecord with
    | full =>
      obtain ⟨⟨f, extent⟩, fs, rfl, rfl, hfs⟩ := map_eq_cons_iff.1 hb
      obtain rfl := map_eq_nil_iff.1 hfs
      exact ih
    | first data htail =>
      obtain ⟨⟨f, extent⟩, fs, rfl, rfl, rfl⟩ := map_eq_cons_iff.1 hb
      exact orderly_tail htail ih data

end

/-! ## Reading a block -/

section

variable {table : CrcTable} {clean : Prop}

theorem readPhysicalRecord_of_header {r : Reader} (h : kHeaderSize ≤ r.buffer.length) :
    r.readPhysicalRecord table checked = r.parseHeader table checked := by
  rw [Reader.readPhysicalRecord, if_neg fun hr => not_lt.2 h hr.1, Reader.readBuffered,
    if_neg (not_lt.2 h)]

theorem blockBytes_cons (table : CrcTable) (f : Fragment) (b : List Fragment) (tail : Bytes) :
    blockBytes table (f :: b) ++ tail = f.bytes table ++ (blockBytes table b ++ tail) := by
  rw [blockBytes, flatMap_cons, append_assoc, ← blockBytes]

variable {es : List Event} {file : Bytes}

theorem Yields.block {tail : Bytes} {eof : Bool} (h : Yields table clean ⟨file, tail, eof⟩ es)
    {b : List Fragment} (hb : ∀ f ∈ b, f.data.length < 2 ^ 16) :
    Yields table clean ⟨file, blockBytes table b ++ tail, eof⟩ (b.map .fragment ++ es) := by
  induction b with
  | nil => exact h
  | cons f b ih =>
    obtain ⟨hf, hrest⟩ := forall_mem_cons.1 hb
    have hbytes := blockBytes_cons table f b tail
    have hsize : f.size = kHeaderSize + f.data.length := rfl
    have hheader : kHeaderSize = 7 := rfl
    rw [hbytes]
    refine .fragment (fun r hr => ⟨{ r with buffer := blockBytes table b ++ tail }, ?_, ?_, rfl⟩) ?_
      (ih hrest)
    · have hbuffer : r.buffer = f.bytes table ++ (blockBytes table b ++ tail) :=
        congrArg Source.buffer hr
      rw [readPhysicalRecord_of_header, parseHeader_bytes hf hbuffer]
      rw [hbuffer, length_append, Fragment.length_bytes]
      omega
    · exact congrArg
        (fun src : Source => (⟨src.file, blockBytes table b ++ tail, src.eof⟩ : Source)) hr
    · simp only [Source.size, length_append, Fragment.length_bytes]
      omega

theorem Yields.refill {buffer : Bytes} (hbuffer : buffer.length < kHeaderSize)
    (h : Yields table clean
      ⟨file.drop kBlockSize, file.take kBlockSize, decide ((file.take kBlockSize).length < kBlockSize)⟩
      es) :
    Yields table clean ⟨file, buffer, false⟩ es := by
  have hheader : kHeaderSize = 7 := rfl
  have hblock : kBlockSize = 32768 := rfl
  have hread : ∀ r : Reader, r.source = ⟨file, buffer, false⟩ →
      r.readBlock.source = ⟨file.drop kBlockSize, file.take kBlockSize,
        decide ((file.take kBlockSize).length < kBlockSize)⟩ ∧
      r.readPhysicalRecord table checked = r.readBlock.readPhysicalRecord table checked := by
    intro r hr
    have hfile : r.file = file := congrArg Source.file hr
    have hbuf : r.buffer = buffer := congrArg Source.buffer hr
    have heof : r.eof = false := congrArg Source.eof hr
    refine ⟨by rw [Reader.source, Reader.readBlock, hfile], ?_⟩
    rw [Reader.readPhysicalRecord, if_pos ⟨by rw [hbuf]; exact hbuffer, heof⟩,
      Reader.readPhysicalRecord, if_neg]
    rintro ⟨hlt, hfull⟩
    simp only [Reader.readBlock, decide_eq_false_iff_not] at hlt hfull
    omega
  have hsize : ∀ {n : ℕ}, n < (file.drop kBlockSize).length + (file.take kBlockSize).length →
      n < file.length + buffer.length := by
    intro n hn
    rw [length_drop, length_take] at hn
    omega
  generalize hsrc : (⟨file.drop kBlockSize, file.take kBlockSize,
    decide ((file.take kBlockSize).length < kBlockSize)⟩ : Source) = src at h hread
  cases h with
  | eof h => exact .eof fun r hr => (hread r hr).2 ▸ h r.readBlock (hread r hr).1
  | fragment h hlt hes =>
    subst hsrc
    exact .fragment (fun r hr => (hread r hr).2 ▸ h r.readBlock (hread r hr).1) (hsize hlt) hes
  | bad h hlt hes =>
    subst hsrc
    exact .bad (fun r hr => (hread r hr).2 ▸ h r.readBlock (hread r hr).1) (hsize hlt) hes

theorem yields_end {buffer : Bytes} (h : buffer.length < kHeaderSize) (hclean : clean → buffer = []) :
    Yields table clean ⟨[], buffer, true⟩ [] := by
  refine .eof fun r hr => ?_
  have hbuffer : r.buffer = buffer := congrArg Source.buffer hr
  have heof : r.eof = true := congrArg Source.eof hr
  rw [Reader.readPhysicalRecord, if_neg (by rw [heof]; simp), Reader.readBuffered, hbuffer]
  split_ifs with hnil
  · exact ⟨r, rfl, fun _ => rfl⟩
  · exact ⟨_, rfl, fun hc => absurd (hclean hc) hnil⟩

theorem Yields.zeros {eof : Bool} (h : Yields table clean ⟨file, [], eof⟩ es) {n : ℕ}
    (hn : kHeaderSize ≤ n) : Yields table clean ⟨file, List.replicate n 0, eof⟩ (.bad :: es) := by
  have hheader : kHeaderSize = 7 := rfl
  refine .bad (fun r hr => ⟨{ r with buffer := [] }, ?_, ?_⟩) ?_ h
  · have hbuffer : r.buffer = List.replicate n 0 := congrArg Source.buffer hr
    rw [readPhysicalRecord_of_header (by rw [hbuffer, length_replicate]; exact hn),
      parseHeader_zeros hn hbuffer]
  · exact congrArg (fun src : Source => (⟨src.file, [], src.eof⟩ : Source)) hr
  · simp only [Source.size, length_nil, length_replicate]
    omega

theorem yields_cut {f : Fragment} (hf : f.data.length < 2 ^ 16) {m : ℕ} (hm : kHeaderSize ≤ m)
    (hlt : m < f.size) : Yields table clean ⟨[], (f.bytes table).take m, true⟩ [.bad] := by
  have hheader : kHeaderSize = 7 := rfl
  have hlength : ((f.bytes table).take m).length = m := by
    rw [length_take, Fragment.length_bytes]
    omega
  have hend : Yields table clean ⟨[], [], true⟩ [] := yields_end (by decide) fun _ => rfl
  refine .bad (fun r hr => ⟨r.dropBuffer checked "bad record length", ?_, ?_⟩) ?_ hend
  · have hbuffer : r.buffer = (f.bytes table).take m := congrArg Source.buffer hr
    rw [readPhysicalRecord_of_header (by rw [hbuffer, hlength]; exact hm),
      parseHeader_cut hf hm hlt hbuffer]
  · rw [Reader.dropBuffer, Reader.source_reportCorruption]
    exact congrArg (fun src : Source => (⟨src.file, [], src.eof⟩ : Source)) hr
  · simp only [Source.size, hlength, length_nil]
    omega

theorem yields_lastBlock {alive : Extent → Bool} {b : List Fragment}
    (hb : ∀ f ∈ b, f.data.length < 2 ^ 16) {tail : Bytes} {m start : ℕ}
    (hm : m < blockSize b + kHeaderSize) {l : List (Fragment × Extent)}
    (halive : ∀ x ∈ placeBlock start b, alive x.2 = decide (x.2.stop ≤ start + m))
    (hl : ∀ x ∈ l, alive x.2 = false) (hclean : clean → m = blockSize b) :
    ∃ es, Yields table clean ⟨[], (blockBytes table b ++ tail).take m, true⟩ es ∧
      Damaged alive (placeBlock start b ++ l) es := by
  induction b generalizing m start with
  | nil =>
    rw [blockSize_nil] at hm hclean
    refine ⟨[], yields_end ?_ ?_, .lost hl⟩
    · rw [length_take]
      omega
    · intro hc
      rw [hclean hc, take_zero]
  | cons f b ih =>
    obtain ⟨hf, hrest⟩ := forall_mem_cons.1 hb
    obtain ⟨hfirst, hothers⟩ := forall_mem_cons.1 halive
    have hbytes := blockBytes_cons table f b tail
    have hlength := f.length_bytes table
    rw [blockSize_cons] at hm hclean
    rcases lt_or_ge m f.size with hlt | hge
    · -- this fragment and all after it are lost
      have hlost : ∀ x ∈ placeBlock start (f :: b) ++ l, alive x.2 = false := by
        refine forall_mem_append.2 ⟨fun x hx => ?_, hl⟩
        rw [halive x hx, decide_eq_false_iff_not]
        rcases mem_cons.1 hx with rfl | hx
        · simp only
          omega
        · obtain ⟨hlow, hhigh, -⟩ := mem_placeBlock hx
          omega
      have htake : (blockBytes table (f :: b) ++ tail).take m = (f.bytes table).take m := by
        rw [hbytes, take_append_of_le_length (by omega)]
      rw [htake]
      rcases lt_or_ge m kHeaderSize with hshort | hlong
      · refine ⟨[], yields_end ?_ ?_, .lost hlost⟩
        · rw [length_take]
          omega
        · intro hc
          have := hclean hc
          omega
      · refine ⟨[.bad], yields_cut hf hlong hlt, ?_⟩
        exact Damaged.run_lost (cons_ne_nil _ _) hlost
    · have htake : (blockBytes table (f :: b) ++ tail).take m =
          blockBytes table [f] ++ (blockBytes table b ++ tail).take (m - f.size) := by
        rw [hbytes, take_append, take_of_length_le (by omega)]
        simp [blockBytes]
      obtain ⟨es, hyields, hdamaged⟩ := @ih hrest (m - f.size) (start + f.size) (by omega)
        (fun x hx => by
          rw [hothers x hx, decide_eq_decide]
          omega)
        (fun hc => by
          have := hclean hc
          omega)
      refine ⟨.fragment f :: es, ?_, .kept ?_ hdamaged⟩
      · rw [htake]
        exact hyields.block (forall_mem_singleton.2 hf)
      · rw [hfirst, decide_eq_true_eq]
        exact Nat.add_le_add_left hge start

end

/-! ## The damaged file -/

def damagedBlock (table : CrcTable) (zeroed : ℕ → Bool) (i : ℕ) (b : List Fragment) : Bytes :=
  if zeroed i then List.replicate kBlockSize 0 else paddedBlock table b

/-- The bytes of the blocks from number `i` on, of which `m` are left. -/
def damagedBlocks (table : CrcTable) (zeroed : ℕ → Bool) (i m : ℕ) : List (List Fragment) → Bytes
  | [] => []
  | b :: blocks =>
    (damagedBlock table zeroed i b).take m ++
      damagedBlocks table zeroed (i + 1) (m - kBlockSize) blocks

@[simp] theorem damagedBlocks_zero (table : CrcTable) (zeroed : ℕ → Bool) (i : ℕ)
    (blocks : List (List Fragment)) : damagedBlocks table zeroed i 0 blocks = [] := by
  induction blocks generalizing i with
  | nil => rfl
  | cons b blocks ih => rw [damagedBlocks, take_zero, Nat.zero_sub, ih, append_nil]

theorem mapIdx_zeroed_block (zeroed : ℕ → Bool) (i : ℕ) {s : Bytes} (h : s.length ≤ kBlockSize) :
    (s.mapIdx fun j x => if zeroed ((i * kBlockSize + j) / kBlockSize) then 0 else x) =
      if zeroed i then List.replicate s.length 0 else s := by
  have hindex : ∀ j < s.length, (i * kBlockSize + j) / kBlockSize = i := by
    intro j hj
    rw [mul_comm, mul_add_div (by decide), div_eq_of_lt (by omega), add_zero]
  apply ext_getElem
  · rw [length_mapIdx]
    split_ifs
    · rw [length_replicate]
    · rfl
  · intro j hj hj'
    rw [length_mapIdx] at hj
    rw [getElem_mapIdx]
    simp only [hindex j hj]
    split_ifs
    · rw [getElem_replicate]
    · rfl

variable {blocks done : List (List Fragment)} {cut i : ℕ} {x : Fragment × Extent}
  {current : List Fragment} {table : CrcTable} {w : Writer} {records : List (Bytes × List Extent)}

theorem mapIdx_zeroed_blocks (table : CrcTable) (zeroed : ℕ → Bool)
    (hblocks : ∀ b ∈ blocks, blockSize b ≤ kBlockSize) (i m : ℕ) :
    (((blocks.flatMap (paddedBlock table)).take m).mapIdx
      fun j x => if zeroed ((i * kBlockSize + j) / kBlockSize) then 0 else x) =
      damagedBlocks table zeroed i m blocks := by
  induction blocks generalizing i m with
  | nil => rw [flatMap_nil, take_nil, mapIdx_nil, damagedBlocks]
  | cons b blocks ih =>
    obtain ⟨hb, hrest⟩ := forall_mem_cons.1 hblocks
    have hlength := length_paddedBlock table hb
    have hfirst : ((paddedBlock table b).take m).length ≤ kBlockSize := by
      rw [length_take, hlength]
      exact min_le_right _ _
    rw [flatMap_cons, take_append, hlength, mapIdx_append, damagedBlocks,
      damagedBlock, mapIdx_zeroed_block zeroed i hfirst]
    refine congrArg₂ (· ++ ·) ?_ ?_
    · split_ifs
      · rw [take_replicate, length_take, hlength]
      · rfl
    · rcases lt_or_ge m kBlockSize with hlt | hge
      · rw [Nat.sub_eq_zero_of_le hlt.le, take_zero, mapIdx_nil, damagedBlocks_zero]
      · have hindex : ∀ j, i * kBlockSize + (j + kBlockSize) = (i + 1) * kBlockSize + j := fun j => by
          rw [succ_mul]
          omega
        rw [length_take, hlength, min_eq_right hge]
        simp only [hindex]
        exact ih hrest (i + 1) (m - kBlockSize)

def survives (cut : ℕ) (zeroed : ℕ → Bool) (x : Extent) : Bool :=
  decide (x.stop ≤ cut) && !zeroed (x.start / kBlockSize)

theorem data_lt_of_blockSize {b : List Fragment} (h : blockSize b ≤ kBlockSize) :
    ∀ f ∈ b, f.data.length < 2 ^ 16 := by
  intro f hf
  have hle : f.size ≤ blockSize b := single_le_sum (by simp) _ (mem_map_of_mem hf)
  have hsize : f.size = kHeaderSize + f.data.length := rfl
  have hblock : kBlockSize = 32768 := rfl
  omega

theorem survives_of_mem_placeBlock {zeroed : ℕ → Bool} {b : List Fragment}
    (hb : blockSize b ≤ kBlockSize) (hx : x ∈ placeBlock (i * kBlockSize) b) :
    survives cut zeroed x.2 = (decide (x.2.stop ≤ cut) && !zeroed i) := by
  obtain ⟨hlow, hsize, hhigh⟩ := mem_placeBlock hx
  have hheader : kHeaderSize = 7 := rfl
  have hindex : x.2.start / kBlockSize = i := by
    rw [Nat.div_eq_iff (by decide)]
    omega
  rw [survives, hindex]

theorem lost_of_lt {zeroed : ℕ → Bool} (h : cut ≤ i * kBlockSize) :
    ∀ x ∈ placeBlocks i blocks, survives cut zeroed x.2 = false := by
  intro x hx
  obtain ⟨hlow, hlt⟩ := le_start_of_mem_placeBlocks hx
  rw [survives, decide_eq_false (by omega), Bool.false_and]

section

variable {table : CrcTable} {clean : Prop} {cut : ℕ} {zeroed : ℕ → Bool} {i : ℕ}
  {b : List Fragment} {l : List (Fragment × Extent)} {buffer : Bytes}

theorem length_damagedBlock (hb : blockSize b ≤ kBlockSize) :
    (damagedBlock table zeroed i b).length = kBlockSize := by
  rw [damagedBlock]
  split_ifs
  · exact length_replicate
  · exact length_paddedBlock table hb

theorem Damaged.kept_block {alive : Extent → Bool} {es : List Event} (h : Damaged alive l es)
    {start : ℕ} (halive : ∀ x ∈ placeBlock start b, alive x.2 = true) :
    Damaged alive (placeBlock start b ++ l) (b.map .fragment ++ es) := by
  induction b generalizing start with
  | nil => exact h
  | cons f b ih =>
    obtain ⟨hf, hothers⟩ := forall_mem_cons.1 halive
    exact .kept hf (ih hothers)

theorem yields_fullBlock (hb : blockSize b ≤ kBlockSize)
    (hfull : kBlockSize < blockSize b + kHeaderSize) (hcut : (i + 1) * kBlockSize ≤ cut)
    {rest : Bytes} (hbuffer : buffer.length < kHeaderSize)
    (h : ∀ buffer : Bytes, buffer.length < kHeaderSize →
      ∃ es, Yields table clean ⟨rest, buffer, false⟩ es ∧ Damaged (survives cut zeroed) l es) :
    ∃ es, Yields table clean ⟨damagedBlock table zeroed i b ++ rest, buffer, false⟩ es ∧
      Damaged (survives cut zeroed) (placeBlock (i * kBlockSize) b ++ l) es := by
  have hheader : kHeaderSize = 7 := rfl
  have hblock : kBlockSize = 32768 := rfl
  have hlength := @length_damagedBlock table zeroed i b hb
  have hne : placeBlock (i * kBlockSize) b ≠ [] := by
    cases b with
    | nil =>
      rw [blockSize_nil] at hfull
      omega
    | cons f b => exact cons_ne_nil _ _
  suffices hread : ∃ es, Yields table clean ⟨rest, damagedBlock table zeroed i b, false⟩ es ∧
      Damaged (survives cut zeroed) (placeBlock (i * kBlockSize) b ++ l) es by
    obtain ⟨es, hyields, hdamaged⟩ := hread
    refine ⟨es, Yields.refill hbuffer ?_, hdamaged⟩
    rw [take_left' hlength, drop_left' hlength, hlength]
    exact hyields
  rw [damagedBlock]
  cases hzeroed : zeroed i with
  | true =>
    obtain ⟨es, hyields, hdamaged⟩ := h [] (by decide)
    refine ⟨.bad :: es, hyields.zeros (by omega), .run hne (fun x hx => ?_) hdamaged⟩
    rw [survives_of_mem_placeBlock hb hx, hzeroed, Bool.not_true, Bool.and_false]
  | false =>
    obtain ⟨es, hyields, hdamaged⟩ := h (List.replicate (kBlockSize - blockSize b) 0)
      (by rw [length_replicate]; omega)
    refine ⟨b.map Event.fragment ++ es, hyields.block (data_lt_of_blockSize hb), ?_⟩
    have halive : ∀ x ∈ placeBlock (i * kBlockSize) b, survives cut zeroed x.2 = true := by
      intro x hx
      obtain ⟨-, -, hhigh⟩ := mem_placeBlock hx
      rw [succ_mul] at hcut
      rw [survives_of_mem_placeBlock hb hx, hzeroed, decide_eq_true (by omega)]
      rfl
    exact hdamaged.kept_block halive

theorem yields_shortBlock (hb : blockSize b ≤ kBlockSize) (hlow : i * kBlockSize ≤ cut)
    (hcut : cut < (i + 1) * kBlockSize) (hroom : cut < i * kBlockSize + blockSize b + kHeaderSize)
    (hempty : cut = i * kBlockSize ∨ b ≠ []) (hl : ∀ x ∈ l, survives cut zeroed x.2 = false)
    (hclean : clean → (∀ j, zeroed j = false) ∧ cut = i * kBlockSize + blockSize b)
    (hbuffer : buffer.length < kHeaderSize) :
    ∃ es, Yields table clean
        ⟨(damagedBlock table zeroed i b).take (cut - i * kBlockSize), buffer, false⟩ es ∧
      Damaged (survives cut zeroed) (placeBlock (i * kBlockSize) b ++ l) es := by
  have hlength := @length_damagedBlock table zeroed i b hb
  rw [succ_mul] at hcut
  generalize hm : cut - i * kBlockSize = m
  have hshort : ((damagedBlock table zeroed i b).take m).length < kBlockSize := by
    rw [length_take]
    omega
  suffices hread : ∃ es, Yields table clean ⟨[], (damagedBlock table zeroed i b).take m, true⟩ es ∧
      Damaged (survives cut zeroed) (placeBlock (i * kBlockSize) b ++ l) es by
    obtain ⟨es, hyields, hdamaged⟩ := hread
    refine ⟨es, Yields.refill hbuffer ?_, hdamaged⟩
    rw [take_of_length_le hshort.le, drop_of_length_le hshort.le, decide_eq_true hshort]
    exact hyields
  rw [damagedBlock]
  cases hzeroed : zeroed i with
  | true =>
    have hlost : ∀ x ∈ placeBlock (i * kBlockSize) b ++ l, survives cut zeroed x.2 = false := by
      refine forall_mem_append.2 ⟨fun x hx => ?_, hl⟩
      rw [survives_of_mem_placeBlock hb hx, hzeroed, Bool.not_true, Bool.and_false]
    rw [if_pos rfl, take_replicate, min_eq_left (by omega)]
    rcases lt_or_ge m kHeaderSize with hlt | hge
    · refine ⟨[], yields_end (by rwa [length_replicate]) fun hc => ?_, .lost hlost⟩
      rw [(hclean hc).1 i] at hzeroed
      cases hzeroed
    · refine ⟨[.bad], Yields.zeros (yields_end (by decide) fun _ => rfl) hge, ?_⟩
      refine Damaged.run_lost ?_ hlost
      obtain ⟨f, b, rfl⟩ := exists_cons_of_ne_nil (hempty.resolve_left (by omega))
      exact cons_ne_nil _ _
  | false =>
    refine yields_lastBlock (data_lt_of_blockSize hb) (by omega) (fun x hx => ?_) hl fun hc => ?_
    · rw [survives_of_mem_placeBlock hb hx, hzeroed, Bool.not_false, Bool.and_true, ← hm,
        Nat.add_sub_cancel' hlow]
    · have := (hclean hc).2
      omega

/-- The reader meets exactly the surviving fragments, and notices every loss between them. -/
theorem yields_blocks {done : List (List Fragment)} {current : List Fragment}
    (hdone : ∀ b ∈ done, blockSize b ≤ kBlockSize ∧ kBlockSize < blockSize b + kHeaderSize)
    (hfits : blockSize current ≤ kBlockSize) (hlow : i * kBlockSize ≤ cut)
    (hcut : cut ≤ (i + done.length) * kBlockSize + blockSize current)
    (hclean : clean → (∀ j, zeroed j = false) ∧
      cut = (i + done.length) * kBlockSize + blockSize current)
    (hbuffer : buffer.length < kHeaderSize) :
    ∃ es, Yields table clean
        ⟨damagedBlocks table zeroed i (cut - i * kBlockSize) (done ++ [current]), buffer, false⟩ es ∧
      Damaged (survives cut zeroed) (placeBlocks i (done ++ [current])) es := by
  have hheader : kHeaderSize = 7 := rfl
  have hblock : kBlockSize = 32768 := rfl
  have hsucc : (i + 1) * kBlockSize = i * kBlockSize + kBlockSize := succ_mul i kBlockSize
  induction done generalizing i buffer with
  | nil =>
    rw [length_nil, add_zero] at hcut hclean
    rw [nil_append, damagedBlocks, damagedBlocks, placeBlocks, placeBlocks, append_nil]
    rcases lt_or_ge cut ((i + 1) * kBlockSize) with hlt | hge
    · refine yields_shortBlock hfits hlow hlt (by omega) ?_ (by simp) hclean hbuffer
      rcases eq_or_ne current [] with rfl | hne
      · rw [blockSize_nil] at hcut
        exact .inl (by omega)
      · exact .inr hne
    · have hall : (damagedBlock table zeroed i current).take (cut - i * kBlockSize) =
          damagedBlock table zeroed i current :=
        take_of_length_le (by rw [length_damagedBlock hfits]; omega)
      have hend : ∀ buffer : Bytes, buffer.length < kHeaderSize →
          ∃ es, Yields table clean ⟨[], buffer, false⟩ es ∧ Damaged (survives cut zeroed) [] es :=
        fun buffer hbuffer => ⟨[], Yields.refill hbuffer (yields_end (by decide) fun _ => rfl),
          .lost (by simp)⟩
      have hread := yields_fullBlock hfits (by omega) hge hbuffer hend
      rw [append_nil (damagedBlock table zeroed i current)] at hread
      rw [hall]
      exact hread
  | cons b done ih =>
    obtain ⟨⟨hb, hfull⟩, hrest⟩ := forall_mem_cons.1 hdone
    have hindex : i + (done.length + 1) = i + 1 + done.length := by omega
    rw [length_cons, hindex] at hcut hclean
    have hle : (i + 1) * kBlockSize ≤ (i + 1 + done.length) * kBlockSize :=
      mul_le_mul_right _ (by omega)
    rw [cons_append, damagedBlocks, placeBlocks]
    rcases lt_or_ge cut ((i + 1) * kBlockSize) with hlt | hge
    · rw [show cut - i * kBlockSize - kBlockSize = 0 by omega, damagedBlocks_zero, append_nil]
      refine yields_shortBlock hb hlow hlt (by omega) (.inr ?_) (lost_of_lt hlt.le) ?_ hbuffer
      · rintro rfl
        rw [blockSize_nil] at hfull
        omega
      · intro hc
        have := (hclean hc).2
        omega
    · have hall : (damagedBlock table zeroed i b).take (cut - i * kBlockSize) =
          damagedBlock table zeroed i b :=
        take_of_length_le (by rw [length_damagedBlock hb]; omega)
      rw [hall, show cut - i * kBlockSize - kBlockSize = cut - (i + 1) * kBlockSize by omega]
      refine yields_fullBlock hb hfull hge hbuffer fun buffer hbuffer' => ?_
      exact @ih (i + 1) buffer hrest hge hcut hclean hbuffer' (succ_mul _ _)

end

/-! ## The log after a crash -/

def readLog (table : CrcTable) (file : Bytes) : Option (List Bytes × Reader) :=
  (Reader.init file).readRecords table checked (file.length + 1)

/-- The file of a log, and its records with the extents of their fragments. -/
def writeLog (table : CrcTable) (records : List Bytes) : Bytes × List (Bytes × List Extent) :=
  let (w, placed) := Writer.init.addRecords table records
  (w.dest, placed)

theorem damage_dest (h : IsLayout table w done current) (cut : ℕ) (zeroed : ℕ → Bool) :
    damage cut zeroed w.dest =
      damagedBlocks table zeroed 0 (min cut w.dest.length) (done ++ [current]) := by
  have hsizes : ∀ b ∈ done ++ [current], blockSize b ≤ kBlockSize :=
    forall_mem_append.2 ⟨fun b hb => (h.filled b hb).1, forall_mem_singleton.2 h.fits⟩
  have hdest : (done ++ [current]).flatMap (paddedBlock table) =
      w.dest ++ List.replicate (kBlockSize - blockSize current) 0 := by
    rw [flatMap_append, flatMap_singleton, paddedBlock, h.dest, append_assoc]
  rw [← mapIdx_zeroed_blocks table zeroed hsizes 0, hdest,
    take_append_of_le_length (min_le_right _ _), damage]
  simp only [zero_mul, zero_add]
  rw [← take_take, take_length]

theorem stop_le_of_mem_placeBlocks (h : ∀ b ∈ blocks, blockSize b ≤ kBlockSize)
    (hx : x ∈ placeBlocks i blocks) : x.2.stop ≤ (i + blocks.length) * kBlockSize := by
  induction blocks generalizing i with
  | nil => cases hx
  | cons b blocks ih =>
    obtain ⟨hb, hrest⟩ := forall_mem_cons.1 h
    have hindex : i + (blocks.length + 1) = i + 1 + blocks.length := by omega
    rw [length_cons, hindex]
    rcases mem_append.1 hx with hx | hx
    · obtain ⟨-, -, hhigh⟩ := mem_placeBlock hx
      have hle : (i + 1) * kBlockSize ≤ (i + 1 + blocks.length) * kBlockSize :=
        mul_le_mul_right _ (by omega)
      rw [succ_mul] at hle
      omega
    · exact ih hrest hx

theorem stop_le_of_mem_placed (h : IsLayout table w done current) (hx : x ∈ placed done current) :
    x.2.stop ≤ w.dest.length := by
  rw [h.length_dest]
  rw [placed, placeBlocks_append, placeBlocks_singleton, zero_add, mem_append] at hx
  rcases hx with hx | hx
  · have := stop_le_of_mem_placeBlocks (fun b hb => (h.filled b hb).1) hx
    rw [zero_add] at this
    omega
  · exact (mem_placeBlock hx).2.2

theorem IsRecords.mem_extents {fs : List (Fragment × Extent)} (h : IsRecords records fs)
    {record : Bytes × List Extent} (hrecord : record ∈ records) {e : Extent} (he : e ∈ record.2) :
    ∃ x ∈ fs, x.2 = e := by
  induction h with
  | nil => cases hrecord
  | cons _ _ ih =>
    rcases mem_cons.1 hrecord with rfl | hrecord
    · obtain ⟨x, hx, rfl⟩ := mem_map.1 he
      exact ⟨x, mem_append_left _ hx, rfl⟩
    · obtain ⟨x, hx, rfl⟩ := ih hrecord
      exact ⟨x, mem_append_right _ hx, rfl⟩

theorem survivors_congr {alive alive' : Extent → Bool}
    (h : ∀ record ∈ records, ∀ e ∈ record.2, alive e = alive' e) :
    survivors alive records = survivors alive' records := by
  refine congrArg _ (filter_congr fun record hrecord => ?_)
  rw [Bool.eq_iff_iff, all_eq_true, all_eq_true]
  exact forall₂_congr fun e he => by rw [h record hrecord e he]

theorem survivors_of_all {alive : Extent → Bool}
    (h : ∀ record ∈ records, ∀ e ∈ record.2, alive e = true) :
    survivors alive records = records.map Prod.fst := by
  rw [survivors, filter_eq_self.2]
  exact fun record hrecord => all_eq_true.2 (h record hrecord)

theorem IsLayout.readLog_damage (h : IsLayout table w done current)
    (hrecords : IsRecords records (placed done current)) (hcut : cut ≤ w.dest.length)
    (zeroed : ℕ → Bool) :
    ∃ r, readLog table (damage cut zeroed w.dest) =
        some (survivors (survives cut zeroed) records, r) ∧
      ((∀ j, zeroed j = false) → cut = w.dest.length → r.reports = []) := by
  have hlength := h.length_dest
  obtain ⟨es, hyields, hdamaged⟩ := @yields_blocks table
    ((∀ j, zeroed j = false) ∧ cut = w.dest.length) cut zeroed 0 [] done current h.filled h.fits
    (by rw [zero_mul]; exact zero_le _) (by rw [zero_add, ← hlength]; exact hcut)
    (fun hc => ⟨hc.1, by rw [zero_add, ← hlength]; exact hc.2⟩) (by decide)
  rw [Nat.zero_mul, Nat.sub_zero] at hyields
  rw [readLog, damage_dest h, min_eq_left hcut]
  obtain ⟨r, hread, hquiet⟩ := @Yields.readRecords table _ _ es hyields
    ((damagedBlocks table zeroed 0 cut (done ++ [current])).length + 1)
    (by rw [Source.size, length_nil]; exact lt_succ_self _) (Reader.init _) rfl
  refine ⟨r, ?_, fun hzeroed hall => ?_⟩
  · rw [hread, hdamaged.collect_eq, ← placed, collect_records hrecords]
  · refine hquiet ⟨hzeroed, hall⟩ ?_
    have hkept : ∀ x ∈ placed done current, survives cut zeroed x.2 = true := by
      intro x hx
      have := stop_le_of_mem_placed h hx
      rw [survives, hzeroed, decide_eq_true (by omega)]
      rfl
    rw [hdamaged.eq_map hkept]
    exact orderly_records hrecords

/-- After any cut and any zeroed blocks the reader returns exactly the records all of whose fragments
survive, in order, and then ends.  The undamaged log is read in full without a report. -/
theorem log_recovery (table : CrcTable) (records : List Bytes) :
    (writeLog table records).2.map Prod.fst = records ∧
    (∀ cut zeroed, ∃ r, readLog table (damage cut zeroed (writeLog table records).1) =
      some (survivors (survives cut zeroed) (writeLog table records).2, r)) ∧
    ∃ r, readLog table (writeLog table records).1 = some (records, r) ∧ r.reports = [] := by
  obtain ⟨done, current, fs, h, hplaced, hrecords, hfst⟩ := (isLayout_init table).addRecords records
  rw [show fs = placed done current from hplaced.symm] at hrecords
  unfold writeLog
  generalize Writer.init.addRecords table records = log at h hrecords hfst ⊢
  obtain ⟨w, written⟩ := log
  have hstop : ∀ record ∈ written, ∀ e ∈ record.2, e.stop ≤ w.dest.length := by
    intro record hrecord e he
    obtain ⟨x, hx, rfl⟩ := hrecords.mem_extents hrecord he
    exact stop_le_of_mem_placed h hx
  refine ⟨hfst, fun cut zeroed => ?_, ?_⟩
  · obtain ⟨r, hread, -⟩ := h.readLog_damage hrecords (min_le_right cut w.dest.length) zeroed
    have htake : damage (min cut w.dest.length) zeroed w.dest = damage cut zeroed w.dest := by
      rw [damage, damage, ← take_take, take_length]
    rw [htake] at hread
    refine ⟨r, hread.trans ?_⟩
    rw [survivors_congr fun record hrecord e he => ?_]
    have := hstop record hrecord e he
    rw [survives]
    congr 1
    rw [decide_eq_decide]
    omega
  · obtain ⟨r, hread, hquiet⟩ := h.readLog_damage hrecords le_rfl fun _ => false
    have hwhole : damage w.dest.length (fun _ => false) w.dest = w.dest := by
      rw [damage]
      exact ext_getElem (by simp) fun i _ _ => by simp
    rw [hwhole, survivors_of_all fun record hrecord e he => ?_, hfst] at hread
    · exact ⟨r, hread, hquiet (fun _ => rfl) rfl⟩
    · rw [survives, decide_eq_true (hstop record hrecord e he)]
      rfl

end ServerStack.Leveldb.Log
