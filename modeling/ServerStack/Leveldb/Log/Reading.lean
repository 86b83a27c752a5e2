import ServerStack.Leveldb.Log.Layout

/-!
# Reading a log

What `log::Reader` makes of the physical records that it finds.  It sees a sequence of fragments and
of places where it had to drop something; from this alone follow the records that it returns.
-/

namespace ServerStack.Leveldb.Log

open Endian List

def checked : ReaderOptions := ⟨true, 0⟩

/-! ## One physical record -/

section

variable {table : CrcTable} {r : Reader} {f : Fragment}

@[simp] theorem typeCode_code (t : RecordType) : typeCode t.code = t.code.toNat := by
  cases t <;> rfl

theorem code_ne_zero (t : RecordType) : t.code ≠ 0 := by
  cases t <;> decide

theorem header_fields (hf : f.data.length < 2 ^ 16) (rest : Bytes) :
    (f.bytes table ++ rest).getD 6 0 = f.type.code ∧
    ofLittleEndian (((f.bytes table ++ rest).drop 4).take 2) = f.data.length ∧
    (f.bytes table ++ rest).drop 6 = f.type.code :: (f.data ++ rest) ∧
    crcUnmask (decodeFixed32 (f.bytes table ++ rest)) = crcValue table (f.type.code :: f.data) := by
  have hshape : ∀ v : UInt32, ∃ b₀ b₁ b₂ b₃, encodeFixed32 v = [b₀, b₁, b₂, b₃] := fun v =>
    ⟨_, _, _, _, rfl⟩
  have hcrc : crcUnmask (decodeFixed32 (f.bytes table ++ rest)) =
      crcValue table (f.type.code :: f.data) := by
    rw [Fragment.bytes, physicalRecord, append_assoc, append_assoc,
      decodeFixed32_encodeFixed32, crcUnmask_crcMask, crcValue, crcExtend_append,
      singleton_append, ← crcValue]
  have hlength : ofLittleEndian [UInt8.ofNat (f.data.length % 256),
      UInt8.ofNat (f.data.length / 256)] = f.data.length := by
    simp only [ofLittleEndian, UInt8.toNat_ofNat']
    omega
  obtain ⟨b₀, b₁, b₂, b₃, hb⟩ := hshape
      (crcMask (crcExtend table (crcValue table [f.type.code]) f.data))
  have hbytes : f.bytes table ++ rest = b₀ :: b₁ :: b₂ :: b₃ ::
      UInt8.ofNat (f.data.length % 256) :: UInt8.ofNat (f.data.length / 256) :: f.type.code ::
      (f.data ++ rest) := by
    rw [Fragment.bytes, physicalRecord, hb]
    rfl
  refine ⟨by rw [hbytes]; rfl, ?_, by rw [hbytes]; rfl, hcrc⟩
  exact hlength

theorem parseHeader_bytes (hf : f.data.length < 2 ^ 16) {rest : Bytes}
    (hbuffer : r.buffer = f.bytes table ++ rest) :
    r.parseHeader table checked = (f.type.code.toNat, f.data, { r with buffer := rest }) := by
  obtain ⟨htype, hlength, hdrop, hcrc⟩ := @header_fields table f hf rest
  have hsize : (f.bytes table ++ rest).length = kHeaderSize + f.data.length + rest.length := by
    rw [length_append, Fragment.length_bytes, Fragment.size]
  have hrest : (f.bytes table ++ rest).drop (kHeaderSize + f.data.length) = rest :=
    drop_left' (by rw [Fragment.length_bytes, Fragment.size])
  have hdata : ((f.bytes table ++ rest).drop kHeaderSize).take f.data.length = f.data := by
    have : (f.bytes table ++ rest).drop kHeaderSize = f.data ++ rest := by
      rw [show kHeaderSize = 6 + 1 from rfl, ← drop_drop, hdrop, drop_succ_cons, drop_zero]
    rw [this, take_left]
  have htake : ((f.bytes table ++ rest).drop 6).take (1 + f.data.length) =
      f.type.code :: f.data := by
    rw [hdrop, Nat.add_comm, take_succ_cons, take_left]
  rw [Reader.parseHeader, hbuffer]
  simp only [htype, hlength, hrest, hdata, htake, hcrc]
  rw [if_neg (by omega), if_neg fun h => code_ne_zero f.type h.1, if_neg (by simp),
    if_neg (by simp only [checked, Nat.cast_zero, not_lt]; exact Int.emod_nonneg _ (by norm_num)),
    typeCode_code]

theorem parseHeader_cut (hf : f.data.length < 2 ^ 16) {m : ℕ} (hm : kHeaderSize ≤ m)
    (hlt : m < f.size) (hbuffer : r.buffer = (f.bytes table).take m) :
    r.parseHeader table checked = (kBadRecord, [], r.dropBuffer checked "bad record length") := by
  have hheader : kHeaderSize = 7 := rfl
  have hlength : ofLittleEndian ((((f.bytes table).take m).drop 4).take 2) = f.data.length := by
    obtain ⟨-, hlength, -⟩ := @header_fields table f hf []
    rw [append_nil] at hlength
    rw [drop_take, take_take, Nat.min_eq_left (by omega), hlength]
  have hsize : ((f.bytes table).take m).length = m := by
    rw [length_take, Fragment.length_bytes]
    omega
  rw [Reader.parseHeader, hbuffer, if_pos]
  rw [hlength, hsize]
  exact hlt

theorem parseHeader_zeros {n : ℕ} (hn : kHeaderSize ≤ n) (hbuffer : r.buffer = List.replicate n 0) :
    r.parseHeader table checked = (kBadRecord, [], { r with buffer := [] }) := by
  have hheader : kHeaderSize = 7 := rfl
  have hlength : ofLittleEndian (((List.replicate n (0 : UInt8)).drop 4).take 2) = 0 := by
    rw [drop_replicate, take_replicate, Nat.min_eq_left (by omega)]
    rfl
  have htype : (List.replicate n (0 : UInt8)).getD 6 0 = 0 := by
    rw [getD_replicate 0 (by omega)]
  rw [Reader.parseHeader, hbuffer]
  simp only [hlength, htype, length_replicate]
  rw [if_neg (by omega), if_pos (by simp)]

end

/-! ## What the reader sees -/

/-- The part of the reader that decides what it reads next. -/
structure Source where
  file : Bytes
  buffer : Bytes
  eof : Bool

def Source.size (src : Source) : ℕ := src.file.length + src.buffer.length

def Reader.source (r : Reader) : Source := ⟨r.file, r.buffer, r.eof⟩

@[simp] theorem Reader.source_reportCorruption (o : ReaderOptions) (r : Reader) (bytes : ℕ)
    (reason : String) : (r.reportCorruption o bytes reason).source = r.source := by
  rw [Reader.reportCorruption]
  split_ifs <;> rfl

@[simp] theorem Reader.source_endPartial (o : ReaderOptions) (r : Reader) (inside : Bool)
    (scratch : Bytes) (reason : String) :
    (r.endPartial o inside scratch reason).source = r.source := by
  rw [Reader.endPartial]
  split_ifs
  · exact r.source_reportCorruption o _ reason
  · rfl

/-- A result of `ReadPhysicalRecord` other than the end of the file. -/
inductive Event where
  | fragment (f : Fragment)
  | bad

/-- The events that the reader meets up to the end of the file, which it reaches without a report if
`clean` holds. -/
inductive Yields (table : CrcTable) (clean : Prop) : Source → List Event → Prop
  | eof {src : Source}
      (h : ∀ r : Reader, r.source = src → ∃ r', r.readPhysicalRecord table checked = (kEof, [], r') ∧
        (clean → r'.reports = r.reports)) :
      Yields table clean src []
  | fragment {src src' : Source} {f : Fragment} {es : List Event}
      (h : ∀ r : Reader, r.source = src → ∃ r',
        r.readPhysicalRecord table checked = (f.type.code.toNat, f.data, r') ∧
          r'.source = src' ∧ r'.reports = r.reports)
      (hsize : src'.size < src.size) (hes : Yields table clean src' es) :
      Yields table clean src (.fragment f :: es)
  | bad {src src' : Source} {es : List Event} (h : ∀ r : Reader, r.source = src → ∃ r',
        r.readPhysicalRecord table checked = (kBadRecord, [], r') ∧ r'.source = src')
      (hsize : src'.size < src.size) (hes : Yields table clean src' es) :
      Yields table clean src (.bad :: es)

/-- The record that `ReadRecord` returns and the events after it, with the fragments of a record that
has been begun. -/
def nextRecord : Option Bytes → List Event → Option (Bytes × List Event)
  | _, [] => none
  | _, .bad :: es => nextRecord none es
  | scratch, .fragment ⟨type, data⟩ :: es =>
    match type, scratch with
    | .full, _ => some (data, es)
    | .first, _ => nextRecord (some data) es
    | .middle, some s => nextRecord (some (s ++ data)) es
    | .middle, none => nextRecord none es
    | .last, some s => some (s ++ data, es)
    | .last, none => nextRecord none es

def Orderly : Option Bytes → List Event → Prop
  | scratch, [] => scratch = none
  | _, .bad :: _ => False
  | scratch, .fragment ⟨type, data⟩ :: es =>
    match type, scratch with
    | .full, none => Orderly none es
    | .first, none => Orderly (some data) es
    | .middle, some s => Orderly (some (s ++ data)) es
    | .last, some _ => Orderly none es
    | _, _ => False

/-- The variable `scratch`, if `in_fragmented_record` is set. -/
def begun (inside : Bool) (scratch : Bytes) : Option Bytes := if inside then some scratch else none

/-- What is known of a call of `ReadRecord`. -/
structure Returns (table : CrcTable) (clean : Prop) (scratch : Option Bytes) (es : List Event)
    (size : ℕ) (r : Reader) (result : Option Bytes) (r' : Reader) : Prop where
  result : result = (nextRecord scratch es).map Prod.fst
  rest : ∀ record es', nextRecord scratch es = some (record, es') →
    Yields table clean r'.source es' ∧ r'.source.size < size
  quiet : clean → Orderly scratch es → r'.reports = r.reports ∧
    ∀ record es', nextRecord scratch es = some (record, es') → Orderly none es'

variable {table : CrcTable} {clean : Prop}

theorem Returns.step {x : Option (Option Bytes × Reader)} {scratch scratch' : Option Bytes} {e : Event}
    {es : List Event} {size size' : ℕ} {r r₁ : Reader}
    (h : ∃ result r', x = some (result, r') ∧ Returns table clean scratch' es size' r₁ result r')
    (hsize : size' < size) (hnext : nextRecord scratch (e :: es) = nextRecord scratch' es)
    (hquiet : Orderly scratch (e :: es) → Orderly scratch' es ∧ r₁.reports = r.reports) :
    ∃ result r', x = some (result, r') ∧ Returns table clean scratch (e :: es) size r result r' := by
  obtain ⟨result, r', hx, h⟩ := h
  refine ⟨result, r', hx, by rw [h.result, hnext], ?_, ?_⟩
  · intro record es' hrecord
    rw [hnext] at hrecord
    exact (h.rest record es' hrecord).imp_right fun hlt => hlt.trans hsize
  · intro hclean horderly
    obtain ⟨horderly', hreports⟩ := hquiet horderly
    rw [hnext, ← hreports]
    exact h.quiet hclean horderly'

theorem Returns.done {scratch : Option Bytes} {e : Event}
    {es : List Event} {size : ℕ} {r r' : Reader} {record : Bytes}
    (hnext : nextRecord scratch (e :: es) = some (record, es))
    (hes : Yields table clean r'.source es) (hsize : r'.source.size < size)
    (hquiet : Orderly scratch (e :: es) → Orderly none es ∧ r'.reports = r.reports) :
    Returns table clean scratch (e :: es) size r (some record) r' where
  result := by rw [hnext, Option.map_some]
  rest record' es' hrecord := by
    rw [hnext] at hrecord
    cases hrecord
    exact ⟨hes, hsize⟩
  quiet _ horderly := by
    refine ⟨(hquiet horderly).2, fun record' es' hrecord => ?_⟩
    rw [hnext] at hrecord
    cases hrecord
    exact (hquiet horderly).1

theorem Yields.readRecordLoop {src : Source} {es : List Event}
    (h : Yields table clean src es) {fuel : ℕ} (hfuel : src.size < fuel) {inside : Bool}
    {scratch : Bytes} {prospective : ℕ} {r : Reader} (hr : r.source = src) :
    ∃ result r', r.readRecordLoop table checked fuel inside scratch prospective = some (result, r') ∧
      Returns table clean (begun inside scratch) es src.size r result r' := by
  induction h generalizing fuel inside scratch prospective r with
  | eof h =>
    obtain ⟨fuel, rfl⟩ : ∃ k, fuel = k + 1 := ⟨fuel - 1, by omega⟩
    obtain ⟨r', hread, hreports⟩ := h r hr
    refine ⟨none, if inside then
      r'.reportCorruption checked scratch.length "partial record without end(3)" else r', ?_, ?_⟩
    · rw [Reader.readRecordLoop]
      simp only [hread]
      rfl
    · refine ⟨rfl, nofun, fun hclean horderly => ⟨?_, nofun⟩⟩
      cases inside with
      | true => cases horderly
      | false => exact hreports hclean
  | @fragment src src' f es h hsize hes ih =>
    obtain ⟨fuel, rfl⟩ : ∃ k, fuel = k + 1 := ⟨fuel - 1, by omega⟩
    obtain ⟨r', hread, hsource, hreports⟩ := h r hr
    obtain ⟨type, data⟩ := f
    rw [Reader.readRecordLoop]
    simp only [hread]
    cases type with
    | full =>
      have hsource' : (r'.endPartial checked inside scratch "partial record without end(1)").source =
          src' := (r'.source_endPartial checked inside scratch _).trans hsource
      refine ⟨_, _, rfl, Returns.done rfl (hsource' ▸ hes) (hsource' ▸ hsize) fun horderly => ?_⟩
      cases inside with
      | true => exact horderly.elim
      | false => exact ⟨horderly, hreports⟩
    | first =>
      refine Returns.step (ih (by omega) ((r'.source_endPartial checked inside scratch _).trans hsource))
        hsize rfl fun horderly => ?_
      cases inside with
      | true => exact horderly.elim
      | false => exact ⟨horderly, hreports⟩
    | middle =>
      cases inside with
      | true =>
        exact Returns.step (ih (by omega) hsource) hsize rfl fun horderly => ⟨horderly, hreports⟩
      | false =>
        exact Returns.step (ih (by omega) ((r'.source_reportCorruption _ _ _).trans hsource)) hsize rfl
          False.elim
    | last =>
      cases inside with
      | true =>
        exact ⟨_, _, rfl, Returns.done rfl (hsource ▸ hes) (hsource ▸ hsize) fun horderly =>
          ⟨horderly, hreports⟩⟩
      | false =>
        exact Returns.step (ih (by omega) ((r'.source_reportCorruption _ _ _).trans hsource)) hsize rfl
          False.elim
  | @bad src src' es h hsize hes ih =>
    obtain ⟨fuel, rfl⟩ : ∃ k, fuel = k + 1 := ⟨fuel - 1, by omega⟩
    obtain ⟨r', hread, hsource⟩ := h r hr
    rw [Reader.readRecordLoop]
    simp only [hread]
    cases inside with
    | true =>
      exact Returns.step (ih (by omega) ((r'.source_reportCorruption _ _ _).trans hsource)) hsize rfl
        False.elim
    | false => exact Returns.step (ih (by omega) hsource) hsize rfl False.elim

/-! ## All records -/

/-- The records that repeated calls of `ReadRecord` return. -/
def collect : Option Bytes → List Event → List Bytes
  | _, [] => []
  | _, .bad :: es => collect none es
  | scratch, .fragment ⟨type, data⟩ :: es =>
    match type, scratch with
    | .full, _ => data :: collect none es
    | .first, _ => collect (some data) es
    | .middle, some s => collect (some (s ++ data)) es
    | .middle, none => collect none es
    | .last, some s => (s ++ data) :: collect none es
    | .last, none => collect none es

theorem collect_of_nextRecord (scratch : Option Bytes) (es : List Event) :
    (nextRecord scratch es = none → collect scratch es = []) ∧
    ∀ record es', nextRecord scratch es = some (record, es') →
      collect scratch es = record :: collect none es' := by
  induction es generalizing scratch with
  | nil => exact ⟨fun _ => rfl, nofun⟩
  | cons e es ih =>
    cases e with
    | bad => exact ih none
    | fragment f =>
      obtain ⟨type, data⟩ := f
      cases type with
      | full =>
        refine ⟨nofun, fun record es' h => ?_⟩
        cases h
        rfl
      | first => exact ih (some data)
      | middle =>
        cases scratch with
        | none => exact ih none
        | some s => exact ih (some (s ++ data))
      | last =>
        cases scratch with
        | none => exact ih none
        | some s =>
          refine ⟨nofun, fun record es' h => ?_⟩
          cases h
          rfl

theorem Yields.readRecords {src : Source} {es : List Event}
    (h : Yields table clean src es) {fuel : ℕ} (hfuel : src.size < fuel) {r : Reader}
    (hr : r.source = src) :
    ∃ r', r.readRecords table checked fuel = some (collect none es, r') ∧
      (clean → Orderly none es → r'.reports = r.reports) := by
  induction fuel generalizing src es r with
  | zero => omega
  | succ fuel ih =>
    obtain ⟨result, r₁, hloop, hreturns⟩ := @Yields.readRecordLoop table clean src es h
      (src.size + 1) (Nat.lt_succ_self _) false [] 0 r hr
    have hread : r.readRecord table checked = some (result, r₁) := by
      rw [← hr] at hloop
      exact hloop
    rw [Reader.readRecords, hread]
    cases hnext : nextRecord none es with
    | none =>
      have hresult : result = none := by
        rw [hreturns.result, begun, if_neg Bool.false_ne_true, hnext]
        rfl
      rw [hresult, (collect_of_nextRecord none es).1 hnext]
      exact ⟨r₁, rfl, fun hclean horderly => (hreturns.quiet hclean horderly).1⟩
    | some p =>
      obtain ⟨record, es'⟩ := p
      have hresult : result = some record := by
        rw [hreturns.result, begun, if_neg Bool.false_ne_true, hnext]
        rfl
      obtain ⟨hes', hsize⟩ := hreturns.rest record es' hnext
      obtain ⟨r₂, hrest, hquiet⟩ := ih hes' (by omega) rfl
      rw [hresult, (collect_of_nextRecord none es).2 record es' hnext]
      simp only [hrest]
      refine ⟨r₂, rfl, fun hclean horderly => ?_⟩
      obtain ⟨hreports, hnone⟩ := hreturns.quiet hclean horderly
      exact (hquiet hclean (hnone record es' hnext)).trans hreports

end ServerStack.Leveldb.Log
