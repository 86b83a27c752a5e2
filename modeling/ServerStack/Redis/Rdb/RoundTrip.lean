import ServerStack.Redis.Rdb.Strings

/-!
# Loading what was saved

Every length, integer and string that is saved loads back as itself and leaves exactly what follows
it in the file.  There are two exceptions.  A string of `2 ^ 31` bytes has a negative length when it
is loaded.  The number of bytes written for a compressed string is an `int`, too:
`rdbSaveRawString` takes a negative one for a failed compression and stores the string a second
time.
-/

namespace ServerStack.Redis.Rdb

open Util Decimal Endian Networking List

/-! ## Lengths -/

theorem rioRead_append (bs rest : Bytes) : rioRead (bs ++ rest) bs.length = some (bs, rest) := by
  rw [rioRead, if_pos (by simp), take_left, drop_left]

theorem rioRead_append_of_length {bs : Bytes} {n : ℕ} (h : bs.length = n) (rest : Bytes) :
    rioRead (bs ++ rest) n = some (bs, rest) := by
  rw [← h, rioRead_append]

theorem sixBits (n : Fin 64) : (UInt8.ofNat n &&& 0xC0) >>> 6 = 0 ∧
    (UInt8.ofNat n &&& 0x3F).toNat = n := by
  revert n
  decide +kernel

theorem fourteenBits (n : Fin 64) : ((UInt8.ofNat n ||| (1 : UInt8) <<< 6) &&& 0xC0) >>> 6 = 1 ∧
    ((UInt8.ofNat n ||| (1 : UInt8) <<< 6) &&& 0x3F).toNat = n := by
  revert n
  decide +kernel

theorem encValBits (n : Fin 64) : (encVal (UInt8.ofNat n) &&& 0xC0) >>> 6 = 3 ∧
    (encVal (UInt8.ofNat n) &&& 0x3F).toNat = n := by
  revert n
  decide +kernel

theorem rdbLoadLen_rdbSaveLen {len : ℕ} (h : len < 2 ^ 32) (rest : Bytes) :
    rdbLoadLen (rdbSaveLen len ++ rest) = (false, len, rest) := by
  rw [rdbSaveLen, Nat.mod_eq_of_lt h]
  by_cases h6 : len < 2 ^ 6
  · obtain ⟨htype, hlen⟩ := sixBits ⟨len, h6⟩
    simp only [if_pos h6, singleton_append, rdbLoadLen, htype, hlen]
    rfl
  by_cases h14 : len < 2 ^ 14
  · obtain ⟨htype, hhigh⟩ := fourteenBits ⟨len / 256, by omega⟩
    have hlow : (UInt8.ofNat len).toNat = len % 256 := UInt8.toNat_ofNat'
    have hsum : len / 256 * 256 + len % 256 = len := by omega
    simp only [if_neg h6, if_pos h14, cons_append, nil_append, rdbLoadLen, htype, hhigh, hlow, hsum]
    rfl
  · have hread := rioRead_append_of_length (length_bigEndian 4 len) rest
    have hvalue : ofBigEndian (bigEndian 4 len) = len := ofBigEndian_bigEndian h
    have htype : ((2 : UInt8) <<< 6 &&& 0xC0) >>> 6 = 2 := by decide
    simp only [if_neg h6, if_neg h14, cons_append, rdbLoadLen, htype, hread, hvalue]
    rfl

theorem rdbLoadLen_encVal {enc : ℕ} (h : enc < 64) (rest : Bytes) :
    rdbLoadLen (encVal (UInt8.ofNat enc) :: rest) = (true, enc, rest) := by
  obtain ⟨htype, henc⟩ := encValBits ⟨enc, h⟩
  simp only [rdbLoadLen, htype, henc, if_true]

theorem length_rdbSaveLen_le (len : ℕ) : (rdbSaveLen len).length ≤ 5 := by
  rw [rdbSaveLen]
  split_ifs <;> simp

theorem length_rdbSaveLen {len : ℕ} (hlen : 2 ^ 14 ≤ len) (h : len < 2 ^ 32) :
    (rdbSaveLen len).length = 5 := by
  rw [rdbSaveLen, Nat.mod_eq_of_lt h, if_neg (by omega), if_neg (by omega), length_cons,
    length_bigEndian]

theorem rdbSaveLen_ne_nil (len : ℕ) : rdbSaveLen len ≠ [] := by
  rw [rdbSaveLen]
  split_ifs <;> exact cons_ne_nil _ _

/-! ## Strings -/

section

variable {lzfCompress : Bytes → ℕ → Bytes} {lzfDecompress : Bytes → ℕ → Option Bytes}

/-- What `lzf_compress` writes fits the buffer, and `lzf_decompress` inverts it. -/
def LzfInverts (lzfCompress : Bytes → ℕ → Bytes) (lzfDecompress : Bytes → ℕ → Option Bytes) :
    Prop :=
  ∀ s outlen, lzfCompress s outlen ≠ [] → (lzfCompress s outlen).length ≤ outlen ∧
      lzfDecompress (lzfCompress s outlen) s.length = some s

/-- Whatever follows in the file, the bytes load as the string `s` and nothing else is consumed. -/
def LoadsAs (lzfDecompress : Bytes → ℕ → Option Bytes) (bytes s : Bytes) : Prop :=
  ∀ encode rest, ∃ o, rdbGenericLoadStringObject lzfDecompress encode (bytes ++ rest) =
    .ok (o, rest) ∧ o.string = s

variable {s : Bytes}

theorem toInt_nonneg_iff {n : ℕ} (h : n < lenErr) : 0 ≤ toInt n ↔ n < 2 ^ 31 := by
  rw [lenErr] at h
  rw [toInt, Int.bmod_def]
  split_ifs <;> omega

theorem rdbGenericLoadStringObject_verbatim (h : s.length < lenErr) (encode : Bool) (rest : Bytes) :
    rdbGenericLoadStringObject lzfDecompress encode (rdbSaveLen s.length ++ s ++ rest) =
      createObject s.length s rest := by
  have hlen : s.length < 2 ^ 32 := by rw [lenErr] at h; omega
  rw [rdbGenericLoadStringObject, append_assoc, rdbLoadLen_rdbSaveLen hlen]
  simp only [Bool.false_eq_true, if_false, if_neg h.ne, rioRead_append]

/-- Bytes from which the string is loaded load as the string if its length is not negative and
nothing is left of what was written. -/
theorem loadsAs_append_iff {bytes : Bytes} (h : s.length < lenErr) (hload : ∀ encode rest,
    rdbGenericLoadStringObject lzfDecompress encode (bytes ++ rest) =
      createObject s.length s rest) (more : Bytes) :
    LoadsAs lzfDecompress (bytes ++ more) s ↔ s.length < 2 ^ 31 ∧ more = [] := by
  rw [LoadsAs, ← toInt_nonneg_iff h]
  simp only [append_assoc, hload, createObject]
  constructor
  · intro hall
    obtain ⟨o, ho, -⟩ := hall true []
    split_ifs at ho with hpos
    rw [append_nil] at ho
    exact ⟨hpos, (Prod.mk.inj (Except.ok.inj ho)).2⟩
  · rintro ⟨hpos, rfl⟩ encode rest
    exact ⟨.sds .raw s, if_pos hpos, rfl⟩

theorem loadsAs_iff {bytes : Bytes} (h : s.length < lenErr) (hload : ∀ encode rest,
    rdbGenericLoadStringObject lzfDecompress encode (bytes ++ rest) =
      createObject s.length s rest) : LoadsAs lzfDecompress bytes s ↔ s.length < 2 ^ 31 := by
  simpa using loadsAs_append_iff h hload []

theorem loadsAs_verbatim (h : s.length < lenErr) :
    LoadsAs lzfDecompress (rdbSaveLen s.length ++ s) s ↔ s.length < 2 ^ 31 :=
  loadsAs_iff h (rdbGenericLoadStringObject_verbatim h)

theorem loadsAs_integer {enc : ℕ} {value : ℤ} (henc : enc ≤ 2)
    (h : FitsSigned (2 ^ enc) value) (hlong : IsLongLong value) :
    LoadsAs lzfDecompress (encVal (UInt8.ofNat enc) :: littleEndianInt (2 ^ enc) value)
      (decimalInt value) := by
  intro encode rest
  have hread := rioRead_append_of_length (length_littleEndianInt (2 ^ enc) value) rest
  have hvalue := ofLittleEndianInt_littleEndianInt h
  rw [rdbGenericLoadStringObject, cons_append, rdbLoadLen_encVal (by omega)]
  simp only [if_true, if_pos henc, rdbLoadIntegerObject, hread, hvalue]
  by_cases hencode : encode = true ∧ IsLongLong value
  · exact ⟨.int value hlong, by rw [dif_pos hencode], rfl⟩
  · refine ⟨.sds .raw (ll2string 32 value), by rw [dif_neg hencode], ?_⟩
    exact ll2string_eq hlong (by decide)

theorem loadsAs_rdbEncodeInteger {value : ℤ} {buf : Bytes} (h : rdbEncodeInteger value = some buf)
    (hlong : IsLongLong value) : LoadsAs lzfDecompress buf (decimalInt value) := by
  rw [rdbEncodeInteger] at h
  split_ifs at h with h8 h16 h32 <;> obtain rfl := Option.some.inj h
  · exact @loadsAs_integer _ 0 _ (by omega) ⟨h8.1, Int.lt_of_le_sub_one h8.2⟩ hlong
  · exact @loadsAs_integer _ 1 _ (by omega) ⟨h16.1, Int.lt_of_le_sub_one h16.2⟩ hlong
  · exact @loadsAs_integer _ 2 _ (by omega) ⟨h32.1, Int.lt_of_le_sub_one h32.2⟩ hlong

theorem loadsAs_rdbSaveLongLongAsStringObject {value : ℤ} (h : IsLongLong value) :
    LoadsAs lzfDecompress (rdbSaveLongLongAsStringObject value) (decimalInt value) := by
  rw [rdbSaveLongLongAsStringObject]
  cases henc : rdbEncodeInteger value with
  | some buf => exact loadsAs_rdbEncodeInteger henc h
  | none =>
    have hlen : (ll2string 32 value).length < 32 := length_ll2string_lt (by decide) value
    rw [← ll2string_eq h (show 21 ≤ 32 by decide)]
    exact (loadsAs_verbatim (by rw [lenErr]; omega)).2 (by omega)

/-- The integer form is taken only for a string that is printed from the integer, whatever follows
the string in memory. -/
theorem loadsAs_rdbTryIntegerEncoding {after buf : Bytes}
    (h : rdbTryIntegerEncoding s after = some buf) : LoadsAs lzfDecompress buf s := by
  have hlong := isLongLong_strtoll (s ++ after)
  simp only [rdbTryIntegerEncoding] at h
  split_ifs at h with hend hsame
  rw [not_not] at hsame
  rw [← hsame, ll2string_eq hlong (by decide)]
  exact loadsAs_rdbEncodeInteger h hlong

theorem rdbGenericLoadStringObject_lzfRecord {out : Bytes} (hout : out.length < lenErr)
    (h : s.length < lenErr) (hlzf : lzfDecompress out s.length = some s) (encode : Bool)
    (rest : Bytes) : rdbGenericLoadStringObject lzfDecompress encode
      (lzfRecord out s.length ++ rest) = createObject s.length s rest := by
  have hlen : ∀ {n}, n < lenErr → n < 2 ^ 32 := fun hn => by rw [lenErr] at hn; omega
  rw [rdbGenericLoadStringObject, lzfRecord, cons_append,
    show encVal 3 = encVal (UInt8.ofNat 3) from rfl, @rdbLoadLen_encVal 3 (by decide)]
  simp only [if_true, rdbLoadLzfStringObject, append_assoc, if_neg (show ¬ 3 ≤ 2 by decide),
    rdbLoadLen_rdbSaveLen (hlen hout), rdbLoadLen_rdbSaveLen (hlen h), if_neg hout.ne, if_neg h.ne,
    rioRead_append, hlzf]

/-! ## Written once -/

/-- The length of the string is an `int`, and so is the number of bytes written for its compressed
form, 11 of them before the compressed string. -/
def LengthsFit (lzfCompress : Bytes → ℕ → Bytes) (rdbCompression : Bool) (s : Bytes) : Prop :=
  s.length < 2 ^ 31 ∧ (rdbCompression = true → 20 < s.length →
    (lzfCompress s (s.length - 4)).length + 11 < 2 ^ 31)

instance (rdbCompression : Bool) (s : Bytes) :
    Decidable (LengthsFit lzfCompress rdbCompression s) := inferInstanceAs (Decidable (_ ∧ _))

theorem toInt_lzfRecord {out : Bytes} {len : ℕ} (hout : out.length ≤ len - 4) (h : len < 2 ^ 31) :
    (0 < toInt (lzfRecord out len).length ↔ out.length + 11 < 2 ^ 31) ∧
      toInt (lzfRecord out len).length ≠ -1 := by
  have hlength : (lzfRecord out len).length =
      1 + (rdbSaveLen out.length).length + (rdbSaveLen len).length + out.length := by
    simp only [lzfRecord, length_cons, length_append]
    omega
  have houtle := length_rdbSaveLen_le out.length
  have hle := length_rdbSaveLen_le len
  rw [toInt, Int.bmod_def]
  by_cases hshort : out.length + 11 < 2 ^ 31
  · refine ⟨iff_of_true ?_ hshort, ?_⟩ <;> split_ifs <;> omega
  · have houtlen : (rdbSaveLen out.length).length = 5 := length_rdbSaveLen (by omega) (by omega)
    have hlen : (rdbSaveLen len).length = 5 := length_rdbSaveLen (by omega) (by omega)
    split_ifs <;> omega

theorem saveVerbatim_fst (s : Bytes) : (saveVerbatim s).1 = rdbSaveLen s.length ++ s := by
  rw [saveVerbatim]
  split_ifs <;> rfl

theorem toInt_ne_of_lt {n : ℕ} (h : n < lenErr) : toInt n ≠ -1 := by
  rw [lenErr] at h
  rw [toInt, Int.bmod_def]
  split_ifs <;> omega

/-- Without the integer form the string loads back if and only if it was stored once. -/
theorem loadsAs_saveCompressed (hlzf : LzfInverts lzfCompress lzfDecompress) (rdbCompression : Bool)
    (h : s.length < lenErr) :
    LoadsAs lzfDecompress (saveCompressed lzfCompress rdbCompression s).1 s ↔
      LengthsFit lzfCompress rdbCompression s := by
  have hverbatim : LoadsAs lzfDecompress (saveVerbatim s).1 s ↔ s.length < 2 ^ 31 := by
    rw [saveVerbatim_fst]
    exact loadsAs_verbatim h
  by_cases hc : rdbCompression = true ∧ s.length > 20
  swap
  · rw [saveCompressed, if_neg hc, hverbatim]
    exact ⟨fun hlen => ⟨hlen, fun hon hlong => absurd ⟨hon, hlong⟩ hc⟩, And.left⟩
  rw [saveCompressed, if_pos hc, rdbSaveLzfStringObject, if_neg (by omega)]
  by_cases hout : lzfCompress s (s.length - 4) = []
  · simp only [hout, length_nil, if_true, nil_append]
    exact hverbatim.trans ⟨fun hlen => ⟨hlen, fun _ _ => by rw [hout]; decide⟩, And.left⟩
  obtain ⟨hfit, hinv⟩ := hlzf s (s.length - 4) hout
  have houtlen : (lzfCompress s (s.length - 4)).length < lenErr := by omega
  have hload := rdbGenericLoadStringObject_lzfRecord houtlen h hinv
  have hmore : (saveVerbatim s).1 ≠ [] := by
    rw [saveVerbatim_fst]
    exact append_ne_nil_of_left_ne_nil (rdbSaveLen_ne_nil _) _
  simp only [length_eq_zero_iff, if_neg hout, if_neg (toInt_ne_of_lt houtlen)]
  split_ifs with herr hpos
  · rw [loadsAs_iff h hload]
    exact ⟨fun hlen => absurd herr (toInt_lzfRecord hfit hlen).2, And.left⟩
  · rw [loadsAs_iff h hload]
    exact ⟨fun hlen => ⟨hlen, fun _ _ => (toInt_lzfRecord hfit hlen).1.1 hpos⟩, And.left⟩
  · rw [loadsAs_append_iff h hload]
    exact iff_of_false (fun hnil => hmore hnil.2) fun hfits =>
      hpos ((toInt_lzfRecord hfit hfits.1).1.2 (hfits.2 hc.1 hc.2))

/-- A saved string loads back if and only if it was stored once and its length is an `int`. -/
theorem loadsAs_rdbSaveRawString (hlzf : LzfInverts lzfCompress lzfDecompress)
    (rdbCompression : Bool) (after : Bytes) (h : s.length < lenErr) :
    LoadsAs lzfDecompress (rdbSaveRawString lzfCompress rdbCompression s after).1 s ↔
      LengthsFit lzfCompress rdbCompression s := by
  rw [rdbSaveRawString]
  split_ifs with hshort
  · cases htry : rdbTryIntegerEncoding s after with
    | none => exact loadsAs_saveCompressed hlzf rdbCompression h
    | some buf =>
      apply iff_of_true (loadsAs_rdbTryIntegerEncoding htry)
      exact ⟨by omega, fun _ hlong => by omega⟩
  · exact loadsAs_saveCompressed hlzf rdbCompression h

/-! ## Files of strings -/

def loadStrings (lzfDecompress : Bytes → ℕ → Option Bytes) (encode : Bool) :
    ℕ → Bytes → Except LoadFault (List Bytes × Bytes)
  | 0, rdb => .ok ([], rdb)
  | n + 1, rdb => do
    let (o, rdb) ← rdbGenericLoadStringObject lzfDecompress encode rdb
    let (strings, rdb) ← loadStrings lzfDecompress encode n rdb
    return (o.string :: strings, rdb)

theorem loadStrings_flatten (encode : Bool) (rest : Bytes) {items : List (Bytes × Bytes)}
    (h : ∀ item ∈ items, LoadsAs lzfDecompress item.1 item.2) :
    loadStrings lzfDecompress encode items.length ((items.map Prod.fst).flatten ++ rest) =
      .ok (items.map Prod.snd, rest) := by
  induction items with
  | nil => rfl
  | cons item items ih =>
    obtain ⟨o, hload, hstring⟩ :=
      h item mem_cons_self encode ((items.map Prod.fst).flatten ++ rest)
    have htail := ih fun i hi => h i (mem_cons_of_mem _ hi)
    rw [length_cons, loadStrings, map_cons, flatten_cons, append_assoc, hload]
    simp only [bind, Except.bind, htail, pure, Except.pure, hstring, map_cons]

/-- A saved string loads back as itself and consumes exactly the bytes written if and only if the
lengths fit an `int`.  Strings saved one after the other then load back as the same
sequence.  Every integer loads back as its decimal string. -/
theorem rdb_strings_round_trip (hlzf : LzfInverts lzfCompress lzfDecompress)
    (rdbCompression : Bool) :
    (∀ s after, s.length < lenErr →
      (LoadsAs lzfDecompress (rdbSaveRawString lzfCompress rdbCompression s after).1 s ↔
        LengthsFit lzfCompress rdbCompression s)) ∧
    (∀ encode rest (items : List (Bytes × Bytes)), (∀ item ∈ items, item.1.length < lenErr ∧
        LengthsFit lzfCompress rdbCompression item.1) →
      loadStrings lzfDecompress encode items.length ((items.map fun item =>
          (rdbSaveRawString lzfCompress rdbCompression item.1 item.2).1).flatten ++ rest) =
        .ok (items.map Prod.fst, rest)) ∧
    (∀ value, IsLongLong value →
      LoadsAs lzfDecompress (rdbSaveLongLongAsStringObject value) (decimalInt value)) := by
  refine ⟨fun s after h => loadsAs_rdbSaveRawString hlzf rdbCompression after h, ?_,
    fun value h => loadsAs_rdbSaveLongLongAsStringObject h⟩
  intro encode rest items hitems
  have hload := @loadStrings_flatten lzfDecompress encode rest (items.map fun item =>
    ((rdbSaveRawString lzfCompress rdbCompression item.1 item.2).1, item.1)) (by
      intro saved hsaved
      obtain ⟨item, hitem, rfl⟩ := mem_map.1 hsaved
      obtain ⟨hlen, hfits⟩ := hitems item hitem
      exact (loadsAs_rdbSaveRawString hlzf rdbCompression item.2 hlen).2 hfits)
  rw [length_map, map_map, map_map] at hload
  exact hload

end

/-! ## Two files -/

/-- What LZF makes of 30 zeros: two literals, a reference of length 26, and two literals. -/
def lzfZeros : Bytes := [1, 0, 0, 224, 17, 0, 1, 0, 0]

def compressZeros (s : Bytes) (outlen : ℕ) : Bytes :=
  if s = List.replicate 30 0 ∧ 9 ≤ outlen then lzfZeros else []

def decompressZeros (c : Bytes) (len : ℕ) : Option Bytes :=
  if c = lzfZeros ∧ len = 30 then some (List.replicate 30 0) else none

theorem compressZeros_inverts : LzfInverts compressZeros decompressZeros := by
  intro s outlen hne
  rw [compressZeros] at hne ⊢
  split_ifs with hzeros
  · rw [hzeros.1]
    exact ⟨hzeros.2, by decide⟩
  · rw [if_neg hzeros] at hne
    exact absurd rfl hne

theorem rdb_strings_round_trip_two : LzfInverts compressZeros decompressZeros ∧
    loadStrings decompressZeros true 2
      ((rdbSaveRawString compressZeros true [45, 49, 50] [0]).1 ++
        (rdbSaveRawString compressZeros true (List.replicate 30 0) [0]).1) =
      .ok ([[45, 49, 50], List.replicate 30 0], []) := by
  refine ⟨compressZeros_inverts, ?_⟩
  have h := (rdb_strings_round_trip compressZeros_inverts true).2.1 true []
    [([45, 49, 50], [0]), (List.replicate 30 0, [0])] (by decide +kernel)
  simpa only [length_cons, length_nil, map_cons, map_nil, flatten_cons,
    flatten_nil, append_nil] using h

/-- Without compression, a string of `2 ^ 31` zeros is loaded with a negative length. -/
theorem loaded_negative : (List.replicate (2 ^ 31) (0 : UInt8)).length < lenErr ∧
    ¬ LoadsAs decompressZeros (rdbSaveRawString compressZeros false (List.replicate (2 ^ 31) 0) [0]).1
      (List.replicate (2 ^ 31) 0) := by
  have hlen : (List.replicate (2 ^ 31) (0 : UInt8)).length < lenErr := by
    rw [length_replicate]
    decide
  refine ⟨hlen, ?_⟩
  have hlong : ¬ (List.replicate (2 ^ 31) (0 : UInt8)).length ≤ 11 := by
    rw [length_replicate]
    decide
  rw [rdbSaveRawString, if_neg hlong, saveCompressed, if_neg fun h => absurd h.1 (by decide),
    saveVerbatim_fst, loadsAs_verbatim hlen, length_replicate]
  exact lt_irrefl _

end ServerStack.Redis.Rdb
