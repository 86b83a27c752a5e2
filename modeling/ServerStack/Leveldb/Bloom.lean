import Mathlib

/-!
# Bloom filters

`BloomFilterPolicy` of `bloom.cc`.  A filter is an array of bits with the number of probes in one
more byte behind it.  The hash function is a parameter, and a read outside of the filter is `none`.
-/

namespace ServerStack.Leveldb.Bloom

open List

abbrev Bytes := List UInt8

structure BloomFilterPolicy where
  bitsPerKey : ℕ
  k : ℕ
  k_le : k ≤ 30

/-- The constructor.  The product with 0.69 is rounded down; it is exact where it is not cut off at
30. -/
def newBloomFilterPolicy (bitsPerKey : ℕ) : BloomFilterPolicy where
  bitsPerKey := bitsPerKey
  k := min (max (bitsPerKey * 69 / 100) 1) 30
  k_le := by omega

/-- `1 << (bitpos % 8)`. -/
def mask (bitpos : ℕ) : UInt8 := 1 <<< UInt8.ofNat (bitpos % 8)

def setBit (array : Bytes) (bitpos : ℕ) : Bytes := array.modify (bitpos / 8) (· ||| mask bitpos)

def rotateRight17 (h : UInt32) : UInt32 := (h >>> 17) ||| (h <<< 15)

/-- The loop over the probes of one key. -/
def addProbes (bits : ℕ) (delta : UInt32) : ℕ → UInt32 → Bytes → Bytes
  | 0, _, array => array
  | j + 1, h, array => addProbes bits delta j (h + delta) (setBit array (h.toNat % bits))

/-- The loop of `KeyMayMatch`. -/
def testProbes (array : Bytes) (bits : ℕ) (delta : UInt32) : ℕ → UInt32 → Option Bool
  | 0, _ => some true
  | j + 1, h =>
    let bitpos := h.toNat % bits
    match array[bitpos / 8]? with
    | none => none
    | some b =>
      if b &&& mask bitpos = 0 then some false
      else testProbes array bits delta j (h + delta)

-- `BloomHash`.
variable (bloomHash : Bytes → UInt32)

def addKey (bits k : ℕ) (array key : Bytes) : Bytes :=
  addProbes bits (rotateRight17 (bloomHash key)) k (bloomHash key) array

/-- `CreateFilter`; `array` points at what was appended to `dst`. -/
def createFilter (p : BloomFilterPolicy) (keys : List Bytes) (dst : Bytes) : Bytes :=
  let bits := keys.length * p.bitsPerKey
  let bits := if bits < 64 then 64 else bits
  let bytes := (bits + 7) / 8
  dst ++ keys.foldl (addKey bloomHash (bytes * 8) p.k) (replicate bytes 0 ++ [UInt8.ofNat p.k])

def keyMayMatch (key filter : Bytes) : Option Bool :=
  let len := filter.length
  if len < 2 then some false
  else
    match filter[len - 1]? with
    | none => none
    | some k =>
      if 30 < k.toNat then some true
      else testProbes filter ((len - 1) * 8) (rotateRight17 (bloomHash key)) k.toNat (bloomHash key)

/-! ## Bits -/

variable {bloomHash} {bytes j k : ℕ} {f g g' : Bytes} {bitpos : ℕ} {h delta : UInt32}

def HasBit (array : Bytes) (bitpos : ℕ) : Prop :=
  ∃ b, array[bitpos / 8]? = some b ∧ b &&& mask bitpos ≠ 0

/-- Bits of the array are set, none is cleared, and the byte behind the array stays. -/
structure Grows (bytes : ℕ) (f g : Bytes) : Prop where
  length_eq : g.length = f.length
  last_eq : g[bytes]? = f[bytes]?
  hasBit : ∀ {bitpos}, HasBit f bitpos → HasBit g bitpos

theorem Grows.refl (f : Bytes) : Grows bytes f f := ⟨rfl, rfl, id⟩

theorem Grows.trans (hfg : Grows bytes f g) (hgg' : Grows bytes g g') : Grows bytes f g' where
  length_eq := hgg'.length_eq.trans hfg.length_eq
  last_eq := hgg'.last_eq.trans hfg.last_eq
  hasBit hbit := hgg'.hasBit (hfg.hasBit hbit)

theorem mask_ne_zero (bitpos : ℕ) : mask bitpos ≠ 0 := by
  have hmask : ∀ i < 8, (1 : UInt8) <<< UInt8.ofNat i ≠ 0 := by decide
  exact hmask _ (Nat.mod_lt _ (by decide))

theorem or_and_ne_zero {b c m : UInt8} (hbit : b &&& m ≠ 0 ∨ c &&& m ≠ 0) :
    (b ||| c) &&& m ≠ 0 := by
  have hsplit : (b ||| c) &&& m = b &&& m ||| c &&& m := by
    apply UInt8.eq_of_toBitVec_eq
    ext i
    simp [Bool.and_or_distrib_right]
  rw [hsplit, Ne, UInt8.or_eq_zero_iff, not_and_or]
  exact hbit

theorem hasBit_setBit (hlt : bitpos / 8 < f.length) : HasBit (setBit f bitpos) bitpos :=
  ⟨f[bitpos / 8] ||| mask bitpos, by simp [setBit, hlt],
    or_and_ne_zero (.inr (by rw [UInt8.and_self]; exact mask_ne_zero bitpos))⟩

theorem grows_setBit (hlt : bitpos < bytes * 8) : Grows bytes f (setBit f bitpos) where
  length_eq := length_modify ..
  last_eq := getElem?_modify_ne _ _ (by omega)
  hasBit := by
    rintro pos ⟨b, hb, hbit⟩
    rw [HasBit, setBit]
    by_cases hpos : bitpos / 8 = pos / 8
    · rw [hpos]
      exact ⟨b ||| mask bitpos, by simp [hb], or_and_ne_zero (.inl hbit)⟩
    · exact ⟨b, by rw [getElem?_modify_ne _ _ hpos, hb], hbit⟩

section

variable (hbytes : 0 < bytes)

include hbytes

theorem grows_addProbes : Grows bytes f (addProbes (bytes * 8) delta j h f) := by
  induction j generalizing h f with
  | zero => exact .refl f
  | succ j ih => exact (grows_setBit (Nat.mod_lt _ (by omega))).trans ih

theorem grows_addKeys (keys : List Bytes) :
    Grows bytes f (keys.foldl (addKey bloomHash (bytes * 8) k) f) := by
  induction keys generalizing f with
  | nil => exact .refl f
  | cons key keys ih => exact (grows_addProbes hbytes).trans ih

/-- The probes of a key find the bits that were set for it, whatever was set after them. -/
theorem testProbes_addProbes (hlen : bytes < f.length)
    (hgrows : Grows bytes (addProbes (bytes * 8) delta j h f) g) :
    testProbes g (bytes * 8) delta j h = some true := by
  induction j generalizing h f with
  | zero => rfl
  | succ j ih =>
    have hpos : h.toNat % (bytes * 8) < bytes * 8 := Nat.mod_lt _ (by omega)
    have hset := @grows_addProbes bytes j (setBit f (h.toNat % (bytes * 8))) (h + delta) delta hbytes
    obtain ⟨b, hb, hbit⟩ := hgrows.hasBit (hset.hasBit (hasBit_setBit (by omega)))
    rw [testProbes, hb]
    exact (if_neg hbit).trans (ih (by rwa [setBit, length_modify]) hgrows)

theorem testProbes_of_mem {keys : List Bytes} {key : Bytes} (hlen : bytes < f.length)
    (hkey : key ∈ keys) :
    testProbes (keys.foldl (addKey bloomHash (bytes * 8) k) f) (bytes * 8)
      (rotateRight17 (bloomHash key)) k (bloomHash key) = some true := by
  induction keys generalizing f with
  | nil => cases hkey
  | cons key' keys ih =>
    rcases mem_cons.1 hkey with rfl | hkey
    · exact testProbes_addProbes hbytes hlen (grows_addKeys hbytes keys)
    · refine ih ?_ hkey
      rwa [addKey, (grows_addProbes hbytes).length_eq]

theorem testProbes_ne_none (hlen : bytes < f.length) :
    testProbes f (bytes * 8) delta j h ≠ none := by
  induction j generalizing h with
  | zero => exact Option.some_ne_none _
  | succ j ih =>
    have hpos : h.toNat % (bytes * 8) < bytes * 8 := Nat.mod_lt _ (by omega)
    rw [testProbes, getElem?_eq_getElem (by omega)]
    dsimp only
    split
    · exact Option.some_ne_none _
    · exact ih

theorem keyMayMatch_eq {b : UInt8} (hlen : f.length = bytes + 1) (hlast : f[bytes]? = some b)
    (hb : b.toNat ≤ 30) (key : Bytes) : keyMayMatch bloomHash key f =
      testProbes f (bytes * 8) (rotateRight17 (bloomHash key)) b.toNat (bloomHash key) := by
  rw [keyMayMatch, hlen, Nat.add_sub_cancel, hlast]
  dsimp only
  rw [if_neg (by omega), if_neg (by omega)]

end

/-- What `CreateFilter` appends matches every key of the list, and no query reads outside of it. -/
theorem keyMayMatch_createFilter (bloomHash : Bytes → UInt32) (bitsPerKey : ℕ) (keys : List Bytes)
    (dst : Bytes) :
    ∃ filter, createFilter bloomHash (newBloomFilterPolicy bitsPerKey) keys dst = dst ++ filter ∧
      (∀ key ∈ keys, keyMayMatch bloomHash key filter = some true) ∧
      ∀ key, keyMayMatch bloomHash key filter ≠ none := by
  generalize newBloomFilterPolicy bitsPerKey = p
  obtain ⟨bytes, hbytes, hfilter⟩ : ∃ bytes, 0 < bytes ∧ createFilter bloomHash p keys dst = dst ++
      keys.foldl (addKey bloomHash (bytes * 8) p.k) (replicate bytes 0 ++ [UInt8.ofNat p.k]) := by
    refine ⟨_, ?_, rfl⟩
    split_ifs <;> omega
  have hk : (UInt8.ofNat p.k).toNat = p.k :=
    UInt8.toNat_ofNat_of_lt' (p.k_le.trans_lt (by decide))
  have hgrows := @grows_addKeys bloomHash bytes p.k (replicate bytes 0 ++ [UInt8.ofNat p.k]) hbytes
    keys
  have hlen := hgrows.length_eq
  rw [length_append, length_replicate, length_singleton] at hlen
  have hmatch := @keyMayMatch_eq bloomHash bytes _ hbytes (UInt8.ofNat p.k) hlen
    (hgrows.last_eq.trans (by simp)) (hk.trans_le p.k_le)
  refine ⟨_, hfilter, fun key hkey => ?_, fun key => ?_⟩
  · rw [hmatch, hk]
    exact testProbes_of_mem hbytes (by simp) hkey
  · rw [hmatch]
    exact testProbes_ne_none hbytes (by omega)

end ServerStack.Leveldb.Bloom
