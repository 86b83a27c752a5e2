import ServerStack.Lib.Endian
import ServerStack.Redis.Networking.Reply

/-!
# Strings in RDB files

The functions of `rdb.c` that save and load lengths, integers and strings.  Saving appends the bytes
returned; loading takes bytes from the front of the file and returns the rest.  Writing never fails.
-/

namespace ServerStack.Redis.Rdb

open Util Decimal Endian Networking

/-! ## Lengths -/

def lenErr : ℕ := 2 ^ 32 - 1

/-- The value as an `int`, which wraps around. -/
def toInt (n : ℤ) : ℤ := n.bmod (2 ^ 32)

def rioRead (rdb : Bytes) (n : ℕ) : Option (Bytes × Bytes) :=
  if n ≤ rdb.length then some (rdb.take n, rdb.drop n) else none

/-- The first byte of an encoded string: `(REDIS_RDB_ENCVAL<<6)|enc`. -/
def encVal (enc : UInt8) : UInt8 := (3 : UInt8) <<< 6 ||| enc

/-- `rdbSaveLen`, whose argument is a `uint32_t`. -/
def rdbSaveLen (size : ℕ) : Bytes :=
  let len := size % 2 ^ 32
  if len < 2 ^ 6 then [UInt8.ofNat len]
  else if len < 2 ^ 14 then [UInt8.ofNat (len / 256) ||| (1 : UInt8) <<< 6, UInt8.ofNat len]
  else (2 : UInt8) <<< 6 :: bigEndian 4 len

/-- `rdbLoadLen`: `isencoded`, the length or encoding type, and the rest of the file. -/
def rdbLoadLen (rdb : Bytes) : Bool × ℕ × Bytes :=
  match rdb with
  | [] => (false, lenErr, [])
  | b :: rdb =>
    let type := (b &&& 0xC0) >>> 6
    if type = 3 then (true, (b &&& 0x3F).toNat, rdb)
    else if type = 0 then (false, (b &&& 0x3F).toNat, rdb)
    else if type = 1 then
      match rdb with
      | [] => (false, lenErr, [])
      | c :: rdb => (false, (b &&& 0x3F).toNat * 256 + c.toNat, rdb)
    else
      match rioRead rdb 4 with
      | none => (false, lenErr, rdb)
      | some (len, rdb) => (false, ofBigEndian len, rdb)

/-! ## Integers -/

/-- `rdbEncodeInteger`; `none` is the result 0.  Byte `i` of the integer is
`(value >> 8*i) & 0xFF`. -/
def rdbEncodeInteger (value : ℤ) : Option Bytes :=
  if -2 ^ 7 ≤ value ∧ value ≤ 2 ^ 7 - 1 then some (encVal 0 :: littleEndianInt 1 value)
  else if -2 ^ 15 ≤ value ∧ value ≤ 2 ^ 15 - 1 then some (encVal 1 :: littleEndianInt 2 value)
  else if -2 ^ 31 ≤ value ∧ value ≤ 2 ^ 31 - 1 then some (encVal 2 :: littleEndianInt 4 value)
  else none

inductive LoadFault where
  /-- The result is NULL. -/
  | null
  /-- `redisPanic`. -/
  | panic
  /-- The result is an object whose string has a negative length. -/
  | negativeLength
  deriving DecidableEq, Repr

/-- `rdbLoadIntegerObject`, with `encode` an object that holds the integer. -/
def rdbLoadIntegerObject (rdb : Bytes) (enctype : ℕ) (encode : Bool) :
    Except LoadFault (Robj × Bytes) :=
  if enctype ≤ 2 then
    match rioRead rdb (2 ^ enctype) with
    | none => .error .null
    | some (enc, rdb) =>
      let val := ofLittleEndianInt enc
      if h : encode = true ∧ IsLongLong val then .ok (.int val h.2, rdb)
      else .ok (.sds .raw (ll2string 32 val), rdb)
  else .error .panic

/-- `rdbTryIntegerEncoding`; `after` is what follows the string in memory, a NUL if it is an
`sds`. -/
def rdbTryIntegerEncoding (s after : Bytes) : Option Bytes :=
  let (value, endptr) := strtoll (s ++ after)
  if endptr.head? ≠ some 0 then none
  else if ll2string 32 value ≠ s then none
  else rdbEncodeInteger value

/-! ## Strings -/

-- `lzfCompress s outlen` is empty if the compression fails
variable (lzfCompress : Bytes → ℕ → Bytes) (lzfDecompress : Bytes → ℕ → Option Bytes)

def lzfRecord (out : Bytes) (len : ℕ) : Bytes :=
  encVal 3 :: (rdbSaveLen out.length ++ rdbSaveLen len ++ out)

/-- `rdbSaveLzfStringObject`: the bytes written and the result. -/
def rdbSaveLzfStringObject (s : Bytes) : Bytes × ℤ :=
  if s.length ≤ 4 then ([], 0)
  else
    let out := lzfCompress s (s.length - 4)
    if out.length = 0 then ([], 0)
    else
      let record := lzfRecord out s.length
      if toInt out.length = -1 then (record, -1) else (record, toInt record.length)

/-- `createObject` for a string of `len` bytes; the length of an `sds` is an `int`. -/
def createObject (len : ℕ) (val rdb : Bytes) : Except LoadFault (Robj × Bytes) :=
  if 0 ≤ toInt len then .ok (.sds .raw val, rdb) else .error .negativeLength

def rdbLoadLzfStringObject (rdb : Bytes) : Except LoadFault (Robj × Bytes) :=
  let (_, clen, rdb) := rdbLoadLen rdb
  if clen = lenErr then .error .null
  else
    let (_, len, rdb) := rdbLoadLen rdb
    if len = lenErr then .error .null
    else
      match rioRead rdb clen with
      | none => .error .null
      | some (c, rdb) =>
        match lzfDecompress c len with
        | none => .error .null
        | some val => createObject len val rdb

def saveVerbatim (s : Bytes) : Bytes × ℤ :=
  let record := rdbSaveLen s.length ++ s
  if 0 < s.length ∧ toInt s.length = -1 then (record, -1) else (record, toInt record.length)

def saveCompressed (rdbCompression : Bool) (s : Bytes) : Bytes × ℤ :=
  if rdbCompression = true ∧ s.length > 20 then
    let (record, n) := rdbSaveLzfStringObject lzfCompress s
    if n = -1 then (record, -1)
    else if n > 0 then (record, n)
    else (record ++ (saveVerbatim s).1, (saveVerbatim s).2)
  else saveVerbatim s

/-- `rdbSaveRawString`: the bytes written and the result. -/
def rdbSaveRawString (rdbCompression : Bool) (s after : Bytes) : Bytes × ℤ :=
  if s.length ≤ 11 then
    match rdbTryIntegerEncoding s after with
    | some buf => (buf, buf.length)
    | none => saveCompressed lzfCompress rdbCompression s
  else saveCompressed lzfCompress rdbCompression s

def rdbSaveLongLongAsStringObject (value : ℤ) : Bytes :=
  match rdbEncodeInteger value with
  | some buf => buf
  | none => rdbSaveLen (ll2string 32 value).length ++ ll2string 32 value

def rdbGenericLoadStringObject (encode : Bool) (rdb : Bytes) : Except LoadFault (Robj × Bytes) :=
  let (isencoded, len, rdb) := rdbLoadLen rdb
  if isencoded then
    if len ≤ 2 then rdbLoadIntegerObject rdb len encode
    else if len = 3 then rdbLoadLzfStringObject lzfDecompress rdb
    else .error .panic
  else if len = lenErr then .error .null
  else
    match rioRead rdb len with
    | none => .error .null
    | some (val, rdb) => createObject len val rdb

end ServerStack.Redis.Rdb
