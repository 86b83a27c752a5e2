import ServerStack.Redis.Networking.Chunking

/-!
# The output buffers of a client

The functions of `networking.c` that queue replies: into the static buffer of the client as long as
the reply list is empty and there is room, then at the end of the list.  What a client is sent is
the static buffer followed by the list, and every function appends its reply to that.  Counting
memory and closing a client whose output exceeds a limit add no bytes and are left out.
-/

namespace ServerStack.Redis.Networking

open Util Decimal

/-! ## String objects -/

/-- The encodings of an object that holds an `sds`. -/
inductive SdsEncoding where
  | raw
  | embstr
  deriving DecidableEq, Repr

inductive Robj where
  | sds (encoding : SdsEncoding) (ptr : Bytes)
  /-- `REDIS_ENCODING_INT`. -/
  | int (n : ℤ) (h : IsLongLong n)

def Robj.string : Robj → Bytes
  | .sds _ ptr => ptr
  | .int n _ => decimalInt n

/-! ## Queueing -/

def replyChunkBytes : ℕ := 16 * 1024

def embstrSizeLimit : ℕ := 32

structure ReplyObj where
  encoding : SdsEncoding
  ptr : Bytes

/-- The fields of `redisClient` that replies use. -/
structure Output where
  /-- The value of `prepareClientToWrite`, which does not change while there is output. -/
  writable : Bool
  /-- `flags & REDIS_CLOSE_AFTER_REPLY`. -/
  closeAfterReply : Bool
  /-- The first `bufpos` bytes of `buf`. -/
  buf : Bytes
  reply : List ReplyObj

section

variable (c : Output)

def Output.sent : Bytes := c.buf ++ c.reply.flatMap ReplyObj.ptr

def createStringObject (s : Bytes) : ReplyObj :=
  ⟨if s.length ≤ embstrSizeLimit then .embstr else .raw, s⟩

/-- `_addReplyToBuffer`; `none` is `REDIS_ERR`. -/
def addReplyToBuffer (s : Bytes) : Option Output :=
  if c.closeAfterReply then some c
  else if c.reply ≠ [] then none
  else if s.length > replyChunkBytes - c.buf.length then none
  else some { c with buf := c.buf ++ s }

/-- The end of the reply list: append to the last object when possible. -/
def addToList (reply : List ReplyObj) (s : Bytes) (o : ReplyObj) : List ReplyObj :=
  match reply.getLast? with
  | none => [o]
  | some tail =>
    if tail.encoding = .raw ∧ tail.ptr.length + s.length ≤ replyChunkBytes then
      reply.dropLast ++ [{ tail with ptr := tail.ptr ++ s }]
    else reply ++ [o]

def addReplyObjectToList (o : ReplyObj) : Output :=
  if c.closeAfterReply then c else { c with reply := addToList c.reply o.ptr o }

def addReplyStringToList (s : Bytes) : Output :=
  if c.closeAfterReply then c else { c with reply := addToList c.reply s (createStringObject s) }

/-- An object that holds an `sds`. -/
def addReplySdsObject (o : ReplyObj) : Output :=
  (addReplyToBuffer c o.ptr).getD (addReplyObjectToList c o)

/-- An integer: printed into the static buffer if there is room for 32 bytes. -/
def addReplyInt (n : ℤ) : Output :=
  let decoded := addReplySdsObject c (createStringObject (ll2string 32 n))
  if c.reply = [] ∧ replyChunkBytes - c.buf.length ≥ 32 then
    (addReplyToBuffer c (ll2string 32 n)).getD decoded
  else decoded

def addReply (obj : Robj) : Output :=
  if c.writable = false then c
  else
    match obj with
    | .sds encoding ptr => addReplySdsObject c ⟨encoding, ptr⟩
    | .int n _ => addReplyInt c n

def addReplyString (s : Bytes) : Output :=
  if c.writable = false then c else (addReplyToBuffer c s).getD (addReplyStringToList c s)

/-! ## Length headers -/

def sharedBulkhdrLen : ℕ := 32

/-- `shared.mbulkhdr[j]` and `shared.bulkhdr[j]`. -/
def sharedHdr (type : UInt8) (j : ℕ) : Robj := .sds .raw (headerLine type j)

def addReplyLongLongWithPrefix (ll : ℕ) (type : UInt8) : Output :=
  if (type = 42 ∨ type = 36) ∧ ll < sharedBulkhdrLen then addReply c (sharedHdr type ll)
  else addReplyString c (type :: ll2string 127 ll ++ crlf)

def addReplyMultiBulkLen (length : ℕ) : Output :=
  if length < sharedBulkhdrLen then addReply c (sharedHdr 42 length)
  else addReplyLongLongWithPrefix c length 42

/-- `n = -n` for a `long`: the smallest one is its own negation. -/
def negLong (n : ℤ) : ℤ := if n = -(2 ^ 63) then n else -n

/-- `while((n = n/10) != 0) len++`. -/
def digitCount (n : ℤ) (len : ℕ) : ℕ :=
  if n.tdiv 10 = 0 then len else digitCount (n.tdiv 10) (len + 1)
termination_by n.natAbs
decreasing_by
  rename_i h
  have hpos : n.natAbs ≠ 0 := by
    intro hzero
    rw [Int.natAbs_eq_zero] at hzero
    exact h (by rw [hzero, Int.zero_tdiv])
  rw [Int.natAbs_tdiv]
  exact Nat.div_lt_self (Nat.pos_of_ne_zero hpos) (by decide)

/-- The length of the string of an object, as `addReplyBulkLen` computes it. -/
def bulkLen : Robj → ℕ
  | .sds _ ptr => ptr.length
  | .int n _ => if n < 0 then digitCount (negLong n) 2 else digitCount n 1

def addReplyBulkLen (obj : Robj) : Output :=
  if bulkLen obj < sharedBulkhdrLen then addReply c (sharedHdr 36 (bulkLen obj))
  else addReplyLongLongWithPrefix c (bulkLen obj) 36

def addReplyBulk (obj : Robj) : Output :=
  addReply (addReply (addReplyBulkLen c obj) obj) (.sds .raw crlf)

/-! ## Every function appends its reply -/

def Output.Open : Prop := c.writable = true ∧ c.closeAfterReply = false

end

/-- The output of an open client grows by `s`. -/
def Appends (s : Bytes) (c c' : Output) : Prop := c.Open → c'.Open ∧ c'.sent = c.sent ++ s

variable {c c' : Output} {s : Bytes} {n : ℕ}

theorem Appends.trans {t : Bytes} {c'' : Output} (h : Appends s c c') (h' : Appends t c' c'') :
    Appends (s ++ t) c c'' := by
  intro hopen
  obtain ⟨hopen', hsent⟩ := h hopen
  obtain ⟨hopen'', hsent'⟩ := h' hopen'
  exact ⟨hopen'', by rw [hsent', hsent, List.append_assoc]⟩

theorem flatMap_addToList (reply : List ReplyObj) (s : Bytes) {o : ReplyObj} (ho : o.ptr = s) :
    (addToList reply s o).flatMap ReplyObj.ptr = reply.flatMap ReplyObj.ptr ++ s := by
  rw [addToList]
  cases hlast : reply.getLast? with
  | none =>
    rw [List.getLast?_eq_none_iff] at hlast
    simp [hlast, ho]
  | some tail =>
    obtain ⟨front, rfl⟩ := List.getLast?_eq_some_iff.1 hlast
    simp only
    split_ifs <;> simp [ho]

theorem appends_addReplyToBuffer (h : addReplyToBuffer c s = some c') : Appends s c c' := by
  intro hopen
  rw [addReplyToBuffer, if_neg (by simp [hopen.2])] at h
  split_ifs at h with hreply hroom
  cases h
  have hnil : c.reply = [] := not_not.1 hreply
  exact ⟨hopen, by simp [Output.sent, hnil]⟩

theorem appends_addReplyObjectToList (c : Output) (o : ReplyObj) :
    Appends o.ptr c (addReplyObjectToList c o) := by
  intro hopen
  rw [addReplyObjectToList, if_neg (by simp [hopen.2])]
  exact ⟨hopen, by simp [Output.sent, flatMap_addToList]⟩

theorem appends_addReplyStringToList (c : Output) (s : Bytes) :
    Appends s c (addReplyStringToList c s) := by
  intro hopen
  rw [addReplyStringToList, if_neg (by simp [hopen.2])]
  exact ⟨hopen, by simp [Output.sent, flatMap_addToList, createStringObject]⟩

theorem appends_getD (h : Appends s c c') : Appends s c ((addReplyToBuffer c s).getD c') := by
  cases hbuf : addReplyToBuffer c s with
  | none => exact h
  | some _ => exact appends_addReplyToBuffer hbuf

variable (c : Output)

theorem appends_addReplySdsObject (o : ReplyObj) : Appends o.ptr c (addReplySdsObject c o) :=
  appends_getD (appends_addReplyObjectToList c o)

theorem appends_addReplyInt {n : ℤ} (hn : IsLongLong n) :
    Appends (decimalInt n) c (addReplyInt c n) := by
  have hdecoded := appends_addReplySdsObject c (createStringObject (ll2string 32 n))
  rw [ll2string_eq hn (by decide)] at hdecoded
  rw [addReplyInt, ll2string_eq hn (by decide)]
  split_ifs
  · exact appends_getD hdecoded
  · exact hdecoded

theorem appends_addReply (obj : Robj) : Appends obj.string c (addReply c obj) := by
  intro hopen
  have hwritable : ¬ c.writable = false := by simp [hopen.1]
  cases obj with
  | sds encoding ptr =>
    rw [addReply, if_neg hwritable]
    exact appends_addReplySdsObject c ⟨encoding, ptr⟩ hopen
  | int n h =>
    rw [addReply, if_neg hwritable]
    exact appends_addReplyInt c h hopen

theorem appends_addReplyString (s : Bytes) : Appends s c (addReplyString c s) := by
  intro hopen
  rw [addReplyString, if_neg (by simp [hopen.1])]
  exact appends_getD (appends_addReplyStringToList c s) hopen

theorem ll2string_natCast {len : ℕ} (hlen : 21 ≤ len) (hn : n < 2 ^ 63) :
    ll2string len n = decimal n := by
  rw [ll2string_eq ⟨by omega, by omega⟩ hlen, decimalInt, if_neg (by omega), Int.natAbs_natCast]

theorem appends_addReplyLongLongWithPrefix (hn : n < 2 ^ 63) (type : UInt8) :
    Appends (headerLine type n) c (addReplyLongLongWithPrefix c n type) := by
  rw [addReplyLongLongWithPrefix]
  split_ifs
  · exact appends_addReply c (sharedHdr type n)
  · rw [ll2string_natCast (by decide) hn]
    exact appends_addReplyString c _

theorem appends_addReplyMultiBulkLen (hn : n < 2 ^ 63) :
    Appends (headerLine 42 n) c (addReplyMultiBulkLen c n) := by
  rw [addReplyMultiBulkLen]
  split_ifs
  · exact appends_addReply c (sharedHdr 42 n)
  · exact appends_addReplyLongLongWithPrefix c hn 42

theorem digitCount_eq (n : ℤ) (len : ℕ) :
    digitCount n len + 1 = len + (decimal n.natAbs).length := by
  have hdiv : (n.tdiv 10).natAbs = n.natAbs / 10 := Int.natAbs_tdiv n 10
  fun_induction digitCount n len with
  | case1 n len hzero =>
    rw [decimal_of_lt (by omega), List.length_singleton]
  | case2 n len hpos ih =>
    rw [ih (Int.natAbs_tdiv _ 10), hdiv, decimal_of_ge (n := n.natAbs) (by omega),
      List.length_append, List.length_singleton]
    omega

theorem natAbs_negLong (n : ℤ) : (negLong n).natAbs = n.natAbs := by
  rw [negLong]
  split_ifs
  · rfl
  · exact Int.natAbs_neg n

theorem bulkLen_eq (obj : Robj) : bulkLen obj = obj.string.length := by
  cases obj with
  | sds encoding ptr => rfl
  | int n h =>
    rw [bulkLen, Robj.string, decimalInt]
    split_ifs with hneg
    · have := digitCount_eq (negLong n) 2
      rw [natAbs_negLong] at this
      rw [List.length_cons]
      omega
    · have := digitCount_eq n 1
      omega

theorem appends_addReplyBulk {obj : Robj} (hobj : obj.string.length < 2 ^ 63) :
    Appends (encodeBulk obj.string) c (addReplyBulk c obj) := by
  have hlen : Appends (headerLine 36 obj.string.length) c (addReplyBulkLen c obj) := by
    rw [addReplyBulkLen, bulkLen_eq]
    split_ifs
    · exact appends_addReply c (sharedHdr 36 obj.string.length)
    · exact appends_addReplyLongLongWithPrefix c hobj 36
  have hbody := (appends_addReply (addReplyBulkLen c obj) obj).trans
    (appends_addReply (addReply (addReplyBulkLen c obj) obj) (.sds .raw crlf))
  exact hlen.trans hbody

end ServerStack.Redis.Networking
