import ServerStack.Redis.Zset.Ranks
import ServerStack.Redis.Zset.ZzlSpec

/-!
# The two encodings of sorted sets

A sorted set is a ziplist of elements and scores, or a skiplist together with a dictionary from
elements to scores.  Every operation does to the sorted entries of both what `Op.apply` says, and
`zsetConvert` turns one into the other.
-/

namespace ServerStack.Redis.Zset

open Util SpanChain Ziplist.Strings List Option Function

variable {S : Type}

/-! ## The model -/

/-- `zset`.  The dictionary is the finite map it stands for. -/
structure ZSet (S : Type) where
  dict : Bytes → Option S
  zsl : Skiplist S

def createZsetObject [Zero S] : ZSet S := ⟨fun _ => none, zslCreate⟩

/-- `dictDelete` of several elements. -/
def dictDeleteAll (dict : Bytes → Option S) (removed : List Bytes) : Bytes → Option S :=
  fun ele => if ele ∈ removed then none else dict ele

/-- The operations on a sorted set.  The level is the one `zslRandomLevel` returns. -/
inductive Op (S : Type) where
  | insert (level : ℕ) (score : S) (ele : Bytes)
  | delete (ele : Bytes)
  | deleteRangeByScore (range : RangeSpec S)
  | deleteRangeByRank (start stop : ℕ)

def zzlEntries (strtod : Bytes → S) : List Bytes → List (Entry S)
  | ele :: score :: zl => (strtod score, ele) :: zzlEntries strtod zl
  | _ => []

def zslEntries (zsl : Skiplist S) : List (Entry S) := entries zsl (levelList zsl 0)

/-- What the callers ensure: the level exists, the element is new, the ranks are 1-based and in the
set. -/
def Op.Legal (l : List (Entry S)) : Op S → Prop
  | .insert level _ ele => 0 < level ∧ level ≤ maxLevel ∧ ∀ a ∈ l, a.2 ≠ ele
  | .delete _ => True
  | .deleteRangeByScore _ => True
  | .deleteRangeByRank start stop => 0 < start ∧ start ≤ stop ∧ stop ≤ l.length

instance (l : List (Entry S)) (op : Op S) : Decidable (op.Legal l) :=
  match op with
  | .insert _ _ ele => inferInstanceAs (Decidable (_ ∧ _ ∧ ∀ a ∈ l, a.2 ≠ ele))
  | .delete _ | .deleteRangeByScore _ => inferInstanceAs (Decidable True)
  | .deleteRangeByRank _ _ => inferInstanceAs (Decidable (_ ∧ _ ∧ _))

section

variable [LinearOrder S] (strtod : Bytes → S) (d2string : S → Bytes)

def Op.zzl (zl : List Bytes) : Op S → Option (List Bytes × ℕ)
  | .insert _ score ele => (zzlInsert strtod d2string zl ele score).map (·, 0)
  | .delete ele => do
    match ← zzlFind strtod zl ele with
    | none => return (zl, 0)
    | some (eptr, _) => return (zzlDelete zl eptr, 1)
  | .deleteRangeByScore range => zzlDeleteRangeByScore strtod zl range
  | .deleteRangeByRank start stop => some (zzlDeleteRangeByRank zl start stop)

/-- The operation on a skiplist and its dictionary, and the number of elements deleted. -/
def Op.zsl (zs : ZSet S) : Op S → Option (ZSet S × ℕ)
  | .insert level score ele =>
    -- `dictAdd(...) == DICT_OK`
    if zs.dict ele = none then
      some (⟨update zs.dict ele (some score), zslInsert zs.zsl level score ele⟩, 0)
    else none
  | .delete ele =>
    match zs.dict ele with
    | none => some (zs, 0)
    | some score =>
      let r := zslDelete zs.zsl score ele
      if r.2 then some (⟨dictDeleteAll zs.dict [ele], r.1⟩, 1) else none
  | .deleteRangeByScore range =>
    let r := zslDeleteRangeByScore zs.zsl range
    some (⟨dictDeleteAll zs.dict r.2, r.1⟩, r.2.length)
  | .deleteRangeByRank start stop =>
    let r := zslDeleteRangeByRank zs.zsl start stop
    some (⟨dictDeleteAll zs.dict r.2, r.1⟩, r.2.length)

/-- `REDIS_ENCODING_ZIPLIST` and `REDIS_ENCODING_SKIPLIST`, for sorted sets. -/
inductive Encoding where
  | ziplist
  | skiplist
  deriving DecidableEq, Repr

inductive ZsetObject (S : Type) where
  | ziplist (zl : List Bytes)
  | skiplist (zs : ZSet S)

/-- The loop of `zsetConvert` over the elements of a ziplist; `levels` are the levels that
`zslRandomLevel` returns in turn. -/
def convertZiplist (zl : List Bytes) (levels : ℕ → ℕ) :
    ℕ → Option (ℕ × ℕ) → ℕ → ZSet S → Option (ZSet S)
  | 0, _, _, _ => none
  | _ + 1, none, _, zs => some zs
  | fuel + 1, some (eptr, sptr), n, zs => do
    let score ← zzlGetScore strtod zl sptr
    let ele ← ziplistGet zl eptr
    if zs.dict ele = none then
      let next ← zzlNext zl sptr
      convertZiplist zl levels fuel next (n + 1)
        ⟨update zs.dict ele (some score), zslInsert zs.zsl (levels n) score ele⟩
    else none

omit [LinearOrder S] in
/-- The loop of `zsetConvert` over the nodes of a skiplist. -/
def convertSkiplist (zsl : Skiplist S) : ℕ → Option ℕ → List Bytes → Option (List Bytes)
  | 0, _, _ => none
  | _ + 1, none, zl => some zl
  | fuel + 1, some x, zl => do
    let zl ← zzlInsertAt d2string zl none (zsl.node x).str (zsl.node x).score
    convertSkiplist zsl fuel (zsl.forward 0 x) zl

/-- `zsetConvert`; `none` is a failed assertion. -/
def zsetConvert [Zero S] (levels : ℕ → ℕ) : ZsetObject S → Encoding → Option (ZsetObject S)
  | .ziplist zl, .ziplist => some (.ziplist zl)
  | .ziplist zl, .skiplist => do
    let eptr ← ziplistIndex zl 0
    let sptr ← ziplistNext zl eptr
    let zs ← convertZiplist strtod zl levels (zl.length + 1) (some (eptr, sptr)) 0 createZsetObject
    return .skiplist zs
  | .skiplist zs, .ziplist => do
    let zl ← convertSkiplist d2string zs.zsl (zs.zsl.length + 1) (zs.zsl.forward 0 header) []
    return .ziplist zl
  | .skiplist zs, .skiplist => some (.skiplist zs)

end

/-! ## Operations on sorted lists -/

section

variable [LinearOrder S]

/-- What an operation does to the entries, and the number of entries deleted. -/
def Op.apply (l : List (Entry S)) : Op S → List (Entry S) × ℕ
  | .insert _ score ele => (insertEntry (score, ele) l, 0)
  | .delete ele =>
    match l.find? fun a => a.2 = ele with
    | none => (l, 0)
    | some a => (deleteEntry a l, 1)
  | .deleteRangeByScore range => (deleteRange range l, (l.filter fun a => range.contains a.1).length)
  | .deleteRangeByRank start stop => (deleteRanks start stop l, stop - start + 1)

def Distinct (l : List (Entry S)) : Prop := ∀ a ∈ l, ∀ b ∈ l, a.2 = b.2 → a = b

/-- The skiplist and the dictionary have the entries `l`. -/
structure ZsetRep (zs : ZSet S) (l : List (Entry S)) : Prop where
  nodes : ∃ ns, Rep zs.zsl ns ∧ entries zs.zsl ns = l
  dict : ∀ ele score, zs.dict ele = some score ↔ (score, ele) ∈ l

variable {zs : ZSet S} {l : List (Entry S)}

theorem ZsetRep.sorted (h : ZsetRep zs l) : Sorted l := by
  obtain ⟨ns, hrep, rfl⟩ := h.nodes
  exact hrep.sorted

theorem ZsetRep.entries (h : ZsetRep zs l) : zslEntries zs.zsl = l := by
  obtain ⟨ns, hrep, hentries⟩ := h.nodes
  rw [zslEntries, hrep.shape.levelList_zero, hentries]

theorem ZsetRep.distinct (h : ZsetRep zs l) : Distinct l := by
  rintro ⟨s, e⟩ ha ⟨s', e'⟩ hb (rfl : e = e')
  have hs := (h.dict e s).2 ha
  rw [(h.dict e s').2 hb] at hs
  rw [some.inj hs]

theorem zsetRep_create [Zero S] : ZsetRep (createZsetObject : ZSet S) [] :=
  ⟨⟨[], rep_zslCreate, rfl⟩, fun _ _ => by simp [createZsetObject]⟩

/-! ## The skiplist -/

omit [LinearOrder S] in
theorem dict_deleteAll {dict : Bytes → Option S} {K M : List (Entry S)}
    (hdict : ∀ ele score, dict ele = some score ↔ (score, ele) ∈ l)
    (hmem : ∀ a, a ∈ l ↔ a ∈ K ∨ a ∈ M) (hdisj : ∀ a ∈ K, a ∉ M) (ele : Bytes) (score : S) :
    dictDeleteAll dict (M.map Prod.snd) ele = some score ↔ (score, ele) ∈ K := by
  rw [dictDeleteAll]
  constructor
  · intro h
    split_ifs at h with hin
    rcases (hmem _).1 ((hdict ele score).1 h) with hK | hM
    · exact hK
    · exact absurd (mem_map_of_mem hM) hin
  · intro hK
    have hscore := (hdict ele score).2 ((hmem _).2 (.inl hK))
    rw [if_neg, hscore]
    intro hin
    obtain ⟨⟨s, e⟩, hM, rfl⟩ := mem_map.1 hin
    have hs := (hdict e s).2 ((hmem _).2 (.inr hM))
    rw [hscore] at hs
    exact hdisj _ hK (some.inj hs ▸ hM)

theorem Sorted.nodup {l : List (Entry S)} (h : Sorted l) : l.Nodup :=
  List.Pairwise.imp (fun hlt heq => (heq ▸ hlt).ne rfl) h

theorem ZsetRep.insert (h : ZsetRep zs l) {level : ℕ} (hpos : 0 < level) (hlevel : level ≤ maxLevel)
    (score : S) {ele : Bytes} (hnew : ∀ a ∈ l, a.2 ≠ ele) :
    zs.dict ele = none ∧ ZsetRep ⟨update zs.dict ele (some score), zslInsert zs.zsl level score ele⟩
        (insertEntry (score, ele) l) := by
  obtain ⟨ns, hrep, rfl⟩ := h.nodes
  have hnone : zs.dict ele = none := by
    rw [eq_none_iff_forall_ne_some]
    intro s hs
    exact hnew _ ((h.dict ele s).1 hs) rfl
  obtain ⟨ns', hrep', hentries⟩ := hrep.insert hpos hlevel fun hin => hnew _ hin rfl
  refine ⟨hnone, ⟨ns', hrep', hentries⟩, fun e s => ?_⟩
  have hmem : (s, e) ∈ insertEntry (score, ele) (Zset.entries zs.zsl ns) ↔
      (s, e) = (score, ele) ∨ (s, e) ∈ Zset.entries zs.zsl ns := by
    rw [insertEntry]
    by_cases hlt : key (s, e) < key (score, ele)
    · simp [hlt]
      tauto
    · simp [hlt]
  rw [hmem]
  by_cases he : e = ele
  · subst he
    simp only [update_self, Option.some.injEq, Prod.mk.injEq, and_true]
    refine ⟨fun hs => .inl hs.symm, fun hs => hs.elim Eq.symm fun hin => absurd rfl (hnew _ hin)⟩
  · simp only [update_of_ne he, h.dict, Prod.mk.injEq, he, and_false, false_or]

theorem ZsetRep.step (h : ZsetRep zs l) (op : Op S) (hop : op.Legal l) :
    ∃ zs', op.zsl zs = some (zs', (op.apply l).2) ∧ ZsetRep zs' (op.apply l).1 := by
  cases op with
  | insert level score ele =>
    obtain ⟨hpos, hlevel, hnew⟩ := hop
    obtain ⟨hnone, hrep⟩ := h.insert hpos hlevel score hnew
    exact ⟨_, if_pos hnone, hrep⟩
  | delete ele =>
    obtain ⟨ns, hrep, hentries⟩ := h.nodes
    rw [Op.zsl, Op.apply]
    cases hfind : l.find? fun a => a.2 = ele with
    | none =>
      have hnone : zs.dict ele = none := by
        rw [eq_none_iff_forall_ne_some]
        intro s hs
        simpa using find?_eq_none.1 hfind _ ((h.dict ele s).1 hs)
      rw [hnone]
      exact ⟨zs, rfl, h⟩
    | some a =>
      obtain ⟨s, e⟩ := a
      have hin := mem_of_find?_eq_some hfind
      have he : e = ele := by simpa using find?_some hfind
      subst he
      obtain ⟨ns', hrep', hentries', hflag⟩ := hrep.delete s e
      rw [hentries] at hentries' hflag
      rw [(h.dict e s).2 hin]
      refine ⟨⟨dictDeleteAll zs.dict [e], (zslDelete zs.zsl s e).1⟩, ?_, ⟨ns', hrep', hentries'⟩, ?_⟩
      · simp only [hflag, decide_eq_true hin, if_true]
      · refine dict_deleteAll (M := [(s, e)]) h.dict (fun a => ?_) fun a ha hM => ?_
        · simp only [deleteEntry]
          rw [mem_filter, decide_eq_true_iff, key_injective.ne_iff]
          by_cases ha : a = (s, e)
          · simp [ha, hin]
          · simp [ha]
        · simp only [deleteEntry] at ha
          rw [mem_filter, decide_eq_true_iff, key_injective.ne_iff] at ha
          exact ha.2 (mem_singleton.1 hM)
  | deleteRangeByScore range =>
    obtain ⟨ns, hrep, hentries⟩ := h.nodes
    obtain ⟨ns', hrep', hentries', hremoved⟩ := hrep.deleteRangeByScore range
    rw [hentries] at hentries' hremoved
    obtain ⟨r, hr⟩ : ∃ r, r = zslDeleteRangeByScore zs.zsl range := ⟨_, rfl⟩
    rw [← hr] at hrep' hentries' hremoved
    refine ⟨⟨dictDeleteAll zs.dict r.2, r.1⟩, ?_, ⟨ns', hrep', hentries'⟩, ?_⟩
    · rw [Op.zsl, Op.apply, ← hr, hremoved, length_map]
    · simp only [hremoved]
      refine dict_deleteAll h.dict (fun a => ?_) fun a ha hM => ?_
      · rw [Op.apply, deleteRange, mem_filter, mem_filter]
        cases range.contains a.1 <;> simp
      · rw [Op.apply, deleteRange] at ha
        rw [mem_filter] at hM
        simp [hM.2] at ha
  | deleteRangeByRank start stop =>
    obtain ⟨hpos, hle, hlen⟩ := hop
    obtain ⟨ns, hrep, hentries⟩ := h.nodes
    obtain ⟨ns', hrep', hentries', hremoved⟩ := hrep.deleteRangeByRank start stop
    rw [hentries] at hentries' hremoved
    have hnd := h.sorted.nodup
    obtain ⟨P, hP⟩ : ∃ P, P = l.take (start - 1) := ⟨_, rfl⟩
    obtain ⟨Q, hQ⟩ : ∃ Q, Q = l.drop (start - 1) := ⟨_, rfl⟩
    have hl : l = P ++ (Q.take (stop - P.length) ++ Q.drop (stop - P.length)) := by
      rw [take_append_drop, hP, hQ, take_append_drop]
    rw [← hP, ← hQ] at hremoved
    obtain ⟨r, hr⟩ : ∃ r, r = zslDeleteRangeByRank zs.zsl start stop := ⟨_, rfl⟩
    rw [← hr] at hrep' hentries' hremoved
    refine ⟨⟨dictDeleteAll zs.dict r.2, r.1⟩, ?_, ⟨ns', hrep', hentries'⟩, ?_⟩
    · rw [Op.zsl, Op.apply, ← hr, hremoved, length_map, length_take, hP, hQ,
        length_take, length_drop]
      simp only [Option.some.injEq, Prod.mk.injEq, true_and]
      omega
    · simp only [hremoved, Op.apply, deleteRanks, ← hP, ← hQ]
      refine dict_deleteAll h.dict (fun a => ?_) fun a ha hM => ?_
      · nth_rewrite 1 [hl]
        simp only [mem_append]
        tauto
      · rw [hl, nodup_append, nodup_append] at hnd
        rcases mem_append.1 ha with ha | ha
        · exact hnd.2.2 a ha a (mem_append_left _ hM) rfl
        · exact hnd.2.1.2.2 a hM a ha rfl

end

/-! ## The ziplist -/

section

variable [LinearOrder S] {strtod : Bytes → S} {d2string : S → Bytes}
  (hparse : ∀ s, strtod (d2string s) = s)

include hparse

omit [LinearOrder S] in
theorem zzlEntries_zzlList (l : List (Entry S)) : zzlEntries strtod (zzlList d2string l) = l := by
  induction l with
  | nil => rfl
  | cons e l ih => rw [zzlList_cons, zzlEntries, hparse, ih]

variable {l : List (Entry S)}

theorem zzl_step (hl : Sorted l) (op : Op S) (hop : op.Legal l) :
    op.zzl strtod d2string (zzlList d2string l) =
      some (zzlList d2string (op.apply l).1, (op.apply l).2) := by
  cases op with
  | insert level score ele =>
    rw [Op.zzl, zzlInsert_eq hparse hl fun hin => hop.2.2 _ hin rfl]
    rfl
  | delete ele =>
    rw [Op.zzl, Op.apply]
    cases hfind : l.find? fun a => a.2 = ele with
    | none =>
      rw [zzlFind_none hparse fun a ha => by simpa using find?_eq_none.1 hfind a ha]
      rfl
    | some a =>
      obtain ⟨ha, A, R, rfl, hA⟩ := find?_eq_some_iff_append.1 hfind
      obtain rfl : a.2 = ele := by simpa using ha
      rw [zzlFind_some hparse A R a fun b hb => by simpa using hA b hb]
      simp only [bind_eq_bind, bind_some, zzlDelete_eq, hl.deleteEntry_middle]
      rfl
  | deleteRangeByScore range => exact zzlDeleteRangeByScore_eq hparse range hl
  | deleteRangeByRank start stop =>
    rw [Op.zzl, zzlDeleteRangeByRank_eq l hop.1 hop.2.1 hop.2.2]
    rfl

theorem zzlFirstInRange_entry (range : RangeSpec S) (hl : Sorted l) :
    ∃ r, zzlFirstInRange strtod (zzlList d2string l) range = some r ∧
      r.map (zzlEntry strtod (zzlList d2string l)) = (firstInRange range l).map some := by
  obtain ⟨A, B, C, h⟩ := hl.rangeSplit range
  refine ⟨_, zzlFirstInRange_eq hparse hl h, ?_⟩
  rw [firstInRange, h.filter]
  cases B with
  | nil => rfl
  | cons b B =>
    rw [cursor, if_neg (cons_ne_nil b B), map_some, h.eq, cons_append, zzlEntry_eq hparse]
    rfl

/-! ## Conversion -/

omit hparse in
theorem insertEntry_last {e : Entry S} (h : ∀ a ∈ l, key a < key e) :
    insertEntry e l = l ++ [e] := by
  rw [insertEntry, filter_eq_self.2 fun a ha => decide_eq_true (h a ha),
    filter_eq_nil_iff.2 fun a ha => by simp [h a ha]]

omit [LinearOrder S] hparse in
theorem zzlNext_eq (A R : List (Entry S)) (e : Entry S) :
    zzlNext (zzlList d2string (A ++ e :: R)) (2 * A.length + 1) =
      some ((cursor (A ++ [e]) R).map fun p => (p, p + 1)) := by
  rw [zzlNext, ziplistNext_score]
  cases R with
  | nil => rfl
  | cons f R =>
    have hnext := @ziplistNext_element S d2string (A ++ [e]) R f
    rw [append_assoc, singleton_append] at hnext
    rw [cursor, if_neg (cons_ne_nil f R)]
    simp only [hnext, bind_eq_bind, bind_some]
    rfl

theorem convertZiplist_eq {levels : ℕ → ℕ} (hlevels : ∀ n, 0 < levels n ∧ levels n ≤ maxLevel) :
    ∀ (R A : List (Entry S)) (fuel n : ℕ) (zs : ZSet S), Sorted (A ++ R) → Distinct (A ++ R) →
      ZsetRep zs A → R.length < fuel →
      ∃ zs', convertZiplist strtod (zzlList d2string (A ++ R)) levels fuel
          ((cursor A R).map fun p => (p, p + 1)) n zs = some zs' ∧ ZsetRep zs' (A ++ R)
  | R, A, 0, _, _, _, _, _, hfuel => absurd hfuel (Nat.not_lt_zero _)
  | [], A, fuel + 1, n, zs, _, _, hrep, _ => ⟨zs, rfl, by rwa [append_nil]⟩
  | e :: R, A, fuel + 1, n, zs, hsorted, hdistinct, hrep, hfuel => by
    have hbefore : ∀ a ∈ A, key a < key e := fun a ha =>
      (pairwise_append.1 hsorted).2.2 a ha e mem_cons_self
    have hnew : ∀ a ∈ A, a.2 ≠ e.2 := fun a ha heq =>
      (hbefore a ha).ne (congrArg key (hdistinct a (by simp [ha]) e (by simp) heq))
    obtain ⟨hnone, hrep'⟩ := hrep.insert (hlevels n).1 (hlevels n).2 e.1 hnew
    rw [insertEntry_last hbefore] at hrep'
    have hcons : A ++ e :: R = A ++ [e] ++ R := by simp
    obtain ⟨zs', hloop, hfinal⟩ := convertZiplist_eq hlevels R (A ++ [e]) fuel (n + 1) _
      (hcons ▸ hsorted) (hcons ▸ hdistinct) hrep' (Nat.lt_of_succ_lt_succ hfuel)
    refine ⟨zs', ?_, hcons ▸ hfinal⟩
    rw [cursor, if_neg (cons_ne_nil e R), map_some, convertZiplist,
      zzlGetScore_eq hparse, ziplistGet_element, zzlNext_eq]
    simp only [bind_eq_bind, bind_some, hnone, if_true]
    rw [hcons]
    exact hloop

omit [LinearOrder S] hparse in
theorem convertSkiplist_eq {zsl : Skiplist S} {ns : List ℕ} (h : Shape zsl ns) :
    ∀ (B A : List ℕ) (fuel : ℕ), ns = A ++ B → B.length < fuel →
      convertSkiplist d2string zsl fuel B.head? (zzlList d2string (entries zsl A)) =
        some (zzlList d2string (entries zsl ns))
  | B, A, 0, _, hfuel => absurd hfuel (Nat.not_lt_zero _)
  | [], A, fuel + 1, hns, _ => by
    rw [hns, append_nil]
    rfl
  | x :: B, A, fuel + 1, hns, hfuel => by
    have hforward : zsl.forward 0 x = B.head? := by
      have hx : tall zsl 0 x = true := by
        rw [tall, decide_eq_true_iff]
        exact (h.height x (by simp [hns])).1
      rw [(h.linked 0 h.level.1 (header :: A) x B (by rw [hns, cons_append]) hx).1,
        h.find?_zero fun y hy => by simp [hns, hy]]
    have hloop := convertSkiplist_eq h B (A ++ [x]) fuel (by simp [hns])
      (Nat.lt_of_succ_lt_succ hfuel)
    rw [entries_append] at hloop
    rw [head?_cons, convertSkiplist, zzlInsertAt_none, bind_eq_bind, bind_some, hforward]
    exact hloop

end

/-! ## Runs -/

variable [LinearOrder S] [Zero S] (strtod : Bytes → S) (d2string : S → Bytes)

inductive SameRun : List Bytes → ZSet S → Prop
  | create : SameRun [] createZsetObject
  | step {zl zl' : List Bytes} {zs zs' : ZSet S} {n n' : ℕ} (op : Op S) : SameRun zl zs →
      op.Legal (zslEntries zs.zsl) → op.zzl strtod d2string zl = some (zl', n) →
      op.zsl zs = some (zs', n') → SameRun zl' zs'

variable {strtod d2string}

theorem SameRun.rep (hparse : ∀ s, strtod (d2string s) = s) {zl : List Bytes} {zs : ZSet S}
    (h : SameRun strtod d2string zl zs) : ∃ l, zl = zzlList d2string l ∧ ZsetRep zs l := by
  induction h with
  | create => exact ⟨[], rfl, zsetRep_create⟩
  | step op _ hop hzzl hzsl ih =>
    obtain ⟨l, rfl, hrep⟩ := ih
    rw [hrep.entries] at hop
    obtain ⟨zs'', hzsl', hrep'⟩ := hrep.step op hop
    rw [zzl_step hparse hrep.sorted op hop, Option.some.injEq, Prod.mk.injEq] at hzzl
    rw [hzsl', Option.some.injEq, Prod.mk.injEq] at hzsl
    exact ⟨(op.apply l).1, hzzl.1.symm, hzsl.1 ▸ hrep'⟩

/-- After the same operations both encodings have the same entries in the same order, find the same
first and last entries in every range, and every further operation succeeds on both and deletes
the same number of elements; `zsetConvert` keeps the entries, from a ziplist if it is not empty. -/
theorem encodings_agree (hparse : ∀ s, strtod (d2string s) = s) {zl : List Bytes} {zs : ZSet S}
    (h : SameRun strtod d2string zl zs) :
    zzlEntries strtod zl = zslEntries zs.zsl ∧
    (∀ range, ∃ r r', zzlFirstInRange strtod zl range = some r ∧
      zslFirstInRange zs.zsl range = some r' ∧
      r.map (zzlEntry strtod zl) = r'.map fun x => some (zs.zsl.node x).entry) ∧
    (∀ range, ∃ r, zzlLastInRange strtod zl range = some r ∧ r.map (zzlEntry strtod zl) =
        (zslLastInRange zs.zsl range).map fun x => some (zs.zsl.node x).entry) ∧
    (∀ op : Op S, op.Legal (zslEntries zs.zsl) → ∃ zl' zs' n,
      op.zzl strtod d2string zl = some (zl', n) ∧ op.zsl zs = some (zs', n)) ∧
    (∀ levels : ℕ → ℕ, (∀ n, 0 < levels n ∧ levels n ≤ maxLevel) →
      (zl ≠ [] → ∃ zs', zsetConvert strtod d2string levels (.ziplist zl) .skiplist =
          some (.skiplist zs') ∧ zslEntries zs'.zsl = zzlEntries strtod zl) ∧
      ∃ zl', zsetConvert strtod d2string levels (.skiplist zs) .ziplist = some (.ziplist zl') ∧
        zzlEntries strtod zl' = zslEntries zs.zsl) := by
  obtain ⟨l, rfl, hrep⟩ := h.rep hparse
  obtain ⟨ns, hns, hentries⟩ := hrep.nodes
  rw [hrep.entries, zzlEntries_zzlList hparse]
  refine ⟨rfl, fun range => ?_, fun range => ?_, fun op hop => ?_, fun levels hlevels => ⟨?_, ?_⟩⟩
  · obtain ⟨r, hr, hentry⟩ := zzlFirstInRange_entry hparse range hrep.sorted
    obtain ⟨r', hr', hentry'⟩ := hns.firstInRange range
    refine ⟨r, r', hr, hr', ?_⟩
    rw [hentry, ← hentries, ← hentry', Option.map_map]
    rfl
  · obtain ⟨r, hr, hentry⟩ := zzlLastInRange_eq hparse range hrep.sorted
    refine ⟨r, hr, ?_⟩
    rw [hentry, ← hentries, ← hns.lastInRange range, Option.map_map]
    rfl
  · obtain ⟨zs', hzsl, -⟩ := hrep.step op hop
    exact ⟨_, zs', _, zzl_step hparse hrep.sorted op hop, hzsl⟩
  · intro hne
    obtain ⟨e, l, rfl⟩ : ∃ e l', l = e :: l' :=
      exists_cons_of_ne_nil fun hnil => hne (by rw [hnil]; rfl)
    obtain ⟨zs', hloop, hrep'⟩ := convertZiplist_eq hparse hlevels (e :: l) []
      ((zzlList d2string (e :: l)).length + 1) 0 createZsetObject hrep.sorted hrep.distinct
      zsetRep_create (by rw [length_zzlList]; omega)
    rw [nil_append] at hloop hrep'
    refine ⟨zs', ?_, hrep'.entries⟩
    have hnext : ziplistNext (zzlList d2string (e :: l)) 0 = some 1 :=
      @ziplistNext_element S d2string [] l e
    exact congrArg (Option.bind · _) hloop
  · have hforward : zs.zsl.forward 0 header = ns.head? := hns.shape.forward_header
    have hloop := @convertSkiplist_eq S d2string _ _ hns.shape ns [] (zs.zsl.length + 1) rfl
      (by rw [hns.shape.length]; omega)
    refine ⟨zzlList d2string l, ?_, zzlEntries_zzlList hparse l⟩
    rw [zsetConvert, hforward, ← hentries]
    exact congrArg (Option.bind · _) hloop

/-- Three insertions and a deletion, with decimal scores. -/
theorem encodings_agree_three : ∃ (zl : List Bytes) (zs : ZSet ℕ),
    SameRun (Decimal.value 0) Decimal.decimal zl zs ∧ zl = [[97], [53], [98], [53]] ∧
      zzlEntries (Decimal.value 0) zl = zslEntries zs.zsl := by
  have h₁ : SameRun (Decimal.value 0) Decimal.decimal [[98], [53]] _ :=
    .step (n := 0) (.insert 2 5 [98]) .create (by decide +kernel) (by decide +kernel) rfl
  have h₂ : SameRun (Decimal.value 0) Decimal.decimal [[98], [53], [99], [55]] _ :=
    .step (n := 0) (.insert 1 7 [99]) h₁ (by decide +kernel) (by decide +kernel) rfl
  have h₃ : SameRun (Decimal.value 0) Decimal.decimal [[97], [53], [98], [53], [99], [55]] _ :=
    .step (n := 0) (.insert 3 5 [97]) h₂ (by decide +kernel) (by decide +kernel) rfl
  have h₄ : SameRun (Decimal.value 0) Decimal.decimal [[97], [53], [98], [53]] _ :=
    .step (n := 1) (.delete [99]) h₃ trivial (by decide +kernel) rfl
  exact ⟨_, _, h₄, rfl, (encodings_agree Decimal.value_decimal h₄).1⟩

/-- The assertion that the ziplist has an element. -/
theorem zsetConvert_empty :
    SameRun (Decimal.value 0) Decimal.decimal [] (createZsetObject : ZSet ℕ) ∧
      ∀ levels, zsetConvert (Decimal.value 0) Decimal.decimal levels
        (.ziplist [] : ZsetObject ℕ) .skiplist = none :=
  ⟨.create, fun _ => rfl⟩

end ServerStack.Redis.Zset
