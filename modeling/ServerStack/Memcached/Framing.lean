import ServerStack.Lib.Run
import ServerStack.Memcached.Machine

/-!
# Consuming the input

What the reading states of a connection do to its input, for both protocols: the bytes that were not
consumed yet are those in the buffer and those that will arrive.
-/

namespace ServerStack.Memcached

open List

def socketBytes (socket : List Arrival) : Bytes :=
  socket.flatMap fun | .data bytes => bytes | .eof => []

def socketWeight (socket : List Arrival) : ℕ := 2 * (socketBytes socket).length + socket.length

@[simp] theorem socketBytes_data (bytes : Bytes) (socket : List Arrival) :
    socketBytes (.data bytes :: socket) = bytes ++ socketBytes socket := rfl

namespace Conn

variable (c : Conn)

def unread : Bytes := c.rbuf ++ socketBytes c.socket

/-- A byte in the buffer weighs less than one that has to be read. -/
def weight : ℕ := socketWeight c.socket + c.rbuf.length

def Fits : Prop := 0 < c.rsize ∧ c.rbuf.length ≤ c.rsize

/-- The input is the rest of a request, of a known length, and then what follows it. -/
def Behind (pending : ℤ) (rest : Bytes) : Prop :=
  ∃ block : Bytes, (block.length : ℤ) = pending ∧ c.unread = block ++ rest

end Conn

/-! ## One read -/

section

variable {n : ℕ} {socket socket' : List Arrival} {bytes : Bytes}

theorem recv_bytes (hn : 0 < n) (h : recv n socket = (.bytes bytes, socket')) :
    bytes ≠ [] ∧ bytes.length ≤ n ∧ socketBytes socket = bytes ++ socketBytes socket' ∧
      socketWeight socket' + 2 * bytes.length ≤ socketWeight socket ∧
      (Arrival.eof ∈ socket' → Arrival.eof ∈ socket) := by
  unfold recv at h
  split at h
  · cases h
  · cases h
  · rename_i data rest
    split_ifs at h with hempty hlong
    · cases h
    · cases h
      rw [take_of_length_le hlong]
      refine ⟨hempty, hlong, rfl, ?_, mem_cons_of_mem _⟩
      simp only [socketWeight, socketBytes_data, length_append, length_cons]
      omega
    · cases h
      refine ⟨fun hnil => ?_, length_take_le _ _, ?_, ?_, by simp⟩
      · rcases take_eq_nil_iff.1 hnil with rfl | rfl
        · omega
        · exact hempty rfl
      · rw [socketBytes_data, socketBytes_data, ← append_assoc, take_append_drop]
      · simp only [socketWeight, socketBytes_data, length_append, length_cons,
          length_take, length_drop]
        omega

theorem recv_again (h : recv n socket = (.again, socket')) :
    socketBytes socket' = socketBytes socket ∧
      (socket = [] ∧ socket' = [] ∨ socketWeight socket' < socketWeight socket) ∧
      (Arrival.eof ∈ socket' → Arrival.eof ∈ socket) := by
  unfold recv at h
  split at h
  · cases h
    exact ⟨rfl, .inl ⟨rfl, rfl⟩, id⟩
  · cases h
  · rename_i data rest
    split_ifs at h with hempty hlong
    · cases h
      subst hempty
      refine ⟨rfl, .inr ?_, mem_cons_of_mem _⟩
      simp [socketWeight]
    · cases h
    · cases h

theorem recv_eof (h : recv n socket = (.eof, socket')) :
    socket' = socket ∧ Arrival.eof ∈ socket := by
  unfold recv at h
  split at h
  · cases h
  · cases h
    exact ⟨rfl, mem_cons_self⟩
  · split_ifs at h <;> cases h

end

/-! ## Reading into the buffer -/

structure Received (c c' : Conn) : Prop where
  same : c' = { c with rbuf := c'.rbuf, rsize := c'.rsize, socket := c'.socket }
  unread : c'.unread = c.unread
  weight : c'.weight ≤ c.weight
  eof : Arrival.eof ∈ c'.socket → Arrival.eof ∈ c.socket
  fits : c'.Fits
  grows : c.rbuf <+: c'.rbuf

variable {c c' : Conn} {k : ℕ} {o : Env × Cache}

theorem Received.refl (h : c.Fits) : Received c c :=
  ⟨rfl, rfl, le_rfl, id, h, prefix_rfl⟩

theorem Received.trans {a b : Conn} (hab : Received a b) (hbc : Received b c) : Received a c where
  same := by
    rw [hbc.same, hab.same]
  unread := hbc.unread.trans hab.unread
  weight := hbc.weight.trans hab.weight
  eof := fun h => hab.eof (hbc.eof h)
  fits := hbc.fits
  grows := hab.grows.trans hbc.grows

theorem Received.protocol (h : Received c c') : c'.protocol = c.protocol := by
  rw [h.same]

theorem Received.commands (h : Received c c') : c'.commands = c.commands := by
  rw [h.same]

theorem Received.noreply (h : Received c c') : c'.noreply = c.noreply := by
  rw [h.same]

theorem Received.of_socket_nil (h : Received c c') (hsocket : c.socket = []) :
    c'.weight = c.weight ∧ c'.socket = [] := by
  have hunread := congrArg List.length h.unread
  have hweight := h.weight
  unfold Conn.unread Conn.weight socketWeight at *
  rw [hsocket] at *
  simp only [length_append, socketBytes, flatMap_nil, length_nil] at *
  have hzero : c'.socket.length = 0 := by omega
  exact ⟨by omega, length_eq_zero_iff.1 hzero⟩

/-- What the result of `try_read_network` says about the buffer; `before` is what was found before
the loop got here. -/
def ReadOutcome (before : TryReadResult) (c c' : Conn) : TryReadResult → Prop
  | .dataReceived => before = .dataReceived ∨ c'.weight < c.weight ∧ c'.rbuf ≠ []
  | .noDataReceived =>
    before = .noDataReceived ∧ c'.rbuf = c.rbuf ∧ (c.socket = [] ∨ c'.weight < c.weight)
  | .error => Arrival.eof ∈ c.socket
  | .memoryError => False

theorem readOnce_spec (gotdata : TryReadResult) (hroom : c.rbuf.length < c.rsize) :
    Received c (readOnce gotdata c).1 ∧ (readOnce gotdata c).1.rsize = c.rsize ∧
      (∀ r, (readOnce gotdata c).2 = some r → r = gotdata ∧ (readOnce gotdata c).1.rbuf = c.rbuf ∧
            (c.socket = [] ∨ (readOnce gotdata c).1.weight < c.weight) ∨
          r = .dataReceived ∧ (readOnce gotdata c).1.weight < c.weight ∧
            (readOnce gotdata c).1.rbuf ≠ [] ∨
          r = .error ∧ Arrival.eof ∈ c.socket) ∧
      ((readOnce gotdata c).2 = none → (readOnce gotdata c).1.weight < c.weight ∧
        (readOnce gotdata c).1.rbuf ≠ []) := by
  have hrsize : 0 < c.rsize := by omega
  unfold readOnce
  simp only
  split
  next bytes socket hrecv =>
    obtain ⟨hne, hlength, hbytes, hweight, heof⟩ := recv_bytes (by omega) hrecv
    have hfits : (c.rbuf ++ bytes).length ≤ c.rsize := by
      rw [length_append]
      omega
    have hpos := length_pos_iff.2 hne
    have hlt : socketWeight socket + (c.rbuf ++ bytes).length <
        socketWeight c.socket + c.rbuf.length := by
      rw [length_append]
      omega
    have hbuf : c.rbuf ++ bytes ≠ [] := fun hnil => hne (append_eq_nil_iff.1 hnil).2
    refine ⟨⟨rfl, ?_, hlt.le, heof, ⟨hrsize, hfits⟩, prefix_append _ _⟩, rfl, fun r hr => ?_,
      fun _ => ⟨hlt, hbuf⟩⟩
    · simp only [Conn.unread, hbytes, append_assoc]
    · split_ifs at hr
      cases hr
      exact .inr (.inl ⟨rfl, hlt, hbuf⟩)
  next socket hrecv =>
    obtain ⟨hbytes, hweight, heof⟩ := recv_again hrecv
    have hle : socketWeight socket ≤ socketWeight c.socket := by
      rcases hweight with ⟨hc, hs⟩ | hlt
      · rw [hc, hs]
      · exact hlt.le
    refine ⟨⟨rfl, ?_, by simpa [Conn.weight] using hle, heof, ⟨hrsize, hroom.le⟩,
      prefix_rfl⟩, rfl, fun r hr => .inl ⟨(Option.some.inj hr).symm, rfl, ?_⟩, (nomatch ·)⟩
    · simp only [Conn.unread, hbytes]
    · rcases hweight with ⟨hc, -⟩ | hlt
      · exact .inl hc
      · exact .inr (by simpa [Conn.weight] using hlt)
  next socket hrecv =>
    obtain ⟨rfl, heof⟩ := recv_eof hrecv
    exact ⟨Received.refl ⟨hrsize, hroom.le⟩, rfl,
      fun r hr => .inr (.inr ⟨(Option.some.inj hr).symm, heof⟩), fun hnone => by cases hnone⟩

theorem Received.grow {rsize : ℕ} (h : Received { c with rsize := rsize } c') : Received c c' where
  same := by
    rw [h.same]
  unread := h.unread
  weight := h.weight
  eof := h.eof
  fits := h.fits
  grows := h.grows

theorem continueRead_spec {next : Conn → Conn × TryReadResult} {gotdata : TryReadResult}
    (hgot : gotdata = .noDataReceived ∨ gotdata = .dataReceived) {c : Conn}
    (hroom : c.rbuf.length < c.rsize)
    (hnext : ∀ c', c'.Fits → c'.rsize = c.rsize →
      Received c' (next c').1 ∧ ReadOutcome .dataReceived c' (next c').1 (next c').2) :
    Received c (continueRead next (readOnce gotdata c)).1 ∧
      ReadOutcome gotdata c (continueRead next (readOnce gotdata c)).1
        (continueRead next (readOnce gotdata c)).2 := by
  obtain ⟨hreceived, hrsize, hsome, hnone⟩ := readOnce_spec gotdata hroom
  rcases hread : readOnce gotdata c with ⟨c', _ | r⟩
  · rw [hread] at hreceived hrsize hnone
    obtain ⟨hreceived', houtcome⟩ := hnext c' hreceived.fits hrsize
    have hlt := hreceived'.weight.trans_lt (hnone rfl).1
    have hbuf : (next c').1.rbuf ≠ [] := fun hnil =>
      (hnone rfl).2 (prefix_nil.1 (hnil ▸ hreceived'.grows))
    refine ⟨hreceived.trans hreceived', ?_⟩
    unfold continueRead
    cases hr : (next c').2 with
    | dataReceived => exact .inr ⟨hlt, hbuf⟩
    | noDataReceived =>
      rw [hr] at houtcome
      cases houtcome.1
    | error =>
      rw [hr] at houtcome
      exact hreceived.eof houtcome
    | memoryError =>
      rw [hr] at houtcome
      exact houtcome
  · rw [hread] at hreceived hsome
    refine ⟨hreceived, ?_⟩
    rcases hsome r rfl with ⟨rfl, hrbuf, hweight⟩ | ⟨rfl, hlt, hbuf⟩ | ⟨rfl, heof⟩
    · rcases hgot with rfl | rfl
      · exact ⟨rfl, hrbuf, hweight⟩
      · exact .inl rfl
    · exact .inr ⟨hlt, hbuf⟩
    · exact heof

theorem tryReadLoop_spec (fuel numAllocs : ℕ) (gotdata : TryReadResult) (c : Conn)
    (hgot : gotdata = .noDataReceived ∧ 0 < fuel ∧ numAllocs < 4 ∨ gotdata = .dataReceived)
    (hfits : c.Fits) (hcap : c.rsize ≤ 2 ^ 26 * 2 ^ numAllocs) (hallocs : numAllocs ≤ 4) :
    Received c (tryReadLoop true fuel numAllocs gotdata c).1 ∧
      ReadOutcome gotdata c (tryReadLoop true fuel numAllocs gotdata c).1
        (tryReadLoop true fuel numAllocs gotdata c).2 := by
  induction fuel generalizing numAllocs gotdata c with
  | zero =>
    rcases hgot with ⟨-, hpos, -⟩ | rfl
    · exact absurd hpos (Nat.lt_irrefl 0)
    · exact ⟨Received.refl hfits, .inl rfl⟩
  | succ fuel ih =>
    obtain ⟨hpos, hle⟩ := id hfits
    have hgot' := hgot.imp_left And.left
    rw [tryReadLoop]
    split_ifs with hfull hfour hmemory
    · rcases hgot with ⟨-, -, hlt⟩ | rfl
      · omega
      · exact ⟨Received.refl hfits, .inl rfl⟩
    · -- four doublings stay below the largest size
      exfalso
      have : (2 : ℕ) ^ numAllocs ≤ 2 ^ 3 := Nat.pow_le_pow_right (by decide) (by omega)
      rcases hmemory with hfalse | hlarge
      · cases hfalse
      · omega
    · have hgrow := @continueRead_spec (tryReadLoop true fuel (numAllocs + 1) .dataReceived) gotdata
        hgot' { c with rsize := c.rsize * 2 } (by dsimp only; omega) fun c' hfits' hsize =>
          ih (numAllocs + 1) .dataReceived c' (.inr rfl) hfits'
            (by rw [hsize]; dsimp only; omega) (by omega)
      exact ⟨hgrow.1.grow, hgrow.2⟩
    · exact continueRead_spec hgot' (by omega) fun c' hfits' hsize =>
        ih numAllocs .dataReceived c' (.inr rfl) hfits' (hsize ▸ hcap) hallocs

theorem tryReadNetwork_spec (hfits : c.Fits) (hcap : c.rsize ≤ 2 ^ 26) :
    Received c (tryReadNetwork true c).1 ∧
      ReadOutcome .noDataReceived c (tryReadNetwork true c).1 (tryReadNetwork true c).2 :=
  tryReadLoop_spec _ 0 _ c (.inl ⟨rfl, Nat.succ_pos _, by decide⟩) hfits (by omega) (by decide)

/-! ## Consuming a block -/

structure Consumed (k : ℕ) (c c' : Conn) : Prop where
  unread : ∃ block : Bytes, block.length = k ∧ c.unread = block ++ c'.unread
  weight : c'.weight + k ≤ c.weight
  eof : Arrival.eof ∈ c'.socket → Arrival.eof ∈ c.socket
  fits : c.Fits → c'.Fits

theorem Conn.Behind.unread_eq {rest : Bytes} (h : c.Behind 0 rest) : c.unread = rest := by
  obtain ⟨block, hblock, hunread⟩ := h
  rwa [length_eq_zero_iff.1 (show block.length = 0 by omega)] at hunread

theorem Conn.Behind.consume {pending : ℤ} {rest : Bytes} (h : c.Behind pending rest)
    (hconsumed : Consumed k c c') (hk : (k : ℤ) ≤ pending) : c'.Behind (pending - k) rest := by
  obtain ⟨block, hlength, hunread⟩ := h
  obtain ⟨first, hfirst, hunread'⟩ := hconsumed.unread
  have heq : first ++ c'.unread = block ++ rest := by rw [← hunread', hunread]
  refine ⟨block.drop k, by rw [length_drop]; omega, ?_⟩
  have hdrop := congrArg (List.drop k) heq
  rwa [drop_left' hfirst, drop_append_of_le_length (by omega)] at hdrop

theorem consumed_drop (hk : k ≤ c.rbuf.length) (hrbuf : c'.rbuf = c.rbuf.drop k)
    (hsocket : c'.socket = c.socket) (hrsize : c'.rsize = c.rsize) : Consumed k c c' where
  unread := by
    refine ⟨c.rbuf.take k, length_take_of_le hk, ?_⟩
    unfold Conn.unread
    rw [hrbuf, hsocket, ← append_assoc, take_append_drop]
  weight := by
    unfold Conn.weight
    rw [hrbuf, hsocket, length_drop]
    omega
  eof := by rw [hsocket]; exact id
  fits := by
    unfold Conn.Fits
    rw [hrbuf, length_drop]
    omega

theorem consumed_recv {c c' : Conn} {n : ℕ} {bytes : Bytes} (hn : 0 < n) (hempty : c.rbuf = [])
    (hrecv : recv n c.socket = (.bytes bytes, c'.socket)) (hrbuf : c'.rbuf = c.rbuf)
    (hrsize : c'.rsize = c.rsize) : Consumed bytes.length c c' ∧ 0 < bytes.length := by
  obtain ⟨hne, -, hbytes, hweight, heof⟩ := recv_bytes hn hrecv
  refine ⟨⟨⟨bytes, rfl, ?_⟩, ?_, heof, ?_⟩, length_pos_iff.2 hne⟩
  · unfold Conn.unread
    rw [hrbuf, hempty, hbytes, nil_append, nil_append]
  · unfold Conn.weight
    rw [hrbuf]
    omega
  · unfold Conn.Fits
    rw [hrbuf, hrsize]
    exact id

theorem Consumed.trans {j : ℕ} {a b : Conn} (hab : Consumed j a b) (hbc : Consumed k b c) :
    Consumed (j + k) a c where
  unread := by
    obtain ⟨block, hblock, hunread⟩ := hab.unread
    obtain ⟨block', hblock', hunread'⟩ := hbc.unread
    refine ⟨block ++ block', by rw [length_append, hblock, hblock'], ?_⟩
    rw [hunread, hunread', append_assoc]
  weight := by
    have := hab.weight
    have := hbc.weight
    omega
  eof := fun h => hab.eof (hbc.eof h)
  fits := fun h => hbc.fits (hab.fits h)

theorem consumed_again {c c' : Conn} {n : ℕ} (hrecv : recv n c.socket = (.again, c'.socket))
    (hrbuf : c'.rbuf = c.rbuf) (hrsize : c'.rsize = c.rsize) :
    Consumed 0 c c' ∧ (c.socket = [] ∨ c'.weight < c.weight) := by
  obtain ⟨hbytes, hweight, heof⟩ := recv_again hrecv
  refine ⟨⟨⟨[], rfl, ?_⟩, ?_, heof, ?_⟩, ?_⟩
  · unfold Conn.unread
    rw [hrbuf, hbytes, nil_append]
  · unfold Conn.weight
    rw [hrbuf]
    rcases hweight with ⟨hc, hc'⟩ | hlt
    · rw [hc, hc']
      omega
    · omega
  · unfold Conn.Fits
    rw [hrbuf, hrsize]
    exact id
  · rcases hweight with ⟨hc, -⟩ | hlt
    · exact .inl hc
    · refine .inr ?_
      unfold Conn.weight
      rw [hrbuf]
      omega

/-- What a step of a reading state does, with a counter of the bytes to be read. -/
structure ReadsOn (before after : ℤ) (c c' : Conn) : Prop where
  same : c' = { c with
    ritem := c'.ritem
    rlbytes := c'.rlbytes
    sbytes := c'.sbytes
    rbuf := c'.rbuf
    socket := c'.socket
    state := c'.state }
  consumed : ∃ k : ℕ, Consumed k c c' ∧ (k : ℤ) ≤ before ∧ after = before - k
  outcome : c'.state = c.state ∧ (c'.weight < c.weight ∨ c.rbuf = [] ∧ c.socket = []) ∨
    c'.state = .closing ∧ Arrival.eof ∈ c.socket

theorem ReadsOn.nonneg {before after : ℤ} (h : ReadsOn before after c c') :
    0 ≤ after ∧ after ≤ before := by
  obtain ⟨k, -, hk, hafter⟩ := h.consumed
  omega

theorem ReadsOn.behind {before after : ℤ} {rest : Bytes} (h : ReadsOn before after c c')
    (hbehind : c.Behind before rest) : c'.Behind after rest := by
  obtain ⟨k, hconsumed, hk, rfl⟩ := h.consumed
  exact hbehind.consume hconsumed hk

section

variable {c : Conn} {n : ℕ} {before : ℤ} (hempty : c.rbuf = [])

include hempty

theorem readsOn_bytes {c' : Conn} {bytes : Bytes} (hn : 0 < n) (hle : (n : ℤ) ≤ before)
    (hrecv : recv n c.socket = (.bytes bytes, c'.socket))
    (hsame : c' = { c with
      ritem := c'.ritem, rlbytes := c'.rlbytes, sbytes := c'.sbytes, socket := c'.socket }) :
    ReadsOn before (before - bytes.length) c c' := by
  have hlength := (recv_bytes hn hrecv).2.1
  obtain ⟨hconsumed, hbytes⟩ := consumed_recv hn hempty hrecv (by rw [hsame]) (by rw [hsame])
  have hweight := hconsumed.weight
  have hstate : c'.state = c.state := by rw [hsame]
  exact ⟨by rw [hsame], ⟨_, hconsumed, by omega, rfl⟩, .inl ⟨hstate, .inl (by omega)⟩⟩

theorem readsOn_again {socket : List Arrival} (hbefore : 0 ≤ before)
    (hrecv : recv n c.socket = (.again, socket)) :
    ReadsOn before before c { c with socket := socket } := by
  obtain ⟨hconsumed, hweight⟩ := @consumed_again c { c with socket := socket } _ hrecv rfl rfl
  refine ⟨rfl, ⟨0, hconsumed, hbefore, by simp⟩, .inl ⟨rfl, ?_⟩⟩
  exact hweight.symm.imp_right fun hnil => ⟨hempty, hnil⟩

omit hempty in
theorem readsOn_eof {socket : List Arrival} (hbefore : 0 ≤ before)
    (hrecv : recv n c.socket = (.eof, socket)) :
    ReadsOn before before c { c with socket := socket, state := .closing } := by
  obtain ⟨rfl, heof⟩ := recv_eof hrecv
  exact ⟨rfl, ⟨0, ⟨⟨[], rfl, rfl⟩, le_rfl, id, id⟩, hbefore, by simp⟩, .inr ⟨rfl, heof⟩⟩

end

theorem nreadSocket_readsOn {c : Conn} (hpos : 0 < c.rlbytes) (hlt : c.rlbytes < 2 ^ 31)
    (hempty : c.rbuf = []) : ReadsOn c.rlbytes (nreadSocket c).rlbytes c (nreadSocket c) := by
  have hmod : c.rlbytes % 2 ^ 64 = c.rlbytes := Int.emod_eq_of_lt hpos.le (by omega)
  unfold nreadSocket
  split
  next bytes socket hrecv => exact readsOn_bytes hempty (by omega) (by omega) hrecv rfl
  next socket hrecv => exact readsOn_again hempty hpos.le hrecv
  next socket hrecv => exact readsOn_eof hpos.le hrecv

theorem nreadMore_readsOn (hpos : 0 < c.rlbytes) (hlt : c.rlbytes < 2 ^ 31) :
    ReadsOn c.rlbytes (nreadMore c).rlbytes c (nreadMore c) := by
  unfold nreadMore
  rw [if_neg fun h => absurd h.2 hpos.not_gt]
  by_cases hempty : c.rbuf = []
  · simp only [hempty, if_true, if_neg hpos.ne']
    exact nreadSocket_readsOn hpos hlt hempty
  · have hlength := length_pos_iff.2 hempty
    have hconsumed : Consumed (min (c.rbuf.length : ℤ) c.rlbytes).toNat c (takeBuffered c) :=
      consumed_drop (by omega) rfl rfl rfl
    have hrl : (takeBuffered c).rlbytes = c.rlbytes - min (c.rbuf.length : ℤ) c.rlbytes := rfl
    have hweight := hconsumed.weight
    simp only [if_neg hempty]
    split_ifs with hend
    · exact ⟨rfl, ⟨_, hconsumed, by omega, by omega⟩, .inl ⟨rfl, .inl (by omega)⟩⟩
    · have hnil : (takeBuffered c).rbuf = [] := drop_eq_nil_of_le (by omega)
      have hreads := @nreadSocket_readsOn (takeBuffered c) (by omega) (by omega) hnil
      obtain ⟨k, hconsumed', hk, hafter⟩ := hreads.consumed
      have hweight' := hconsumed'.weight
      refine ⟨?_, ⟨_, hconsumed.trans hconsumed', by omega, by omega⟩, ?_⟩
      · rw [hreads.same]
        rfl
      · exact hreads.outcome.imp_left fun hsame => ⟨hsame.1, .inl (by omega)⟩

theorem stepSwallow_readsOn (hpos : 0 < c.sbytes) (hlt : c.sbytes < 2 ^ 31) (hfits : c.Fits) :
    ReadsOn c.sbytes (stepSwallow c).sbytes c (stepSwallow c) := by
  unfold stepSwallow
  rw [if_neg hpos.ne']
  by_cases hempty : c.rbuf = []
  · rw [if_neg (by simpa using hempty)]
    have hrsize := hfits.1
    have hmod : min (c.rsize : ℤ) c.sbytes % 2 ^ 64 = min (c.rsize : ℤ) c.sbytes :=
      Int.emod_eq_of_lt (by omega) (by omega)
    split
    next bytes socket hrecv => exact readsOn_bytes hempty (by omega) (by omega) hrecv rfl
    next socket hrecv => exact readsOn_again hempty hpos.le hrecv
    next socket hrecv => exact readsOn_eof hpos.le hrecv
  · rw [if_pos hempty]
    have hlength := length_pos_iff.2 hempty
    let c' : Conn := { c with
      sbytes := c.sbytes - min (c.rbuf.length : ℤ) c.sbytes
      rbuf := c.rbuf.drop (min (c.rbuf.length : ℤ) c.sbytes).toNat }
    have hconsumed : Consumed (min (c.rbuf.length : ℤ) c.sbytes).toNat c c' :=
      consumed_drop (by omega) rfl rfl rfl
    have hsbytes : c'.sbytes = c.sbytes - min (c.rbuf.length : ℤ) c.sbytes := rfl
    have hweight := hconsumed.weight
    change ReadsOn c.sbytes c'.sbytes c c'
    exact ⟨rfl, ⟨_, hconsumed, by omega, by omega⟩, .inl ⟨rfl, .inl (by omega)⟩⟩

theorem fits_connShrink (h : c.Fits) : 0 < connShrink c ∧ c.rbuf.length ≤ connShrink c := by
  unfold connShrink
  split_ifs with hshrink
  · exact ⟨by decide, hshrink.2.le⟩
  · exact h

/-! ## Rounds of a connection -/

/-- A round of `drive_machine` for one connection; the other connections use the same cache. -/
def connStep (s : Settings) (c : Conn) (o : Env × Cache) : Conn := (step s o.1 o.2 c).2

/-- A round in which the connection is served and its socket takes what is written. -/
def counts (o : Env × Cache) : Bool := !o.1.yield && decide (o.1.transmit = .complete)

theorem counts_of_yield (h : o.1.yield = true) : counts o = false := by
  unfold counts
  rw [h]
  rfl

theorem counts_of_transmit (h : o.1.transmit ≠ .complete) : counts o = false := by
  unfold counts
  rw [decide_eq_false h, Bool.and_false]

def AtRest (c : Conn) : Prop :=
  c.state = .closing ∨ c.state = .closed ∨ (c.state = .waiting ∨ c.state = .read) ∧ c.socket = []

theorem not_atRest {state : ConnState} (hstate : c.state = state)
    (hbusy : state ≠ .closing ∧ state ≠ .closed ∧ state ≠ .waiting ∧ state ≠ .read) :
    ¬ AtRest c := by
  subst hstate
  rintro (hrest | hrest | ⟨hrest | hrest, -⟩)
  · exact hbusy.1 hrest
  · exact hbusy.2.1 hrest
  · exact hbusy.2.2.1 hrest
  · exact hbusy.2.2.2 hrest

theorem AtRest.socket_eq (h : AtRest c) (hstate : c.state = .waiting ∨ c.state = .read) :
    c.socket = [] := by
  rcases h with hrest | hrest | ⟨-, hsocket⟩
  · rw [hrest] at hstate
    exact absurd hstate (by decide)
  · rw [hrest] at hstate
    exact absurd hstate (by decide)
  · exact hsocket

def rank : ConnState → ℕ
  | .closing | .closed => 0
  | .read => 1
  | .waiting => 2
  | .parseCmd => 3
  | .newCmd => 4
  | .swallow => 5
  | .write | .mwrite => 6
  | .nread => 7

/-- In `conn_nread` a value can follow what is read now. -/
def Conn.InFirstStage (c : Conn) : Prop :=
  c.state = .nread ∧ (c.substate = .readingSetHeader ∨ c.substate = .readingSaslAuth)

instance (c : Conn) : Decidable c.InFirstStage := inferInstanceAs (Decidable (_ ∧ _))

def measure (c : Conn) : ℕ := 9 * c.weight + rank c.state + if c.InFirstStage then 1 else 0

theorem measure_lt_of_weight (h : c'.weight < c.weight) : measure c' < measure c := by
  have hrank : ∀ state, rank state < 8 := by
    intro state
    cases state <;> decide
  have := hrank c'.state
  unfold measure
  split_ifs <;> omega

theorem measure_lt_of_rank {state state' : ConnState} (h : c'.weight ≤ c.weight)
    (hstate : c.state = state) (hstate' : c'.state = state') (hrank : rank state' < rank state) :
    measure c' < measure c := by
  have hnread : ¬ c'.InFirstStage := by
    rintro ⟨hnread, -⟩
    rw [← hstate', hnread] at hrank
    cases state <;> exact absurd hrank (by decide)
  unfold measure
  rw [hstate, hstate', if_neg hnread]
  omega

/-- Nothing happens to a connection at rest, and every other connection comes nearer to its rest in
the rounds that count. -/
structure Progress (o : Env × Cache) (c c' : Conn) : Prop where
  atRest : AtRest c → AtRest c'
  le : ¬ AtRest c → measure c' ≤ measure c
  lt : ¬ AtRest c → counts o = true → measure c' < measure c

theorem Progress.of_lt (hbusy : ¬ AtRest c) (h : measure c' < measure c) : Progress o c c' :=
  ⟨fun hrest => absurd hrest hbusy, fun _ => h.le, fun _ _ => h⟩

theorem Progress.refl (hcounts : counts o = false) : Progress o c c :=
  ⟨id, fun _ => le_rfl, fun _ hc => by rw [hcounts] at hc; cases hc⟩

theorem progress_waiting (hstate : c.state = .waiting) :
    Progress o c { c with state := .read } := by
  have hlt : measure { c with state := .read } < measure c :=
    measure_lt_of_rank le_rfl hstate (show _ = ConnState.read from rfl) (by decide)
  exact ⟨fun hrest => .inr (.inr ⟨.inr rfl, hrest.socket_eq (.inl hstate)⟩),
    fun _ => hlt.le, fun _ _ => hlt⟩

theorem stepRead_spec (o : Env × Cache) {env : Env} (hstate : c.state = .read)
    (hrealloc : env.realloc = true) (hfits : c.Fits) (hcap : c.rsize ≤ 2 ^ 26) :
    ∃ c' state, stepRead env c = { c' with state := state } ∧ Received c c' ∧
      Progress o c { c' with state := state } ∧
      (state = .waiting ∧ c'.rbuf = c.rbuf ∨ state = .parseCmd ∧ c'.rbuf ≠ [] ∨
        state = .closing ∧ Arrival.eof ∈ c.socket) := by
  obtain ⟨hreceived, houtcome⟩ := tryReadNetwork_spec hfits hcap
  unfold stepRead
  rw [hrealloc]
  rcases hread : tryReadNetwork true c with ⟨c', r⟩
  rw [hread] at hreceived houtcome
  cases r with
  | noDataReceived =>
    obtain ⟨-, hrbuf, hweight⟩ := houtcome
    have hlt : ¬ AtRest c → measure { c' with state := .waiting } < measure c := by
      intro hbusy
      refine measure_lt_of_weight (hweight.resolve_left fun hnil => hbusy ?_)
      exact .inr (.inr ⟨.inr hstate, hnil⟩)
    refine ⟨c', .waiting, rfl, hreceived, ⟨fun hrest => ?_, fun hbusy => (hlt hbusy).le,
      fun hbusy _ => hlt hbusy⟩, .inl ⟨rfl, hrbuf⟩⟩
    exact .inr (.inr ⟨.inl rfl, (hreceived.of_socket_nil (hrest.socket_eq (.inr hstate))).2⟩)
  | dataReceived =>
    obtain ⟨hweight, hbuf⟩ := houtcome.resolve_left (by decide)
    have hlt : measure { c' with state := .parseCmd } < measure c := measure_lt_of_weight hweight
    refine ⟨c', .parseCmd, rfl, hreceived, ⟨fun hrest => ?_, fun _ => hlt.le, fun _ _ => hlt⟩,
      .inr (.inl ⟨rfl, hbuf⟩)⟩
    exact absurd (hreceived.of_socket_nil (hrest.socket_eq (.inr hstate))).1 hweight.ne
  | error =>
    have hlt : measure { c' with state := .closing } < measure c :=
      measure_lt_of_rank hreceived.weight hstate (show _ = ConnState.closing from rfl) (by decide)
    exact ⟨c', .closing, rfl, hreceived, ⟨fun _ => .inl rfl, fun _ => hlt.le, fun _ _ => hlt⟩,
      .inr (.inr ⟨rfl, houtcome⟩)⟩
  | memoryError => exact houtcome.elim

theorem progress_closing (h : c.state = .closing ∨ c.state = .closed) (h' : c'.state = .closed) :
    Progress o c c' := by
  have hrest : AtRest c := by
    rcases h with h | h
    · exact .inl h
    · exact .inr (.inl h)
  exact ⟨fun _ => .inr (.inl h'), fun hbusy => absurd hrest hbusy, fun hbusy => absurd hrest hbusy⟩

theorem connStep_closing {s : Settings} {c : Conn} {o : Env × Cache}
    (h : c.state = .closing ∨ c.state = .closed) :
    ∃ item ilist suffixes suffixleft, connStep s c o = { c with
        item := item
        ilist := ilist
        suffixes := suffixes
        suffixleft := suffixleft
        state := .closed } := by
  unfold connStep step
  rcases h with h | h
  · rw [h]
    exact ⟨none, [], _, 0, rfl⟩
  · refine ⟨c.item, c.ilist, c.suffixes, c.suffixleft, ?_⟩
    rw [h]
    exact congrArg (fun state => { c with state := state }) h

/-! ## A small server -/

def smallSettings : Settings where
  useCas := true
  evictToFree := true
  sasl := false
  slabSizes := [1024]
  hash _ := 0
  processStarted := 0

/-- Everything succeeds, apart from the allocation of items if there are no chunks. -/
def goodEnv (slabsAlloc : Bool) : Env where
  memory := ⟨slabsAlloc, fun _ => true⟩
  getMemory := []
  realloc := true
  transmit := .complete
  yield := false
  authenticated := false
  stats := none

end ServerStack.Memcached
