import Xvc.Lib.Machine
import Xvc.Server.Reply

/-!
# Two servers with different reply buffers

`Alike R B s t`: two servers that have received the same bytes and hold the same client record, but have
different implementations behind the callbacks and different bytes in the reply buffer. `R` relates what
the implementations hold and `B` the buffers, given what has been stored so far.

* `Frames lo B`: `B` is kept when both servers store the same bytes at or behind `lo`. Then every helper
  that appends a reply keeps `Alike` (`Alike.replyStatus` and so on), and so does a callback that
  does the same on both sides (`Matches`).
* `Conn.sendReply`: the end of a batch, behind `flush`.
* `Conn.Takes`: a step of a connection with what the environment gave it, so that two connections can be
  run on the same inputs.
-/

namespace Xvc

open ByteMem

variable {σ τ : Type}

/-- A handler was called, or should have been. -/
def Event.IsCall : Event → Prop
  | .call _ | .nullCall => True
  | _ => False

/-- A call, or a store at or behind `lo`. -/
def Event.Behind (lo : Nat) : Event → Prop
  | .store i _ => lo ≤ i
  | .call _ | .nullCall => True
  | _ => False

theorem Event.IsCall.behind {e : Event} (h : e.IsCall) (lo : Nat) : e.Behind lo := by
  cases e with
  | call | nullCall => trivial
  | _ => exact h.elim

namespace Server

/-- Two servers that differ in their implementation and in their reply buffer. -/
structure Alike (R : σ → τ → Prop) (B : List Event → ByteMem → ByteMem → Prop) (s : Server σ) (t : Server τ) :
    Prop where
  received : t.received = s.received
  c : t.c = s.c
  replyLen : t.replyLen = s.replyLen
  data : R s.clientData t.clientData
  buf : B s.trace s.replyBuf t.replyBuf
  sent : sentOf t.trace = sentOf s.trace

/-- The relation is kept by equal stores at or behind `lo`, and by calls. -/
structure Frames (lo : Nat) (B : List Event → ByteMem → ByteMem → Prop) : Prop where
  store : ∀ {tr b b' i} {l : List UInt8}, lo ≤ i → B tr b b' →
    B (tr ++ [.store i l.length]) (write b i l) (write b' i l)
  called : ∀ {tr b b' e}, e.IsCall → B tr b b' → B (tr ++ [e]) b b'

/-- The relation is kept by a send. -/
def KeptBySend (B : List Event → ByteMem → ByteMem → Prop) : Prop :=
  ∀ {tr b b' bytes rval}, B tr b b' → B (tr ++ [.send bytes rval]) b b'

/-- Two callbacks did the same. -/
structure Matches (R : σ → τ → Prop) (lo : Nat) (r : CallResult σ) (r' : CallResult τ) : Prop where
  data : R r.clientData r'.clientData
  error : r'.error = r.error
  stores : r'.stores = r.stores
  above : ∀ w ∈ r.stores, lo ≤ w.1

variable {R : σ → τ → Prop} {B : List Event → ByteMem → ByteMem → Prop} {s : Server σ} {t : Server τ} {lo : Nat}

theorem clear_eq_store (s : Server σ) (i n : Nat) : s.clear i n = s.store i (List.replicate n 0) := by
  unfold clear store
  rw [memset_eq_write, List.length_replicate]

namespace Alike

theorem store (h : Alike R B s t) (hB : Frames lo B) {i : Nat} (hi : lo ≤ i) (l : List UInt8) :
    Alike R B (s.store i l) (t.store i l) where
  received := h.received
  c := h.c
  replyLen := h.replyLen
  data := h.data
  buf := hB.store hi h.buf
  sent := by
    show sentOf (t.trace ++ _) = sentOf (s.trace ++ _)
    rw [sentOf_append, sentOf_append, h.sent]

theorem clear (h : Alike R B s t) (hB : Frames lo B) {i : Nat} (hi : lo ≤ i) (n : Nat) :
    Alike R B (s.clear i n) (t.clear i n) := by
  rw [clear_eq_store, clear_eq_store]
  exact h.store hB hi _

theorem extend (h : Alike R B s t) (n : Nat) : Alike R B (s.extend n) (t.extend n) where
  received := h.received
  c := h.c
  replyLen := by show u32 (t.replyLen + n) = u32 (s.replyLen + n); rw [h.replyLen]
  data := h.data
  buf := h.buf
  sent := h.sent

/-- The client record and the operand bytes change in the same way. -/
theorem update (h : Alike R B s t) (m : ByteMem) (c : XvcClient) :
    Alike R B { s with mem := m, c := c } { t with mem := m, c := c } where
  received := by
    have := h.received
    simp only [Server.received, Prod.mk.injEq] at this ⊢
    exact ⟨this.1, this.2.1, trivial⟩
  c := rfl
  replyLen := h.replyLen
  data := h.data
  buf := h.buf
  sent := h.sent

theorem setClient (h : Alike R B s t) (c : XvcClient) : Alike R B { s with c := c } { t with c := c } where
  received := h.received
  c := rfl
  replyLen := h.replyLen
  data := h.data
  buf := h.buf
  sent := h.sent

theorem log (h : Alike R B s t) (hB : Frames lo B) {e : Event} (he : e.IsCall) :
    Alike R B { s with trace := s.trace ++ [e] } { t with trace := t.trace ++ [e] } where
  received := h.received
  c := h.c
  replyLen := h.replyLen
  data := h.data
  buf := hB.called he h.buf
  sent := by
    show sentOf (t.trace ++ _) = sentOf (s.trace ++ _)
    rw [sentOf_append, sentOf_append, h.sent]

theorem stores (hB : Frames lo B) {ws : List (Nat × List UInt8)} (hws : ∀ w ∈ ws, lo ≤ w.1) (h : Alike R B s t) :
    Alike R B (s.stores ws) (t.stores ws) := by
  induction ws generalizing s t with
  | nil => exact h
  | cons w ws ih =>
    refine ih (fun x hx => hws x (by simp [hx])) (h.store hB (hws w (by simp)) w.2)

theorem callback (h : Alike R B s t) (hB : Frames lo B) (c : Call) {r : CallResult σ} {r' : CallResult τ}
    (hr : Matches R lo r r') : Alike R B (s.callback c r) (t.callback c r') := by
  obtain ⟨hdata, herror, hstores, habove⟩ := hr
  have hcalled : Alike R B { s with clientData := r.clientData, trace := s.trace ++ [Event.call c] }
      { t with clientData := r'.clientData, trace := t.trace ++ [Event.call c] } :=
    { h.log hB (e := .call c) trivial with data := hdata }
  have hdone := hcalled.stores hB habove
  unfold Server.callback
  rw [herror, hstores]
  cases r.error with
  | none => exact hdone
  | some text =>
    simp only [hdone.c]
    exact hdone.setClient _

theorem callOrNull (h : Alike R B s t) (hB : Frames lo B) (c : Call) {f : Option (CallResult σ)}
    {f' : Option (CallResult τ)} (hf : Option.Rel (Matches R lo) f f') :
    Alike R B (Xvc.callOrNull s f c) (Xvc.callOrNull t f' c) := by
  cases hf with
  | none => exact h.log hB trivial
  | some hr => exact h.callback hB c hr

theorem unlessFailed (h : Alike R B s t) {f : Server σ → Server σ} {g : Server τ → Server τ}
    (hf : s.c.failed = false → Alike R B (f s) (g t)) : Alike R B (s.unlessFailed f) (t.unlessFailed g) := by
  unfold Server.unlessFailed
  rw [h.c]
  split
  · exact h
  · next hn => exact hf (Bool.eq_false_iff.mpr hn)

theorem replyBytes (h : Alike R B s t) (hB : Frames lo B) (hlo : lo ≤ s.replyLen) (l : List UInt8) :
    Alike R B (s.replyBytes l) (t.replyBytes l) := by
  unfold Server.replyBytes
  rw [h.replyLen]
  exact (h.store hB hlo l).extend _

theorem replyStatus (h : Alike R B s t) (hB : Frames lo B) (hlo : lo ≤ s.replyLen) :
    Alike R B s.replyStatus t.replyStatus := by
  unfold Server.replyStatus
  rw [h.replyLen, h.c]
  split
  · exact (h.store hB hlo _).extend 1
  · exact h.extend 1

theorem replyOptionalStatus (h : Alike R B s t) (hB : Frames lo B) (hlo : lo ≤ s.replyLen) :
    Alike R B s.replyOptionalStatus t.replyOptionalStatus := by
  unfold Server.replyOptionalStatus
  rw [h.c]
  split
  · exact h
  · exact h.replyStatus hB hlo

theorem replyData (h : Alike R B s t) (hB : Frames lo B) (hlo : lo ≤ s.replyLen) (n : Nat) :
    Alike R B (s.replyData n) (t.replyData n) := by
  unfold Server.replyData
  rw [h.c, h.replyLen]
  split
  · exact (h.clear hB hlo n).extend n
  · exact h.extend n

theorem clearError (h : Alike R B s t) : Alike R B s.clearError t.clearError := by
  unfold Server.clearError
  rw [h.c]
  exact h.setClient _

/-- The bytes of a LEB128 number, of which `pos` are there already. -/
theorem replyUlebLoop (hB : Frames lo B) (k value pos : Nat) (h : Alike R B s t)
    (hlo : lo ≤ s.replyLen) (hfit : s.replyLen + pos + k < 2 ^ 32) :
    Alike R B (s.replyUlebLoop k value pos).1 (t.replyUlebLoop k value pos).1 := by
  induction k generalizing s t value pos with
  | zero => exact h
  | succ k ih =>
    rw [Server.replyUlebLoop, Server.replyUlebLoop, h.replyLen]
    generalize (if 0x80 ≤ value then UInt8.ofNat ((value &&& 0x7f) ||| 0x80)
      else UInt8.ofNat (value &&& 0x7f)) = b
    rw [u32_of_lt (show s.replyLen + pos < 2 ^ 32 by omega)]
    -- The byte, which is only stored below `max_packet_len`.
    have hbyte : Alike R B (if s.replyLen + pos < maxPacketLen then s.store (s.replyLen + pos) [b] else s)
        (if s.replyLen + pos < maxPacketLen then t.store (s.replyLen + pos) [b] else t) := by
      split
      · exact h.store hB (by omega) [b]
      · exact h
    have hlen : (if s.replyLen + pos < maxPacketLen then s.store (s.replyLen + pos) [b] else s).replyLen =
        s.replyLen := by
      split <;> rfl
    split
    · exact ih _ (pos + 1) hbyte (by omega) (by omega)
    · exact hbyte

theorem replyUleb128 (h : Alike R B s t) (hB : Frames lo B) (hlo : lo ≤ s.replyLen)
    (hfit : s.replyLen + 10 < 2 ^ 32) (value : Nat) :
    Alike R B (s.replyUleb128 value) (t.replyUleb128 value) := by
  have hloop := replyUlebLoop hB 10 value 0 h hlo hfit
  unfold Server.replyUleb128
  simp only [(replyUlebLoop_spec s 10 value 0).2, (replyUlebLoop_spec t 10 value 0).2]
  exact hloop.extend _

/-- A reply that is announced by its length. -/
theorem replyUlebBytes (h : Alike R B s t) (hB : Frames lo B) (hlo : lo ≤ s.replyLen)
    (hfit : s.replyLen + 10 < 2 ^ 32) (value : Nat) (l : List UInt8) :
    Alike R B ((s.replyUleb128 value).replyBytes l) ((t.replyUleb128 value).replyBytes l) := by
  refine (h.replyUleb128 hB hlo hfit value).replyBytes hB ?_ l
  have hlen := Leb128.length_encode_le 10 value
  rw [replyLen_replyUleb128, u32_of_lt (by omega)]
  omega

/-- Both send, and have the same to send. -/
theorem logSend (h : Alike R B s t) (hB : KeptBySend B)
    (hpend : slice t.replyBuf 0 s.replyLen = slice s.replyBuf 0 s.replyLen) (rval : Int) :
    Alike R B (s.logSend rval) (t.logSend rval) where
  received := h.received
  c := h.c
  replyLen := h.replyLen
  data := h.data
  buf := hB h.buf
  sent := by
    show sentOf (t.trace ++ _) = sentOf (s.trace ++ _)
    rw [sentOf_append, sentOf_append, h.sent, h.replyLen, hpend]

/-! ## What both have alike -/

theorem rx (h : Alike R B s t) : t.rx = s.rx := (Prod.mk.inj h.received).1

theorem mem (h : Alike R B s t) : t.mem = s.mem := (Prod.mk.inj (Prod.mk.inj h.received).2).2

theorem bufLen (h : Alike R B s t) : t.bufLen = s.bufLen := (Prod.mk.inj (Prod.mk.inj h.received).2).1

theorem cend (h : Alike R B s t) : t.cend = s.cend := by
  unfold Server.cend
  rw [h.rx, h.bufLen]

theorem room (h : Alike R B s t) : t.room = s.room := by
  unfold Server.room
  rw [h.rx, h.bufLen]

theorem scanHeader (h : Alike R B s t) (cbuf : Nat) : Xvc.scanHeader t cbuf = Xvc.scanHeader s cbuf := by
  unfold Xvc.scanHeader
  rw [h.cend, h.mem]

/-- `consume_packet`. -/
theorem consume (h : Alike R B s t) (n : Nat) : Alike R B (s.consume n) (t.consume n) where
  received := by
    show (t.rx, t.bufLen - n, memmove t.mem t.rx.buf (t.rx.buf + n) (t.bufLen - n)) =
      (s.rx, s.bufLen - n, memmove s.mem s.rx.buf (s.rx.buf + n) (s.bufLen - n))
    rw [h.rx, h.mem, h.bufLen]
  c := h.c
  replyLen := h.replyLen
  data := h.data
  buf := h.buf
  sent := h.sent

theorem receive (h : Alike R B s t) (chunk : List UInt8) : Alike R B (s.receive chunk) (t.receive chunk) where
  received := by
    show (t.rx, t.bufLen + chunk.length, write t.mem (t.rx.buf + t.bufLen) chunk) =
      (s.rx, s.bufLen + chunk.length, write s.mem (s.rx.buf + s.bufLen) chunk)
    rw [h.rx, h.mem, h.bufLen]
  c := h.c
  replyLen := h.replyLen
  data := h.data
  buf := h.buf
  sent := h.sent

/-- `read_more:`. -/
theorem readMore (h : Alike R B s t) :
    (Conn.readMore t).phase = (Conn.readMore s).phase ∧ Alike R B (Conn.readMore s).s (Conn.readMore t).s :=
  ⟨by show Phase.parse _ = Phase.parse _; rw [h.rx], h.received, h.c, rfl, h.data, h.buf, h.sent⟩

end Alike
end Server

/-! ## The end of a batch -/

namespace Conn

/-- What `finish` does once `flush` has succeeded. -/
def sendReply (snd : Nat → Int) (s : Server σ) (cbuf : Nat) (fill : Bool) : Conn σ :=
  let sent := snd s.replyLen
  let s := s.logSend sent
  if sent < 0 then ⟨.error, s⟩
  else
    let len := u32 (cbuf - s.rx.buf)
    if s.bufLen < len then ⟨.aborted, s⟩
    else
      let s := s.consume len
      if s.bufLen ≠ 0 ∧ fill = false then readMore s else ⟨.recv, s⟩

theorem finish_eq (P : Protocol σ) (snd : Nat → Int) (s : Server σ) (cbuf : Nat) (fill : Bool) :
    finish P snd s cbuf fill =
      if s.rx.buf < cbuf then
        if (s.runFlush P).2 < 0 then ⟨.error, (s.runFlush P).1⟩ else sendReply snd (s.runFlush P).1 cbuf fill
      else ⟨.recv, s⟩ := rfl

/-- The next batch starts at the beginning of the buffer, with an empty reply. -/
theorem sendReply_parse {snd : Nat → Int} {s : Server σ} {cbuf p : Nat} {fill : Bool}
    (hp : (sendReply snd s cbuf fill).phase = .parse p) :
    p = s.rx.buf ∧ (sendReply snd s cbuf fill).s.replyLen = 0 := by
  revert hp
  unfold sendReply
  dsimp only
  split
  · exact nofun
  split
  · exact nofun
  split
  · intro hp
    cases hp
    exact ⟨rfl, rfl⟩
  · exact nofun

theorem trace_sendReply (snd : Nat → Int) (s : Server σ) (cbuf : Nat) (fill : Bool) :
    (sendReply snd s cbuf fill).s.trace =
      s.trace ++ [.send (slice s.replyBuf 0 s.replyLen) (snd s.replyLen)] := by
  unfold sendReply
  dsimp only
  split
  · rfl
  split
  · rfl
  split <;> rfl

/-- Two servers that have the same to send go on alike. -/
theorem alike_sendReply {R : σ → τ → Prop} {B : List Event → ByteMem → ByteMem → Prop} {s : Server σ}
    {t : Server τ} (h : Server.Alike R B s t) (hB : Server.KeptBySend B)
    (hpend : slice t.replyBuf 0 s.replyLen = slice s.replyBuf 0 s.replyLen) (snd : Nat → Int) (cbuf : Nat)
    (fill : Bool) : (sendReply snd t cbuf fill).phase = (sendReply snd s cbuf fill).phase ∧
      Server.Alike R B (sendReply snd s cbuf fill).s (sendReply snd t cbuf fill).s := by
  have hsent := h.logSend hB hpend (snd s.replyLen)
  have hdone := hsent.consume (u32 (cbuf - (s.logSend (snd s.replyLen)).rx.buf))
  unfold sendReply
  simp only [h.replyLen, hsent.rx, hsent.bufLen]
  split
  · exact ⟨rfl, hsent⟩
  split
  · exact ⟨rfl, hsent⟩
  rw [hdone.bufLen]
  split
  · exact hdone.readMore
  · exact ⟨rfl, hdone⟩

end Conn

/-! ## Runs on the same inputs -/

/-- What the environment gives a connection in one step. -/
inductive Input where
  /-- The results of `send`. -/
  | advance (snd : Nat → Int)
  | recv (chunk : List UInt8)
  | closed
  | failed

/-- A connection that waits, receives one message, executes it and sends the reply. -/
def oneMessage (bytes : List UInt8) : List Input :=
  [.advance Conn.sendAll, .recv bytes, .advance Conn.sendAll, .advance Conn.sendAll]

namespace Conn

/-- A step with what the environment gives. -/
inductive Takes (P : Protocol σ) : Input → Conn σ → Conn σ → Prop
  | advance {c : Conn σ} {cbuf : Nat} (snd : Nat → Int) (h : c.phase = .parse cbuf) :
      Takes P (.advance snd) c (advance P snd c)
  | recv {c : Conn σ} {chunk : List UInt8} (h : c.phase = .recv) (hne : chunk ≠ [])
      (hfit : chunk.length ≤ c.s.room) : Takes P (.recv chunk) c (c.receive chunk)
  | closed {c : Conn σ} (h : c.phase = .recv) : Takes P .closed c { c with phase := .closed }
  | failed {c : Conn σ} (h : c.phase = .recv) : Takes P .failed c { c with phase := .error }

/-- The steps are those of `read_packet`. -/
theorem step_iff_takes {P : Protocol σ} {c d : Conn σ} : Step P c d ↔ ∃ i, Takes P i c d := by
  constructor
  · intro h
    cases h with
    | advance snd hp => exact ⟨_, .advance snd hp⟩
    | recv hp hne hfit => exact ⟨_, .recv hp hne hfit⟩
    | closed hp => exact ⟨_, .closed hp⟩
    | failed hp => exact ⟨_, .failed hp⟩
  · rintro ⟨i, h⟩
    cases h with
    | advance snd hp => exact .advance snd hp
    | recv hp hne hfit => exact .recv hp hne hfit
    | closed hp => exact .closed hp
    | failed hp => exact .failed hp

/-- What the environment gives decides the step. -/
theorem Takes.unique {P : Protocol σ} {i : Input} {c d d' : Conn σ} (h : Takes P i c d) (h' : Takes P i c d') :
    d = d' := by
  cases h with
  | advance snd hp => cases h'; rfl
  | recv hp hne hfit => cases h'; rfl
  | closed hp => cases h'; rfl
  | failed hp => cases h'; rfl

end Conn
end Xvc
