import Xvc.Versal.Act
import Xvc.Versal.ReplyBound
import Xvc.Server.Twin

/-!
# Delivery of the replies

The replies of a batch are sent by one `send` when the loop is left, and the handlers take effect at once.

* `Delivery`: a connection with the messages it has executed and their replies. The reply of a message is
  what is in its bytes of the reply buffer once the loop has been left and `flush` has returned.
* `Delivered`: what the socket has accepted is a prefix of the replies, and when `read_packet` ends by
  itself, each message that called a handler has been answered.
* `replies_delivered`: so it is as long as `send` accepts whole packets and no reply is pending
  when the loop is left in another way.
-/

namespace Xvc

open ByteMem

variable {σ : Type}

/-- The bytes that the socket has accepted. -/
def acceptedOf (t : List Event) : List UInt8 :=
  t.flatMap fun | .send bytes rval => bytes.take rval.toNat | _ => []

theorem acceptedOf_append (t t' : List Event) : acceptedOf (t ++ t') = acceptedOf t ++ acceptedOf t' :=
  List.flatMap_append

/-- A send of the event. -/
def Event.Sends : Event → Prop
  | .send _ _ => True
  | _ => False

theorem acceptedOf_of_not_sends {es : List Event} (h : ∀ e ∈ es, ¬ e.Sends) : acceptedOf es = [] := by
  refine List.flatMap_eq_nil_iff.mpr fun e he => ?_
  cases e with
  | send bytes rval => exact absurd trivial (h _ he)
  | _ => rfl

/-- The request that the loop executes at `cbuf`, if it does. -/
def Dispatch.next {R : Type} (D : Dispatch σ R) (s : Server σ) (cbuf : Nat) : Option R :=
  match scanHeader s cbuf with
  | .header hdr p =>
    match D.parse s cbuf hdr p with
    | .msg r _ => if D.waitsForReplies r ∧ 0 < s.replyLen then none else some r
    | _ => none
  | _ => none

theorem Dispatch.Dispatched.next {R : Type} {D : Dispatch σ R} {s : Server σ} {cbuf q p : Nat} {r : R}
    (h : D.Dispatched s cbuf r q p) : D.next s cbuf = some r := by
  obtain ⟨⟨hdr, hscan, hparse⟩, hruns⟩ := h
  unfold Dispatch.next
  simp only [hscan, hparse, if_neg hruns]

namespace Versal

open Server

/-- A message that has been executed. -/
structure Served where
  /-- A handler was called for it. -/
  called : Bool
  /-- The number of its reply bytes. -/
  size : Nat
  deriving DecidableEq

/-- The request `r`, executed in `s`. -/
def serve (h : XvcServerHandlers σ) (s : Server σ) (r : Request) : Served where
  called := callsOf (exec h s r).trace ≠ callsOf s.trace
  size := replySize h s r

/-- The number of all their reply bytes. -/
def replyTotal (ms : List Served) : Nat := (ms.map Served.size).sum

@[simp] theorem replyTotal_append (ms ms' : List Served) : replyTotal (ms ++ ms') = replyTotal ms + replyTotal ms' := by
  simp [replyTotal]

/-- A connection with the messages that it has executed. -/
structure Delivery (σ : Type) where
  conn : Conn σ
  /-- Those of the batches that are over. -/
  messages : List Served
  /-- Their replies. -/
  replies : List UInt8
  /-- Those of the batch that the loop is in; their replies begin at `reply_buf`. -/
  batch : List Served
  /-- `send`, `flush` or `recv` has failed. -/
  failed : Bool

namespace Delivery

/-- A new connection. -/
def start (rx : RxBuffer) (clientData : σ) (mem replyBuf : ByteMem) : Delivery σ where
  conn := .start rx clientData mem replyBuf
  messages := []
  replies := []
  batch := []
  failed := false

/-- What the socket has accepted. -/
def accepted (d : Delivery σ) : List UInt8 := acceptedOf d.conn.s.trace

/-- The replies of all messages that have been executed. -/
def allReplies (d : Delivery σ) : List UInt8 := d.replies ++ slice d.conn.s.replyBuf 0 (replyTotal d.batch)

/-- The loop is left, and the batch is over. -/
def endBatch (d : Delivery σ) (c : Conn σ) : Delivery σ where
  conn := c
  messages := d.messages ++ d.batch
  replies := d.replies ++ slice c.s.replyBuf 0 (replyTotal d.batch)
  batch := []
  failed := c.phase = .error

/-- One step of the code between two calls of `recv`. -/
def advance (h : XvcServerHandlers σ) (snd : Nat → Int) (d : Delivery σ) : Delivery σ :=
  let c := d.conn.advance (protocol h) snd
  match d.conn.phase with
  | .parse cbuf =>
    match (dispatch h).iter d.conn.s cbuf with
    | .reply _ _ =>
      { d with conn := c, batch := d.batch ++ ((dispatch h).next d.conn.s cbuf).toList.map (serve h d.conn.s) }
    | .bad | .abort => { d with conn := c }
    | .fill | .stop => d.endBatch c
  | _ => d

/-- A step with what the environment gives. -/
inductive Step (h : XvcServerHandlers σ) : Input → Delivery σ → Delivery σ → Prop
  | advance {d : Delivery σ} {cbuf : Nat} (snd : Nat → Int) (hp : d.conn.phase = .parse cbuf) :
      Step h (.advance snd) d (d.advance h snd)
  | recv {d : Delivery σ} {chunk : List UInt8} (hp : d.conn.phase = .recv) (hne : chunk ≠ [])
      (hfit : chunk.length ≤ d.conn.s.room) : Step h (.recv chunk) d { d with conn := d.conn.receive chunk }
  | closed {d : Delivery σ} (hp : d.conn.phase = .recv) :
      Step h .closed d { d with conn := { d.conn with phase := .closed } }
  | failed {d : Delivery σ} (hp : d.conn.phase = .recv) :
      Step h .failed d { d with conn := { d.conn with phase := .error }, failed := true }

theorem conn_advance (h : XvcServerHandlers σ) (snd : Nat → Int) (d : Delivery σ) :
    (d.advance h snd).conn = d.conn.advance (protocol h) snd := by
  unfold advance
  split
  · split <;> rfl
  · next hp => exact (Conn.advance_of_not_parse hp).symm

/-- The connection takes the steps of `read_packet`, and it may take any of them. -/
theorem step_iff_takes {h : XvcServerHandlers σ} {i : Input} {d : Delivery σ} {c : Conn σ} :
    (∃ d', Step h i d d' ∧ d'.conn = c) ↔ Conn.Takes (protocol h) i d.conn c := by
  constructor
  · rintro ⟨d', hstep, rfl⟩
    cases hstep with
    | advance snd hp =>
      rw [conn_advance]
      exact .advance snd hp
    | recv hp hne hfit => exact .recv hp hne hfit
    | closed hp => exact .closed hp
    | failed hp => exact .failed hp
  · intro htakes
    cases htakes with
    | advance snd hp => exact ⟨_, .advance snd hp, conn_advance h snd d⟩
    | recv hp hne hfit => exact ⟨_, .recv hp hne hfit, rfl⟩
    | closed hp => exact ⟨_, .closed hp, rfl⟩
    | failed hp => exact ⟨_, .failed hp, rfl⟩

end Delivery

/-- The replies have reached the socket as far as they should. -/
structure Delivered (d : Delivery σ) : Prop where
  aligned : d.replies.length = replyTotal d.messages
  /-- Nothing is left out before what has been accepted. -/
  gapFree : d.accepted <+: d.allReplies
  /-- `read_packet` has ended by itself: every message that called a handler has been answered. -/
  complete : (∀ cbuf, d.conn.phase ≠ .parse cbuf) → d.conn.phase ≠ .recv → d.failed = false →
    ∀ before m after, d.messages ++ d.batch = before ++ m :: after → m.called = true →
      m.size = 0 ∨ replyTotal (before ++ [m]) ≤ d.accepted.length

/-- The loop is left in this step with the batch executed. -/
def Delivery.Leaves (h : XvcServerHandlers σ) (d : Delivery σ) (cbuf : Nat) : Prop :=
  d.conn.phase = .parse cbuf ∧
    ((dispatch h).iter d.conn.s cbuf = .fill ∨ (dispatch h).iter d.conn.s cbuf = .stop)

/-- The step loses no reply. -/
structure LosesNone (h : XvcServerHandlers σ) (i : Input) (d : Delivery σ) : Prop where
  /-- `reply_len` does not wrap. -/
  fits : ∀ cbuf r q p, d.conn.phase = .parse cbuf → (dispatch h).Dispatched d.conn.s cbuf r q p →
    d.conn.s.replyLen + replySize h d.conn.s r < 2 ^ 32
  /-- A protocol error or a failed assertion finds no reply of a called handler pending. -/
  breaks : ∀ cbuf, d.conn.phase = .parse cbuf →
    (dispatch h).iter d.conn.s cbuf = .bad ∨ (dispatch h).iter d.conn.s cbuf = .abort →
      ∀ m ∈ d.batch, m.called = true → m.size = 0
  /-- When the loop is left without a `send`, no reply is pending. -/
  leaves : ∀ cbuf, d.Leaves h cbuf → d.conn.s.rx.buf < cbuf ∨ ∀ m ∈ d.batch, m.size = 0
  /-- `send` fails, or accepts the whole packet. -/
  whole : ∀ snd cbuf, i = .advance snd → d.Leaves h cbuf →
    snd d.conn.s.replyLen < 0 ∨ snd d.conn.s.replyLen = d.conn.s.replyLen

/-! ## Only the end of a batch sends -/

section Accepts

variable {h : XvcServerHandlers σ} {s t : Server σ}

/-- The socket has accepted nothing between the two states. -/
def Silent (s t : Server σ) : Prop := acceptedOf t.trace = acceptedOf s.trace

theorem silent_of_events (es : List Event) (htr : t.trace = s.trace ++ es) (hes : ∀ e ∈ es, ¬ e.Sends) :
    Silent s t := by
  unfold Silent
  rw [htr, acceptedOf_append, acceptedOf_of_not_sends hes, List.append_nil]

theorem not_sends_stores (ws : List (Nat × List UInt8)) :
    ∀ e ∈ ws.map fun w => Event.store w.1 w.2.length, ¬ e.Sends := by
  intro e he
  obtain ⟨w, -, rfl⟩ := List.mem_map.mp he
  exact id

theorem silent_callOrNull (f : Option (CallResult σ)) (c : Call) : Silent s (callOrNull s f c) := by
  cases f with
  | none => exact silent_of_events [.nullCall] rfl (by simp [Event.Sends])
  | some x =>
    refine silent_of_events (.call c :: x.stores.map fun w => .store w.1 w.2.length) ?_ ?_
    · show (s.callback c x).trace = _
      simp [callback_eq]
    · exact List.forall_mem_cons.mpr ⟨id, not_sends_stores x.stores⟩

theorem silent_setLocked (v : Int) (hs : Silent s t) : Silent s (setLocked t v) := by
  unfold setLocked unlessFailed
  split
  · exact hs
  · exact hs

theorem silent_unlessFailed {f : Server σ → Server σ} (hf : Silent s (f s)) : Silent s (s.unlessFailed f) := by
  unfold unlessFailed
  split
  · rfl
  · exact hf

theorem silent_act (h : XvcServerHandlers σ) (s : Server σ) (r : Request) : Silent s (act h s r) := by
  cases r with
  | shift bits p => exact silent_unlessFailed (silent_callOrNull (some _) _)
  | settck nsperiod => exact silent_unlessFailed (silent_callOrNull (some _) _)
  | rshift instruction flags state count p => exact silent_unlessFailed (silent_callOrNull _ _)
  | state flags state count => exact silent_unlessFailed (silent_callOrNull _ _)
  | mrd flags addr numBytes => exact silent_unlessFailed (silent_callOrNull _ _)
  | mwr flags addr numBytes p => exact silent_unlessFailed (silent_callOrNull _ _)
  | lock timeout =>
    refine silent_unlessFailed ?_
    split
    · rfl
    split
    · rfl
    · exact silent_setLocked 1 (silent_callOrNull _ _)
  | unlock =>
    refine silent_unlessFailed ?_
    split
    · rfl
    split
    · rfl
    · exact silent_setLocked 0 (silent_callOrNull _ _)
  | _ => rfl

/-- A request sends nothing. -/
theorem silent_exec (h : XvcServerHandlers σ) (s : Server σ) (r : Request) : Silent s (exec h s r) := by
  obtain ⟨es, htr, hes⟩ := (exec_replied h s r).events
  have hreply : Silent (act h s r) (exec h s r) := by
    refine silent_of_events _ htr fun e he => ?_
    obtain ⟨i, n, rfl⟩ := hes e he
    exact id
  exact hreply.trans (silent_act h s r)

/-- Neither does `flush`, and it leaves `reply_len` as it is. -/
theorem silent_runFlush (P : Protocol σ) (s : Server σ) :
    Silent s (s.runFlush P).1 ∧ (s.runFlush P).1.replyLen = s.replyLen := by
  unfold runFlush
  cases P.flush with
  | none => exact ⟨rfl, rfl⟩
  | some f =>
    have hes : ∀ e ∈ Event.flush :: (f s.clientData s.mem).1.stores.map fun w => .store w.1 w.2.length, ¬ e.Sends :=
      List.forall_mem_cons.mpr ⟨id, not_sends_stores _⟩
    simp only [stores_eq]
    split
    · exact ⟨silent_of_events _ (by simp) hes, rfl⟩
    · exact ⟨silent_of_events _ (by simp) hes, rfl⟩

/-- What `send` adds, and when the connection ends with it. -/
theorem sendReply_accepts (snd : Nat → Int) (s : Server σ) (cbuf : Nat) (fill : Bool) :
    (Conn.sendReply snd s cbuf fill).s.replyBuf = s.replyBuf ∧
      acceptedOf (Conn.sendReply snd s cbuf fill).s.trace =
        acceptedOf s.trace ++ (slice s.replyBuf 0 s.replyLen).take (snd s.replyLen).toNat ∧
      ((Conn.sendReply snd s cbuf fill).phase = .error ↔ snd s.replyLen < 0) := by
  refine ⟨?_, ?_, ?_⟩
  · unfold Conn.sendReply
    dsimp only
    split
    · rfl
    split
    · rfl
    split
    · rfl
    · rfl
  · rw [Conn.trace_sendReply, acceptedOf_append]
    simp [acceptedOf]
  · unfold Conn.sendReply
    dsimp only
    split
    · next hlt => exact iff_of_true rfl hlt
    · next hge =>
      refine iff_of_false ?_ hge
      split
      · exact nofun
      split
      · exact nofun
      · exact nofun

end Accepts

/-! ## Runs -/

/-- Up to now no reply has been lost. -/
structure Keeps (d : Delivery σ) : Prop where
  aligned : d.replies.length = replyTotal d.messages
  accepted : d.accepted <+: d.replies
  whole : d.failed = false → d.accepted = d.replies
  /-- In the loop, `reply_len` is what the batch has replied. -/
  parse : ∀ cbuf, d.conn.phase = .parse cbuf → d.failed = false ∧ d.conn.s.replyLen = replyTotal d.batch
  recv : d.conn.phase = .recv → d.failed = false ∧ d.batch = []
  ended : (∀ cbuf, d.conn.phase ≠ .parse cbuf) → d.failed = false → ∀ m ∈ d.batch, m.called = true → m.size = 0

theorem Keeps.delivered {d : Delivery σ} (hk : Keeps d) : Delivered d where
  aligned := hk.aligned
  gapFree := hk.accepted.trans (List.prefix_append _ _)
  complete hloop _ hfailed before m after hm hcalled := by
    rcases List.append_eq_append_iff.mp hm with ⟨rest, -, hbatch⟩ | ⟨rest, hmessages, hrest⟩
    · refine .inl (hk.ended hloop hfailed m ?_ hcalled)
      rw [hbatch]
      exact List.mem_append_right _ List.mem_cons_self
    cases rest with
    | nil =>
      refine .inl (hk.ended hloop hfailed m ?_ hcalled)
      rw [← List.nil_append d.batch, ← hrest]
      exact List.mem_cons_self
    | cons m' rest =>
      -- `m` is in a batch that is over.
      obtain ⟨rfl, -⟩ := List.cons.inj hrest
      have hsplit : d.messages = (before ++ [m]) ++ rest := by rw [hmessages, List.append_assoc]; rfl
      refine .inr ?_
      rw [hk.whole hfailed, hk.aligned, hsplit, replyTotal_append (before ++ [m])]
      exact Nat.le_add_right _ _

theorem replyTotal_eq_zero {ms : List Served} (h : ∀ m ∈ ms, m.size = 0) : replyTotal ms = 0 := by
  induction ms with
  | nil => rfl
  | cons m ms ih =>
    have hms := ih fun m' hm => h m' (List.mem_cons_of_mem _ hm)
    rw [← List.singleton_append, replyTotal_append, hms]
    exact h m List.mem_cons_self

variable {h : XvcServerHandlers σ} {d d' : Delivery σ}

/-- The end of a batch. -/
theorem Keeps.finish {cbuf : Nat} {snd : Nat → Int} {fill : Bool} (hk : Keeps d) (hp : d.conn.phase = .parse cbuf)
    (hleave : d.conn.s.rx.buf < cbuf ∨ ∀ m ∈ d.batch, m.size = 0)
    (hwhole : snd d.conn.s.replyLen < 0 ∨ snd d.conn.s.replyLen = d.conn.s.replyLen) :
    Keeps (d.endBatch (Conn.finish (protocol h) snd d.conn.s cbuf fill)) := by
  obtain ⟨hok, hlen⟩ := hk.parse cbuf hp
  have hall := hk.whole hok
  have haligned : ∀ b : ByteMem, (d.replies ++ slice b 0 (replyTotal d.batch)).length =
      replyTotal (d.messages ++ d.batch) := fun b => by
    rw [List.length_append, length_slice, hk.aligned, replyTotal_append]
  rw [Conn.finish_eq]
  split
  · obtain ⟨hsilent, hlen'⟩ := silent_runFlush (protocol h) d.conn.s
    generalize d.conn.s.runFlush (protocol h) = x at hsilent hlen'
    obtain ⟨t, rval⟩ := x
    have hacc : acceptedOf t.trace = d.replies := (hsilent : acceptedOf t.trace = _).trans hall
    split
    · -- `flush` failed.
      exact ⟨haligned _, ⟨_, congrArg (· ++ _) hacc⟩, nofun, nofun, nofun, nofun⟩
    · obtain ⟨hbuf, htrace, herror⟩ := sendReply_accepts snd t cbuf fill
      generalize hc : Conn.sendReply snd t cbuf fill = c at hbuf htrace herror
      rw [hlen'] at htrace herror
      rw [hacc, hlen] at htrace
      rw [hlen] at hwhole herror
      rcases hwhole with hneg | hwhole
      · -- `send` failed.
        have herr : c.phase = .error := herror.mpr hneg
        rw [Int.toNat_of_nonpos (Int.le_of_lt hneg), List.take_zero, List.append_nil] at htrace
        refine ⟨haligned _, ⟨_, congrArg (· ++ _) htrace⟩, fun hf => ?_, fun p hp' => ?_, fun hp' => ?_, nofun⟩
        · exact absurd herr (of_decide_eq_false hf)
        · exact absurd (hp'.symm.trans herr) nofun
        · exact absurd (hp'.symm.trans herr) nofun
      · rw [hwhole] at htrace herror
        rw [Int.toNat_natCast, List.take_of_length_le (by rw [length_slice]), ← hbuf] at htrace
        have hfine : decide (c.phase = .error) = false := by
          refine decide_eq_false fun he => ?_
          have := herror.mp he
          omega
        refine ⟨haligned _, ⟨[], (List.append_nil _).trans htrace⟩, fun _ => htrace, fun p hp' => ⟨hfine, ?_⟩,
          fun _ => ⟨hfine, rfl⟩, nofun⟩
        rw [← hc] at hp'
        show c.s.replyLen = 0
        rw [← hc]
        exact (Conn.sendReply_parse hp').2
  · next hbuf =>
    -- Nothing is sent, and nothing was to be sent.
    have hzero := replyTotal_eq_zero (hleave.resolve_left hbuf)
    have hreplies : d.accepted = d.replies ++ slice d.conn.s.replyBuf 0 (replyTotal d.batch) := by
      rw [hzero, slice_zero, List.append_nil, hall]
    exact ⟨haligned _, ⟨[], (List.append_nil _).trans hreplies⟩, fun _ => hreplies, nofun, fun _ => ⟨rfl, rfl⟩, nofun⟩

/-- A step that loses no reply. -/
theorem Keeps.step {i : Input} (hstep : Delivery.Step h i d d') (hl : LosesNone h i d) (hk : Keeps d) : Keeps d' := by
  cases hstep with
  | @advance _ cbuf snd hp =>
    have hconn : d.conn.advance (protocol h) snd = _ := Conn.advance_parse hp
    unfold Delivery.advance
    rw [hp]
    cases hiter : (dispatch h).iter d.conn.s cbuf with
    | fill =>
      have hfin : d.conn.advance (protocol h) snd = Conn.finish (protocol h) snd d.conn.s cbuf true := by
        rw [hconn, show (protocol h).iter d.conn.s cbuf = .fill from hiter]
      simp only [hiter, hfin]
      exact hk.finish hp (hl.leaves cbuf ⟨hp, .inl hiter⟩) (hl.whole snd cbuf rfl ⟨hp, .inl hiter⟩)
    | stop =>
      have hfin : d.conn.advance (protocol h) snd = Conn.finish (protocol h) snd d.conn.s cbuf false := by
        rw [hconn, show (protocol h).iter d.conn.s cbuf = .stop from hiter]
      simp only [hiter, hfin]
      exact hk.finish hp (hl.leaves cbuf ⟨hp, .inr hiter⟩) (hl.whole snd cbuf rfl ⟨hp, .inr hiter⟩)
    | bad =>
      rw [show (protocol h).iter d.conn.s cbuf = .bad from hiter] at hconn
      simp only [hiter, hconn]
      exact ⟨hk.aligned, hk.accepted, hk.whole, nofun, nofun, fun _ _ => hl.breaks cbuf hp (.inl hiter)⟩
    | abort =>
      rw [show (protocol h).iter d.conn.s cbuf = .abort from hiter] at hconn
      simp only [hiter, hconn]
      exact ⟨hk.aligned, hk.accepted, hk.whole, nofun, nofun, fun _ _ => hl.breaks cbuf hp (.inr hiter)⟩
    | reply t p =>
      obtain ⟨r, q, hd, rfl⟩ := Dispatch.iter_eq_reply.mp hiter
      rw [show (protocol h).iter d.conn.s cbuf = .reply _ p from hiter] at hconn
      obtain ⟨hok, hlen⟩ := hk.parse cbuf hp
      have hacc : acceptedOf (exec h d.conn.s r).trace = d.accepted := silent_exec h d.conn.s r
      simp only [hiter, hconn, hd.next]
      refine ⟨hk.aligned, ?_, fun _ => ?_, fun _ _ => ⟨hok, ?_⟩, nofun, fun hne => absurd rfl (hne p)⟩
      · show acceptedOf (exec h d.conn.s r).trace <+: d.replies
        rw [hacc]
        exact hk.accepted
      · exact hacc.trans (hk.whole hok)
      · show (exec h d.conn.s r).replyLen = replyTotal (d.batch ++ [serve h d.conn.s r])
        rw [exec_replyLen (hl.fits cbuf r q p hp hd), hlen, replyTotal_append]
        simp [replyTotal, serve]
  | recv hp hne hfit =>
    obtain ⟨hok, hbatch⟩ := hk.recv hp
    refine ⟨hk.aligned, hk.accepted, hk.whole, fun _ _ => ⟨hok, ?_⟩, nofun, fun hne => absurd rfl (hne _)⟩
    show 0 = replyTotal d.batch
    rw [hbatch]
    rfl
  | closed hp =>
    obtain ⟨hok, hbatch⟩ := hk.recv hp
    refine ⟨hk.aligned, hk.accepted, hk.whole, nofun, nofun, fun _ _ m hm => ?_⟩
    rw [show d.batch = [] from hbatch] at hm
    cases hm
  | failed hp => exact ⟨hk.aligned, hk.accepted, nofun, nofun, nofun, fun _ => nofun⟩

theorem Keeps.run {inputs : List Input}
    (hrun : Machine.Run (fun i d d' => Delivery.Step h i d d' ∧ LosesNone h i d) d inputs d') (hk : Keeps d) :
    Keeps d' := by
  induction hrun with
  | nil d => exact hk
  | cons hst _ ih => exact ih (hk.step hst.1 hst.2)

/-- **Delivery.** Any handlers, any bytes from the client, any chunks. As long as each `send` fails or
accepts its whole packet, and the loop is left without a `send` only when there is no reply to lose, what
the socket has accepted is a prefix of the replies at any time, and when `read_packet` has ended by itself
each message that called a handler has been answered. -/
theorem replies_delivered (h : XvcServerHandlers σ) (rx : RxBuffer) (data : σ) (mem replyBuf : ByteMem)
    (inputs : List Input) (d : Delivery σ)
    (hrun : Machine.Run (fun i d d' => Delivery.Step h i d d' ∧ LosesNone h i d) (.start rx data mem replyBuf)
      inputs d) : Delivered d := by
  have hstart : Keeps (Delivery.start rx data mem replyBuf) :=
    ⟨rfl, List.prefix_refl _, fun _ => rfl, fun _ _ => ⟨rfl, rfl⟩, fun _ => ⟨rfl, rfl⟩, nofun⟩
  exact (Keeps.run hrun hstart).delivered

theorem losesNone_of_not_parse {i : Input} (hp : ∀ cbuf, d.conn.phase ≠ .parse cbuf) : LosesNone h i d where
  fits cbuf _ _ _ hp' := absurd hp' (hp cbuf)
  breaks cbuf hp' := absurd hp' (hp cbuf)
  leaves cbuf hl := absurd hl.1 (hp cbuf)
  whole _ cbuf _ hl := absurd hl.1 (hp cbuf)

/-- A step in which the loop finds nothing to execute. -/
theorem losesNone_of_fill {i : Input} {cbuf : Nat} (hp : d.conn.phase = .parse cbuf)
    (hscan : scanHeader d.conn.s cbuf = .fill) (hleave : d.conn.s.rx.buf < cbuf ∨ d.batch = [])
    (hwhole : ∀ snd, i = .advance snd → snd d.conn.s.replyLen < 0 ∨ snd d.conn.s.replyLen = d.conn.s.replyLen) :
    LosesNone h i d where
  fits cbuf' r q p hp' hd := by
    cases hp.symm.trans hp'
    obtain ⟨⟨hdr, hscan', -⟩, -⟩ := hd
    cases hscan.symm.trans hscan'
  breaks cbuf' hp' hiter := by
    cases hp.symm.trans hp'
    unfold Dispatch.iter at hiter
    rw [hscan] at hiter
    rcases hiter with hiter | hiter <;> cases hiter
  leaves cbuf' hl := by
    cases hp.symm.trans hl.1
    exact hleave.imp_right fun he m hm => by rw [he] at hm; cases hm
  whole snd _ hi _ := hwhole snd hi

/-- A step in which it executes a request. -/
theorem losesNone_of_dispatched {i : Input} {cbuf q p : Nat} {r : Request} (hp : d.conn.phase = .parse cbuf)
    (hd : (dispatch h).Dispatched d.conn.s cbuf r q p)
    (hfit : d.conn.s.replyLen + replySize h d.conn.s r < 2 ^ 32) : LosesNone h i d := by
  have hiter := Dispatch.iter_eq_reply.mpr ⟨r, q, hd, rfl⟩
  have hnext := hd.next
  refine ⟨fun cbuf' r' q' p' hp' hd' => ?_, fun cbuf' hp' hbad => ?_, fun cbuf' hl => ?_, fun _ cbuf' _ hl => ?_⟩
  · cases hp.symm.trans hp'
    cases hnext.symm.trans hd'.next
    exact hfit
  · cases hp.symm.trans hp'
    rw [hiter] at hbad
    rcases hbad with hbad | hbad <;> cases hbad
  · obtain ⟨hp', hl⟩ := hl
    cases hp.symm.trans hp'
    rw [hiter] at hl
    rcases hl with hl | hl <;> cases hl
  · obtain ⟨hp', hl⟩ := hl
    cases hp.symm.trans hp'
    rw [hiter] at hl
    rcases hl with hl | hl <;> cases hl

/-- A new connection to `xvc_mem`. -/
def newDelivery : Delivery ByteMem := .start (Server.loaded zeroHub []).rx zeroHub zeroHub zeroHub

/-- A `settck:` with a period of 100 ns. -/
def settck100 : List UInt8 := ascii "settck:" ++ [100, 0, 0, 0]

/-- The connection when it has received `bytes`. -/
def Delivery.receiving (bytes : List UInt8) : Delivery ByteMem :=
  let d := newDelivery.advance (handlers defaultHub) Conn.sendAll
  { d with conn := d.conn.receive bytes }

/-- And when the loop has taken one turn. -/
def Delivery.executing (bytes : List UInt8) : Delivery ByteMem :=
  (Delivery.receiving bytes).advance (handlers defaultHub) Conn.sendAll

theorem replies_delivered_settck :
    Delivered ((Delivery.executing settck100).advance (handlers defaultHub) Conn.sendAll) := by
  have hexec : (Delivery.executing settck100).conn.phase = .parse 0x100b := by decide +kernel
  have hnew : Holds newDelivery.conn.s 0x1000 [] := ⟨rfl, rfl, Nat.zero_le _⟩
  have hdone : Holds (Delivery.executing settck100).conn.s 0x100b [] :=
    ⟨by decide +kernel, by decide +kernel, by decide +kernel⟩
  have hall : ∀ n snd, Input.advance Conn.sendAll = .advance snd → snd n < 0 ∨ snd n = n := fun n snd hi => by
    cases hi
    exact .inr rfl
  exact replies_delivered (handlers defaultHub) (Server.loaded zeroHub []).rx zeroHub zeroHub zeroHub
    (oneMessage settck100) _
    (.cons ⟨.advance _ rfl, losesNone_of_fill rfl (scanHeader_short hnew (by simp) (by simp)) (.inr rfl) (hall _)⟩
      (.cons ⟨.recv rfl (by decide) (by decide), losesNone_of_not_parse nofun⟩
      (.cons ⟨.advance _ rfl, losesNone_of_dispatched (r := .settck 100) rfl ⟨⟨_, rfl, rfl⟩, nofun⟩ (by decide)⟩
      (.cons ⟨.advance _ hexec, losesNone_of_fill hexec (scanHeader_short hdone (by simp) (by simp))
        (.inl (by decide +kernel)) (hall _)⟩ (.nil _)))))

/-- The reply of a message is lost behind which there is an unknown one, and what a `send` leaves behind is
left out. -/
theorem replies_not_delivered :
    (∃ d, Machine.Run (Delivery.Step (handlers defaultHub)) newDelivery (oneMessage (settck100 ++ ascii "x:")) d ∧
      ¬ Delivered d) ∧
    ∃ d, Machine.Run (Delivery.Step (handlers defaultHub)) newDelivery
      [.advance Conn.sendAll, .recv settck100, .advance Conn.sendAll, .advance fun _ => 1, .recv (ascii "getinfo:"),
        .advance Conn.sendAll, .advance Conn.sendAll] d ∧ ¬ Delivered d := by
  refine ⟨⟨(Delivery.executing (settck100 ++ ascii "x:")).advance (handlers defaultHub) Conn.sendAll,
      .cons (.advance _ rfl) (.cons (.recv rfl (by decide) (by decide)) (.cons (.advance _ rfl)
      (.cons (.advance _ (?_ : _ = Phase.parse 0x100b)) (.nil _)))), fun hd => ?_⟩,
    ⟨_, .cons (.advance _ rfl) (.cons (.recv rfl (by decide) (by decide)) (.cons (.advance _ rfl)
      (.cons (.advance _ (?_ : _ = Phase.parse 0x100b))
      (.cons (.recv (?_ : _ = Phase.recv) (by decide) (by decide +kernel))
      (.cons (.advance _ (?_ : _ = Phase.parse 0x1000))
      (.cons (.advance _ (?_ : _ = Phase.parse 0x1008)) (.nil _))))))),
      fun hd => ?_⟩⟩
  · decide +kernel
  · have hend : ((Delivery.executing (settck100 ++ ascii "x:")).advance (handlers defaultHub) Conn.sendAll).conn.phase =
        .error := by decide +kernel
    have hm := hd.complete (by rw [hend]; nofun) (by rw [hend]; nofun) (by decide +kernel) [] ⟨true, 4⟩ []
      (by decide +kernel) rfl
    exact absurd hm (by decide +kernel)
  · decide +kernel
  · decide +kernel
  · decide +kernel
  · decide +kernel
  · exact absurd hd.gapFree (by decide +kernel)

end Versal
end Xvc
