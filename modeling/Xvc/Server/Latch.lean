import Xvc.Server.Common
import Xvc.Server.Framing
import Xvc.Server.Reply

/-!
# The error latch

A callback that fails, or a bad `configure:`, leaves a text in `pending_error`. `StickyError` says what
a server then does: until `error:` no callback but `flush` is called and of the client record only the error
may change, every message is still answered, with status 1, and `error:` returns the text and clears the latch.

`flush` may be any: it may store into the replies, raise another error, or fail and end the connection. Each
`Response` is the replies to some messages with what `flush` has stored over them.

`Latches.session` reduces the runs to one iteration of the loop. Between two views of a connection they are `Responds`.
-/

namespace Xvc

open ByteMem Stream Machine

variable {σ M : Type}

/-- The messages of a server, and how it answers while an error is pending. -/
structure Latch (M : Type) where
  enc : M → List UInt8
  /-- `error:`. -/
  error : M
  /-- The reply to another message: zeros for data, and status 1. -/
  reply : M → XvcClient → List UInt8
  status : M → StatusKind

/-- A packet that is sent: the messages that it answers, and what `flush` has stored over the replies. -/
structure Response (M : Type) where
  messages : List M
  stores : List (Nat × List UInt8)

/-- `flush` has stored nothing, or this, and has not failed. -/
def Response.Flushed (P : Protocol σ) (p : Response M) : Prop :=
  p.stores = [] ∨ ∃ f d m, P.flush = some f ∧ p.stores = (f d m).1.stores ∧ 0 ≤ (f d m).2

namespace Latch

variable {L : Latch M}

/-- The messages while an error is pending: nothing happens but the replies. -/
def wire (L : Latch M) : Wire XvcClient M where
  enc := L.enc
  handle m c := { core := c, reply := L.reply m c }

def replies (L : Latch M) (c : XvcClient) (ms : List M) : List UInt8 := ms.flatMap fun m => L.reply m c

/-- The bytes of the responses, the first one behind what was pending before. -/
def bytes (L : Latch M) (c : XvcClient) : List UInt8 → List (Response M) → List UInt8
  | _, [] => []
  | pre, p :: ps => overlay p.stores (pre ++ L.replies c p.messages) ++ L.bytes c [] ps

/-- The replies of each batch fit the reply buffer. -/
def RepliesFit (L : Latch M) (c : XvcClient) (mss : List (List M)) : Prop :=
  ∀ ms ∈ mss, (L.replies c ms).length ≤ maxPacketLen

end Latch

/-- An error that `flush` raises has a text: an empty one would clear the latch. -/
def Protocol.KeepsErrors (P : Protocol σ) : Prop :=
  ∀ f, P.flush = some f → ∀ d m t, (f d m).1.error = some t → (PendingError.ofText t).text ≠ []

/-- An error is still pending, the same one unless `flush` has raised another, and nothing else has changed. -/
structure StillFailed (P : Protocol σ) (c c' : XvcClient) : Prop where
  failed : c'.failed = true
  locked : c'.locked = c.locked
  enableLocking : c'.enableLocking = c.enableLocking
  enableStatus : c'.enableStatus = c.enableStatus
  error : c'.pendingError = c.pendingError ∨
    ∃ f d m t, P.flush = some f ∧ (f d m).1.error = some t ∧ c'.pendingError = .ofText t

variable {P : Protocol σ} {L : Latch M} {rx : RxBuffer} {ok : M → Prop} {c d : Conn σ} {v w x : View XvcClient}
  {ms ms' left left' : List M} {q l q' : List UInt8} {rval : Int}

theorem StillFailed.refl {a : XvcClient} (h : a.failed = true) : StillFailed P a a := ⟨h, rfl, rfl, rfl, .inl rfl⟩

theorem StillFailed.trans {a b e : XvcClient} (h : StillFailed P a b) (h' : StillFailed P b e) : StillFailed P a e where
  failed := h'.failed
  locked := h'.locked.trans h.locked
  enableLocking := h'.enableLocking.trans h.enableLocking
  enableStatus := h'.enableStatus.trans h.enableStatus
  error := by
    rcases h'.error with heq | hraised
    · rw [heq]
      exact h.error
    · exact .inr hraised

/-- What `flush` does to the client record and to what is pending. -/
theorem Protocol.Flushes.stillFailed (hk : P.KeepsErrors) (h : P.Flushes Core.c v w rval) (hf : v.core.failed = true) :
    StillFailed P v.core w.core ∧ w.calls = v.calls ∧ w.sent = v.sent := by
  unfold Protocol.Flushes at h
  split at h
  · obtain ⟨rfl, -⟩ := h
    exact ⟨.refl hf, rfl, rfl⟩
  · next f hP =>
    obtain ⟨a, m, hcore, -, rfl⟩ := h
    refine ⟨?_, rfl, rfl⟩
    show StillFailed P v.core (a.c.after (f a.data m).1.error)
    rw [hcore]
    cases herr : (f a.data m).1.error with
    | none => exact .refl hf
    | some t =>
      exact ⟨(XvcClient.failed_iff _).mpr (hk f hP a.data m t herr), rfl, rfl, rfl,
        .inr ⟨f, a.data, m, t, hP, herr, rfl⟩⟩

theorem Protocol.Flushes.packet (h : P.Flushes Core.c v w rval) (h0 : 0 ≤ rval) (ms : List M) :
    ∃ p : Response M, p.messages = ms ∧ p.Flushed P ∧ w.pending = overlay p.stores v.pending := by
  unfold Protocol.Flushes at h
  split at h
  · obtain ⟨rfl, -⟩ := h
    exact ⟨⟨ms, []⟩, rfl, .inl rfl, (overlay_nil _).symm⟩
  · next f hP =>
    obtain ⟨a, m, -, rfl, rfl⟩ := h
    exact ⟨⟨ms, (f a.data m).1.stores⟩, rfl, .inr ⟨f, a.data, m, hP, rfl, h0⟩, rfl⟩

theorem Protocol.Flushes.fails (h : P.Flushes Core.c v w rval) (hneg : rval < 0) :
    ∃ f data mem, P.flush = some f ∧ (f data mem).2 < 0 := by
  unfold Protocol.Flushes at h
  split at h
  · obtain ⟨-, rfl⟩ := h
    exact absurd hneg (by decide)
  · next f hP =>
    obtain ⟨a, m, -, rfl, -⟩ := h
    exact ⟨f, a.data, m, hP, hneg⟩

/-- From one view to another the messages are answered and responses are sent; the messages `left` are left. -/
inductive Responds (P : Protocol σ) (L : Latch M) : View XvcClient → List M → View XvcClient → List M → Prop
  | done (v : View XvcClient) (ms : List M) : Responds P L v ms v ms
  | message {v w : View XvcClient} {m : M} {ms left : List M}
    (h : Responds P L (v.reply (L.reply m v.core)) ms w left) :
      Responds P L v (m :: ms) w left
  | packet {v u w : View XvcClient} {rval : Int} {ms left : List M} (hflush : P.Flushes Core.c v u rval)
      (h0 : 0 ≤ rval) (h : Responds P L u.flush ms w left) : Responds P L v ms w left

theorem Responds.trans (h : Responds P L v ms w left) (h' : Responds P L w left x left') :
    Responds P L v ms x left' := by
  induction h with
  | done => exact h'
  | message _ ih => exact .message (ih h')
  | packet hflush h0 _ ih => exact .packet hflush h0 (ih h')

theorem Responds.append (h : Responds P L v ms w left) (ms' : List M) : Responds P L v (ms ++ ms') w (left ++ ms') := by
  induction h with
  | done => exact .done _ _
  | message _ ih => exact .message ih
  | packet hflush h0 _ ih => exact .packet hflush h0 ih

theorem Responds.stillFailed (h : Responds P L v ms w left) (hk : P.KeepsErrors) (hf : v.core.failed = true) :
    StillFailed P v.core w.core ∧ w.calls = v.calls := by
  induction h with
  | done => exact ⟨.refl hf, rfl⟩
  | message _ ih => exact ih hf
  | packet hflush _ _ ih =>
    obtain ⟨hstill, hcalls, -⟩ := hflush.stillFailed hk hf
    obtain ⟨hstill', hcalls'⟩ := ih hstill.failed
    exact ⟨hstill.trans hstill', hcalls'.trans hcalls⟩

/-- With an error pending the server only answers; a reply depends on `enable_status` only. -/
structure Latches (P : Protocol σ) (L : Latch M) (rx : RxBuffer) (ok : M → Prop) : Prop
    extends Serves P Core.c L.wire rx (fun m => ok m ∧ m ≠ L.error) fun c => c.failed = true where
  reply_congr : ∀ m (c c' : XvcClient), c'.enableStatus = c.enableStatus → L.reply m c' = L.reply m c

theorem Latches.replies_congr (hr : Latches P L rx ok) {a b : XvcClient} (h : StillFailed P a b) (ms : List M) :
    L.replies b ms = L.replies a ms :=
  List.flatMap_congr fun m _ => hr.reply_congr m a b h.enableStatus

/-- **What is sent.** The responses, and the messages `rest` whose replies are still pending. -/
theorem Responds.responses (h : Responds P L v ms w left) (hr : Latches P L rx ok) (hk : P.KeepsErrors)
    (hf : v.core.failed = true) :
    ∃ responses rest, ms = responses.flatMap Response.messages ++ (rest ++ left) ∧ (∀ p ∈ responses, p.Flushed P) ∧
      w.sent = v.sent ++ L.bytes v.core v.pending responses ∧
      w.sent ++ w.pending = v.sent ++ L.bytes v.core v.pending (responses ++ [⟨rest, []⟩]) := by
  induction h with
  | done v ms => exact ⟨[], [], rfl, nofun, by simp [Latch.bytes], by simp [Latch.bytes, Latch.replies]⟩
  | @message v w m ms left _ ih =>
    obtain ⟨responses, rest, rfl, hall, hsent, hpend⟩ := ih hf
    have hcons : ∀ l, L.replies v.core (m :: l) = L.reply m v.core ++ L.replies v.core l := fun _ => List.flatMap_cons
    cases responses with
    | nil =>
      refine ⟨[], m :: rest, rfl, hall, hsent, ?_⟩
      rw [hpend]
      simp only [List.nil_append, Latch.bytes, hcons, View.reply, List.append_assoc]
    | cons p ps =>
      refine ⟨⟨m :: p.messages, p.stores⟩ :: ps, rest, rfl, fun p' hp => ?_, ?_, ?_⟩
      · rcases List.mem_cons.mp hp with rfl | hp
        · exact hall p List.mem_cons_self
        · exact hall p' (List.mem_cons_of_mem _ hp)
      · rw [hsent]
        simp only [Latch.bytes, hcons, View.reply, List.append_assoc]
      · rw [hpend]
        simp only [List.cons_append, Latch.bytes, hcons, View.reply, List.append_assoc]
  | @packet v u w rval ms left hflush h0 _ ih =>
    obtain ⟨hstill, -, hsame⟩ := hflush.stillFailed hk hf
    obtain ⟨p, hp, hflushed, hpre⟩ := hflush.packet h0 ([] : List M)
    obtain ⟨responses, rest, rfl, hall, hsent, hpend⟩ := ih hstill.failed
    have hbytes : ∀ pre ps, L.bytes u.core pre ps = L.bytes v.core pre ps := by
      intro pre ps
      induction ps generalizing pre with
      | nil => rfl
      | cons p ps ih => rw [Latch.bytes, Latch.bytes, ih, hr.replies_congr hstill]
    have hp0 : L.replies v.core p.messages = [] := by rw [hp]; rfl
    refine ⟨p :: responses, rest, by rw [List.flatMap_cons, hp, List.nil_append], ?_, ?_, ?_⟩
    · intro p' hmem
      rcases List.mem_cons.mp hmem with rfl | hmem
      · exact hflushed
      · exact hall p' hmem
    · rw [hsent, show u.flush.core = u.core from rfl, hbytes, Latch.bytes, hp0, List.append_nil, ← hpre, ← hsame]
      simp only [View.flush, List.append_assoc]
    · rw [hpend, show u.flush.core = u.core from rfl, hbytes, List.cons_append, Latch.bytes, hp0, List.append_nil,
        ← hpre, ← hsame]
      simp only [View.flush, List.append_assoc]

/-- Where a connection is, of which the view `w` is known and the messages `left` are left. -/
def Conn.Latched (P : Protocol σ) (rx : RxBuffer) (q : List UInt8) (d : Conn σ) (w : View XvcClient) (left : List M) :
    Prop :=
  left = [] ∧ Waits rx Core.c d q w ∨
    d.phase = .error ∧ ∃ u rval, P.Flushes Core.c w u rval ∧ rval < 0 ∧ d.s.view.map Core.c = u

theorem apply_wire (v : View XvcClient) (m : M) : v.apply (L.wire.handle m v.core) = v.reply (L.reply m v.core) :=
  (View.reply_eq_apply v _).symm

/-- **A batch**, by induction on its messages. -/
theorem Latches.batch (hr : Latches P L rx ok) (hk : P.KeepsErrors) (hms : ∀ m ∈ ms, ok m ∧ m ≠ L.error)
    (h : Parses rx Core.c c (ms.flatMap L.enc ++ q) v) (htail : Tail L.enc (fun m => ok m ∧ m ≠ L.error) q)
    (hf : v.core.failed = true) (hfit : v.pending.length + (L.replies v.core ms).length ≤ maxPacketLen) :
    ∃ d w left, Settles (Conn.advance P Conn.sendAll) c d ∧ Responds P L v ms w left ∧ d.Latched P rx q w left := by
  induction ms generalizing c v with
  | nil =>
    obtain ⟨d, hd, ⟨-, hw⟩ | ⟨w, rval, hflush, hw⟩⟩ := h.ends hr.toServes htail
    · exact ⟨d, v, [], hd, .done v [], .inl ⟨rfl, hw⟩⟩
    · split at hw
      · next hneg => exact ⟨d, v, [], hd, .done v [], .inr ⟨hw.1, w, rval, hflush, hneg, hw.2⟩⟩
      · next hneg => exact ⟨d, w.flush, [], hd, .packet hflush (Int.not_lt.mp hneg) (.done _ _), .inl ⟨rfl, hw⟩⟩
  | cons m ms ih =>
    have hm := hms m List.mem_cons_self
    have hrest : ∀ x ∈ ms, ok x ∧ x ≠ L.error := fun x hx => hms x (List.mem_cons_of_mem _ hx)
    rw [List.flatMap_cons, List.append_assoc] at h
    rw [show L.replies v.core (m :: ms) = L.reply m v.core ++ L.replies v.core ms from List.flatMap_cons,
      List.length_append] at hfit
    have hnext : ∀ w rval, P.Flushes Core.c v w rval →
        w.core.failed = true ∧ (L.wire.handle m w.core).reply.length ≤ maxPacketLen := by
      intro w rval hflush
      obtain ⟨hstill, -⟩ := hflush.stillFailed hk hf
      refine ⟨hstill.failed, ?_⟩
      show (L.reply m w.core).length ≤ maxPacketLen
      rw [hr.reply_congr m v.core w.core hstill.enableStatus]
      omega
    obtain ⟨n, c', hstep, hc' | ⟨w, rval, hflush, hc'⟩⟩ := h.passes hr.toServes hm hf
      (show v.pending.length + (L.reply m v.core).length ≤ maxPacketLen by omega) hnext
    · rw [apply_wire] at hc'
      obtain ⟨d, w, left, hd, hans, hend⟩ := ih hrest hc' hf (by simp only [View.reply, List.length_append]; omega)
      exact ⟨d, w, left, hd.of_iterate hstep, .message hans, hend⟩
    · split at hc'
      · next hneg =>
        refine ⟨c', v, m :: ms, .of_iterate hstep (.refl (Conn.advance_of_not_parse fun p hp => ?_)), .done _ _,
          .inr ⟨hc'.1, w, rval, hflush, hneg, hc'.2⟩⟩
        rw [hc'.1] at hp
        cases hp
      · next hneg =>
        obtain ⟨hstill, -⟩ := hflush.stillFailed hk hf
        rw [show w.flush.apply (L.wire.handle m w.core) = w.flush.reply (L.reply m w.core) from
          apply_wire w.flush m] at hc'
        obtain ⟨d, x, left, hd, hans, hend⟩ := ih hrest hc' hstill.failed (by
          show (([] : List UInt8) ++ L.reply m w.core).length + (L.replies w.core ms).length ≤ maxPacketLen
          rw [List.nil_append, hr.reply_congr m v.core w.core hstill.enableStatus, hr.replies_congr hstill]
          omega)
        exact ⟨d, x, left, hd.of_iterate hstep, .packet hflush (Int.not_lt.mp hneg) (.message hans), hend⟩

theorem Latches.repliesFit (hr : Latches P L rx ok) {a b : XvcClient} (h : StillFailed P a b) {mss : List (List M)}
    (hfit : L.RepliesFit a mss) : L.RepliesFit b mss := fun ms hms => by
  rw [hr.replies_congr h]
  exact hfit ms hms

/-- **Any number of chunks**, by induction on them. -/
theorem Latches.feed (hr : Latches P L rx ok) (hk : P.KeepsErrors) {chunks : List (List UInt8)} {mss : List (List M)}
    (hb : Batched L.enc (fun m => ok m ∧ m ≠ L.error) q chunks mss q') (hms : ∀ m ∈ mss.flatten, ok m ∧ m ≠ L.error)
    (h : Waits rx Core.c c q v) (hf : v.core.failed = true) (hfits : L.RepliesFit v.core mss)
    (hfeed : Conn.Feed P c chunks d) : ∃ w left, Responds P L v mss.flatten w left ∧ d.Latched P rx q' w left := by
  induction hb generalizing c v with
  | nil q =>
    cases hfeed
    exact ⟨v, [], .done v [], .inl ⟨rfl, h⟩⟩
  | @cons q q₁ q₂ chunk chunks ms mss hchunk htail _ ih =>
    cases hfeed with
    | cons hp hne hroom hrun hrest =>
      rw [List.flatten_cons] at hms ⊢
      have hparse := h.receive hroom
      rw [hchunk] at hparse
      obtain ⟨d₁, w, left, hd₁, hans, hend⟩ :=
        hr.batch hk (fun m hm => hms m (List.mem_append_left _ hm)) hparse htail hf
        (by rw [h.nothing]; simpa using hfits ms List.mem_cons_self)
      obtain rfl := hrun.unique hd₁
      have hans' := hans.append mss.flatten
      obtain ⟨hstill, -⟩ := hans.stillFailed hk hf
      rcases hend with ⟨rfl, hw⟩ | ⟨herr, hfail⟩
      · obtain ⟨x, left, hrest', hend'⟩ := ih (fun m hm => hms m (List.mem_append_right _ hm)) hw hstill.failed
          (hr.repliesFit hstill fun m hm => hfits m (List.mem_cons_of_mem _ hm)) hrest
        exact ⟨x, left, hans'.trans hrest', hend'⟩
      · -- The connection is closed.
        cases hrest with
        | nil => exact ⟨w, left ++ mss.flatten, hans', .inr ⟨herr, hfail⟩⟩
        | cons hp' => rw [herr] at hp'; cases hp'

/-- The connection comes to wait, or is closed. -/
theorem Latches.settles (hr : Latches P L rx ok) (hk : P.KeepsErrors) (hms : ∀ m ∈ ms, ok m ∧ m ≠ L.error)
    (h : c.Pending rx Core.c L.enc ms q v) (htail : Tail L.enc (fun m => ok m ∧ m ≠ L.error) q)
    (hf : v.core.failed = true) (hfit : v.pending.length + (L.replies v.core ms).length ≤ maxPacketLen) :
    ∃ d w left, Settles (Conn.advance P Conn.sendAll) c d ∧ Responds P L v ms w left ∧ d.Latched P rx q w left := by
  rcases h with h | ⟨rfl, h⟩
  · exact hr.batch hk hms h htail hf hfit
  · exact ⟨c, v, [], .refl (Conn.advance_recv h.phase), .done v [], .inl ⟨rfl, h⟩⟩

/-- **Runs with an error pending.** -/
theorem Latches.session (hr : Latches P L rx ok) (hk : P.KeepsErrors) {chunks : List (List UInt8)} {mss : List (List M)}
    (h : c.Pending rx Core.c L.enc ms q v) (hf : v.core.failed = true)
    (htail : Tail L.enc (fun m => ok m ∧ m ≠ L.error) q)
    (hb : Batched L.enc (fun m => ok m ∧ m ≠ L.error) q chunks mss q')
    (hms : ∀ m ∈ ms ++ mss.flatten, ok m ∧ m ≠ L.error)
    (hfit : v.pending.length + (L.replies v.core ms).length ≤ maxPacketLen)
    (hfits : L.RepliesFit v.core mss) (hs : c.Session P chunks d) :
    ∃ w left, Responds P L v (ms ++ mss.flatten) w left ∧ d.Latched P rx q' w left := by
  obtain ⟨c', hc', hfeed⟩ := hs
  obtain ⟨c'', w, left, hc'', hans, hend⟩ :=
    hr.settles hk (fun m hm => hms m (List.mem_append_left _ hm)) h htail hf hfit
  obtain rfl := hc'.unique hc''
  have hans' := hans.append mss.flatten
  obtain ⟨hstill, -⟩ := hans.stillFailed hk hf
  rcases hend with ⟨rfl, hw⟩ | ⟨herr, hfail⟩
  · obtain ⟨x, left, hrest, hend⟩ := hr.feed hk hb (fun m hm => hms m (List.mem_append_right _ hm)) hw hstill.failed
      (hr.repliesFit hstill hfits) hfeed
    exact ⟨x, left, hans'.trans hrest, hend⟩
  · cases hfeed with
    | nil => cases hb; exact ⟨w, _, hans', .inr ⟨herr, hfail⟩⟩
    | cons hp => rw [herr] at hp; cases hp

theorem Latches.latched (hr : Latches P L rx ok) (hk : P.KeepsErrors) {chunks : List (List UInt8)} {mss : List (List M)}
    (h : c.Pending rx Core.c L.enc ms q v) (hf : v.core.failed = true)
    (htail : Tail L.enc (fun m => ok m ∧ m ≠ L.error) q)
    (hb : Batched L.enc (fun m => ok m ∧ m ≠ L.error) q chunks mss q')
    (hms : ∀ m ∈ ms ++ mss.flatten, ok m ∧ m ≠ L.error)
    (hfit : v.pending.length + (L.replies v.core ms).length ≤ maxPacketLen)
    (hfits : L.RepliesFit v.core mss) (hs : c.Session P chunks d) :
    StillFailed P v.core d.s.c ∧ callsOf d.s.trace = v.calls ∧
      ∃ (responses : List (Response M)) (unanswered : List M),
        ms ++ mss.flatten = responses.flatMap Response.messages ++ unanswered ∧ (∀ p ∈ responses, p.Flushed P) ∧
        sentOf d.s.trace = v.sent ++ L.bytes v.core v.pending responses ∧
        (d.phase = .recv ∧ unanswered = [] ∨
          d.phase = .error ∧ ∃ f data mem, P.flush = some f ∧ (f data mem).2 < 0) := by
  obtain ⟨w, left, hans, hend⟩ := hr.session hk h hf htail hb hms hfit hfits hs
  obtain ⟨hstill, hcalls⟩ := hans.stillFailed hk hf
  obtain ⟨responses, rest, hmsgs, hall, hsent, hpend⟩ := hans.responses hr hk hf
  rcases hend with ⟨rfl, hw⟩ | ⟨herr, u, rval, hflush, hneg, hview⟩
  · have hcore : d.s.c = w.core := hw.core
    refine ⟨hcore ▸ hstill, hw.calls.trans hcalls, responses ++ [⟨rest, []⟩], [], ?_, ?_, ?_, .inl ⟨hw.phase, rfl⟩⟩
    · rw [hmsgs]
      simp
    · intro p hp
      rcases List.mem_append.mp hp with hp | hp
      · exact hall p hp
      · exact .inl (by rw [List.mem_singleton.mp hp])
    · -- Nothing is pending any more.
      rw [hw.sent, ← hpend, hw.nothing, List.append_nil]
  · obtain ⟨hstill', hcalls', hsent'⟩ := hflush.stillFailed hk hstill.failed
    have hcore : d.s.c = u.core := congrArg View.core hview
    refine ⟨hcore ▸ hstill.trans hstill', ?_, responses, rest ++ left, hmsgs, hall, ?_, .inr ⟨herr, hflush.fails hneg⟩⟩
    · exact (congrArg View.calls hview).trans (hcalls'.trans hcalls)
    · exact (congrArg View.sent hview).trans (hsent'.trans hsent)

end Xvc
