import Xvc.Versal.Handle

/-!
# Fragmentation and pipelining in `mem/versal`

The server of `mem/versal` realizes its messages, so what a client and the handlers see does not
depend on how `recv` splits the stream.

* `iter_msg`: an iteration of the loop at a whole message does what `handle` says.
* `realizes`: so the server realizes `wire`, for handlers that are functions of their arguments.
* `fragmentation`: any split of a stream of messages into chunks is answered as the messages one at
  a time are.
-/

namespace Xvc
namespace Versal

open ByteMem Stream Machine

variable {σ : Type} {h : XvcServerHandlers σ} {cb : Callbacks σ} {rx : RxBuffer} {s : Server σ}
  {cbuf p : Nat} {rest : List UInt8}

/-! ## What follows a message -/

theorem holds_exec {m : Msg} (hw : m.WellFormed h s.rx) (hh : Holds s p (m.payload ++ rest)) :
    Holds (exec h s (m.request p)) (p + m.payload.length) rest := by
  have hd := hh.drop
  cases m with
  | configure len text ht =>
    have hmax : text.length < 2 ^ 32 := by
      have h1 := hw.fits
      have h2 := s.rx.unsigned
      simp only [Msg.enc, Msg.body, Msg.payload, List.length_append] at h1
      omega
    have hx : Holds (execConfigure (lockingAvailable h) s text.length p) (p + text.length) rest :=
      hh.of_execConfigure hmax
    show Holds (execConfigure (lockingAvailable h) s len.value p) (p + text.length) rest
    rw [← ht]
    exact hx
  | getinfo => exact hd.of_received (received_execGetinfo s)
  | capabilities => exact hd.of_received (received_execCapabilities _ s)
  | error => exact hd.of_received (received_execError s)
  | lock timeout => exact hd.of_received (received_execLock h s _)
  | unlock => exact hd.of_received (received_execUnlock h s)
  | shift bits tms tdi _ _ _ => exact hd.of_received (received_execShift h s bits _)
  | settck nsperiod _ => exact hd.of_received (received_execSettck h s nsperiod)
  | rshift instruction flags st count tdi _ => exact hd.of_received (received_execRshift h s _ _ _ _ _)
  | state flags st count => exact hd.of_received (received_execState h s _ _ _)
  | mrd flags addr numBytes => exact hd.of_received (received_execMrd h s _ _ _)
  | mwr flags addr numBytes data _ => exact hd.of_received (received_execMwr h s _ _ _ _)

/-- **One iteration.** At a whole message it does what `handle` says, unless it waits for the replies
before it. -/
theorem iter_msg {m : Msg} (hw : m.WellFormed h s.rx) (hs : s.c.failed = false → m.Served h cb)
    (hl : s.c.failed = false → lockingAvailable h = false → s.c.enableLocking = 0)
    (hh : Holds s cbuf (m.enc ++ rest))
    (hfit : s.replyLen + (handle h cb s.rx.bufMax m s.view.core).reply.length ≤ maxPacketLen) :
    (0 < s.replyLen ∧ (protocol h).iter s cbuf = .stop) ∨
      ∃ t, (protocol h).iter s cbuf = .reply t (cbuf + m.enc.length) ∧ t.rx = s.rx ∧
        Holds t (cbuf + m.enc.length) rest ∧ t.view = s.view.apply (handle h cb s.rx.bufMax m s.view.core) := by
  have hiter := iter_whole hw hh
  simp only at hiter
  have hpay : Holds s (cbuf + (m.name.length + 1) + (Uleb.enc m.numbers).length) (m.payload ++ rest) := by
    have hd : Holds s cbuf ((m.name ++ [58] ++ Uleb.enc m.numbers) ++ (m.payload ++ rest)) := by
      simpa [Msg.enc, Msg.body, List.append_assoc] using hh
    have := hd.drop
    simpa only [List.length_append, List.length_singleton, ← Nat.add_assoc] using this
  have hlen : cbuf + (m.name.length + 1) + (Uleb.enc m.numbers).length + m.payload.length =
      cbuf + m.enc.length := by
    simp only [Msg.enc, Msg.body, List.length_append, List.length_singleton]; omega
  show (0 < s.replyLen ∧ (dispatch h).iter s cbuf = .stop) ∨ ∃ t, (dispatch h).iter s cbuf = _ ∧ _
  rw [hiter]
  split
  · next hwait => exact .inl ⟨hwait.2, rfl⟩
  · refine .inr ⟨_, rfl, (keepsBuffer h s _).1, ?_, exec_view hw hpay hs hl hfit⟩
    rw [← hlen]
    exact holds_exec hw hpay

/-! ## The server realizes its messages -/

/-- The `locking` option is off unless both handlers are there. -/
def LockingKnown (h : XvcServerHandlers σ) (a : Core σ) : Prop :=
  lockingAvailable h = false → a.c.enableLocking = 0

theorem ofCall_enableLocking (a : Core σ) (c : Call) (e : Result σ) :
    (Outcome.ofCall a c e).core.c.enableLocking = a.c.enableLocking := by
  unfold Outcome.ofCall
  split
  · rfl
  · exact XvcClient.after_enableLocking _ _

theorem handleLock_enableLocking (cb : Callbacks σ) (timeout : Nat) (a : Core σ) :
    (handleLock cb timeout a).core.c.enableLocking = a.c.enableLocking := by
  have hcall := ofCall_enableLocking a (.lock timeout) (cb.lock a.data timeout)
  unfold handleLock
  split
  · rfl
  split
  · rfl
  split
  · rfl
  · simp only
    split <;> exact hcall

theorem handleUnlock_enableLocking (cb : Callbacks σ) (a : Core σ) :
    (handleUnlock cb a).core.c.enableLocking = a.c.enableLocking := by
  have hcall := ofCall_enableLocking a .unlock (cb.unlock a.data)
  unfold handleUnlock
  split
  · rfl
  split
  · rfl
  split
  · rfl
  · simp only
    split <;> exact hcall

theorem LockingKnown.handle {a : Core σ} (hl : LockingKnown h a) (bufMax : Nat) (m : Msg) :
    LockingKnown h (handle h cb bufMax m a).core := by
  intro hav
  have h0 := hl hav
  cases m with
  | getinfo => exact h0
  | capabilities => exact h0
  | configure len text ht =>
    show (applyConfig (lockingAvailable h) text a.c).enableLocking = 0
    rw [hav, applyConfig_enableLocking, h0]
  | error => exact h0
  | lock timeout => exact (handleLock_enableLocking cb _ a).trans h0
  | unlock => exact (handleUnlock_enableLocking cb a).trans h0
  | shift bits tms tdi _ _ _ =>
    simp only [Versal.handle, Outcome.withOptionalStatus_core, Outcome.ofData_core, ofCall_enableLocking, h0]
  | settck nsperiod _ =>
    simp only [Versal.handle, handleSettck, Outcome.withOptionalStatus_core, ofCall_enableLocking, h0]
  | rshift instruction flags st count tdi _ => exact (ofCall_enableLocking a _ _).trans h0
  | state flags st count => exact (ofCall_enableLocking a _ _).trans h0
  | mrd flags addr numBytes => exact (ofCall_enableLocking a _ _).trans h0
  | mwr flags addr numBytes data _ => exact (ofCall_enableLocking a _ _).trans h0

/-- The server does what `wire` says. -/
theorem realizes (cb : Callbacks σ) (rx : RxBuffer) (hq : (protocol h).QuietFlush id) :
    Realizes (protocol h) id (wire h cb rx.bufMax) rx (fun m => m.WellFormed h rx ∧ m.Served h cb)
      (LockingKnown h) where
  enc_ne m _ := m.enc_ne_nil
  fits m hm := (Nat.le_add_right _ _).trans hm.1.fits
  keeps m a _ hinv := hinv.handle rx.bufMax m
  idle s cbuf _ hh := Dispatch.iter_idle hh
  cut s cbuf m q hrx hm hq hh := iter_cut (by rw [hrx]; exact hm.1) hh hq
  whole s cbuf m rest hrx hm hinv hh hfit := by
    subst hrx
    exact iter_msg hm.1 (fun _ => hm.2) (fun _ => hinv) hh hfit
  flush := hq

/-! ## Any split of a stream -/

/-- **Fragmentation and pipelining.** A new connection receives a stream of well-formed messages, or
the beginning of one, in any chunks. It has executed the messages `ms` that are complete and waits
in `recv` for the rest of the next one, and up to now it has sent the same bytes, made the same
handler calls and come to the same client record and implementation state as the connection that
gets the messages `ms` one at a time, each in a chunk of its own. While a message is missing there
is room to go on, and no chunk that fits is refused. -/
theorem fragmentation (h : XvcServerHandlers σ) (cb : Callbacks σ) (hi : Implements h cb)
    (hq : (protocol h).QuietFlush id) (rx : RxBuffer) (data : σ) (mem replyBuf : ByteMem)
    (msgs : List Msg) (hw : ∀ m ∈ msgs, m.WellFormed h rx)
    (hrep : ((wire h cb rx.bufMax).run msgs ⟨{}, data⟩).reply.length ≤ maxPacketLen) :
    let session := (Conn.start rx data mem replyBuf).Session (protocol h)
    (∃ c, session [] c) ∧
    ∀ chunks d, session chunks d → chunks.flatten <+: msgs.flatMap Msg.enc →
      ∃ ms rest q u, msgs = ms ++ rest ∧ chunks.flatten = ms.flatMap Msg.enc ++ q ∧
        Stream.Rest Msg.enc q rest ∧ (chunks.flatten = msgs.flatMap Msg.enc → rest = []) ∧
        session (ms.map Msg.enc) u ∧ d.phase = .recv ∧ sentOf d.s.trace = sentOf u.s.trace ∧
        callsOf d.s.trace = callsOf u.s.trace ∧ d.s.c = u.s.c ∧ d.s.clientData = u.s.clientData ∧
        (rest ≠ [] → 0 < d.s.room) ∧
        ∀ chunk, chunk ≠ [] → chunk.length ≤ d.s.room →
          chunks.flatten ++ chunk <+: msgs.flatMap Msg.enc → ∃ e, session (chunks ++ [chunk]) e := by
  intro session
  have hr := realizes cb rx hq
  have hms : ∀ m ∈ msgs, m.WellFormed h rx ∧ m.Served h cb := fun m hm => ⟨hw m hm, hi.served m⟩
  have hinv : LockingKnown h (⟨{}, data⟩ : Core σ) := fun _ => rfl
  obtain ⟨c, hc, hwait⟩ := start_waits hr data mem replyBuf
  refine ⟨⟨c, c, hc, .nil c⟩, ?_⟩
  rintro chunks d ⟨c', hc', hfeed⟩ hpre
  obtain rfl := hc.unique hc'
  obtain ⟨ms, rest, q, rfl, heq, hrest, hd⟩ := hwait.feed_prefix hr hms hinv hrep hpre hfeed
  have hsplit := hrep
  rw [Wire.run_append, List.length_append] at hsplit
  have hms₂ : ∀ m ∈ rest, m.WellFormed h rx ∧ m.Served h cb := fun m hm => hms m (by simp [hm])
  obtain ⟨u, hu, hwu⟩ := hwait.exists_feed_each hr ms (fun m hm => hms m (by simp [hm])) hinv
    (by simp only [id]; omega)
  have hcore : d.s.view.core = u.s.view.core := hd.core.trans hwu.core.symm
  refine ⟨ms, rest, q, u, rfl, heq, hrest, ?_, ⟨c, hc, hu⟩, hd.phase, hd.sent.trans hwu.sent.symm,
    hd.calls.trans hwu.calls.symm, congrArg Core.c hcore, congrArg Core.data hcore, ?_, ?_⟩
  · intro hall
    exact (hrest.whole (heq.symm.trans hall)).1
  · intro hne
    obtain ⟨m, hm⟩ := List.exists_mem_of_ne_nil rest hne
    have hpos := List.length_pos_iff.mpr (hr.enc_ne m (hms₂ m hm))
    exact hd.room_pos hr (hrest.tail hms₂) (hpos.trans_le (hr.fits m (hms₂ m hm)))
  · intro chunk hne hfit hnext
    rw [heq, List.flatMap_append, List.append_assoc] at hnext
    obtain ⟨e, he⟩ := hd.exists_next hr hms₂ (Wire.inv_run hr (fun m hm => hms m (by simp [hm])) hinv)
      (by simpa [View.apply, View.flush] using (by omega : _ ≤ maxPacketLen)) hne hfit
      ((List.prefix_append_right_inj _).mp hnext)
    exact ⟨e, c, hc, hfeed.append he⟩

/-- Handlers that answer a shift with its TDI bits. -/
def loopback : XvcServerHandlers Unit where
  setTck d nsperiod := ({ clientData := d }, nsperiod)
  shiftTmsTdi d mem count _ tdi tdo := { clientData := d, stores := [(tdo, slice mem tdi ((count + 7) / 8))] }
  lock := none
  unlock := none
  registerShift := none
  state := none
  flush := none
  mrd := none
  mwr := none

/-- What they do. -/
def loopbackCallbacks : Callbacks Unit where
  setTck d nsperiod := ({ data := d }, nsperiod)
  shiftTmsTdi d _ _ tdi := ({ data := d }, write (fun _ => 0) 0 tdi)
  lock d _ := { data := d }
  unlock d := { data := d }
  registerShift d _ _ _ _ _ := ({ data := d }, fun _ => 0)
  state d _ _ _ := { data := d }
  mrd d _ _ _ := ({ data := d }, fun _ => 0)
  mwr d _ _ _ _ := { data := d }

theorem loopback_implements : Implements loopback loopbackCallbacks where
  setTck d _ _ := ⟨Performs.of_noStores (e := { data := d }), rfl⟩
  shiftTmsTdi d mem count _ b i := by
    have hw := slice_write (fun _ => 0) 0 (slice mem b ((count + 7) / 8))
    rw [length_slice] at hw
    simp only [loopbackCallbacks, hw]
    exact .of_write (e := { data := d })
  lock := nofun
  unlock := nofun
  registerShift := nofun
  state := nofun
  mrd := nofun
  mwr := nofun

/-- A shift of eight bits, then the clock period. -/
def shiftThenSettck : List Msg :=
  [.shift 8 [0x01] [0xa5] (by decide) rfl rfl, .settck 100 (by decide)]

theorem fragmentation_loopback :
    let session := (Conn.start (Server.loaded () []).rx () zeroHub zeroHub).Session (protocol loopback)
    (∃ c, session [] c) ∧
    ∀ chunks d, session chunks d → chunks.flatten = shiftThenSettck.flatMap Msg.enc →
      ∃ u, session (shiftThenSettck.map Msg.enc) u ∧ sentOf d.s.trace = sentOf u.s.trace ∧
        callsOf d.s.trace = callsOf u.s.trace := by
  intro session
  have hw : ∀ m ∈ shiftThenSettck, m.WellFormed loopback (Server.loaded () []).rx := by
    intro m hm
    rcases List.mem_cons.mp hm with rfl | hm
    · exact ⟨trivial, by decide⟩
    · rw [List.mem_singleton.mp hm]
      exact ⟨trivial, by decide⟩
  have hall := fragmentation loopback loopbackCallbacks loopback_implements nofun (Server.loaded () []).rx () zeroHub
    zeroHub shiftThenSettck hw (by decide)
  refine ⟨hall.1, fun chunks d hs hc => ?_⟩
  obtain ⟨ms, rest, q, u, heq, -, -, hwhole, hu, -, hsent, hcalls, -⟩ := hall.2 chunks d hs (by rw [hc])
  rw [hwhole hc, List.append_nil] at heq
  exact ⟨u, by rw [heq]; exact hu, hsent, hcalls⟩

end Versal
end Xvc
