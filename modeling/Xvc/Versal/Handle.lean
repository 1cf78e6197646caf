import Xvc.Versal.Message

/-!
# What the messages of `mem/versal` do

The purpose of the messages, without buffers: `Callbacks` are the handlers as functions of their
state, their arguments and their operand bytes, and `handle` is what a message does to the client
record and that state, what it replies and which handler it calls. `exec_view` says that the server's
branch for a message does what `handle` says, when the handler does what `Callbacks` say (`Served`);
with an error pending no handler is called, and nothing is needed of it.
-/

namespace Xvc
namespace Versal

open ByteMem Stream

variable {σ : Type}

/-- The handlers as functions of their state and arguments. A callback with a data buffer also gives
what it fills it with, as the byte at each index. -/
structure Callbacks (σ : Type) where
  setTck : σ → (nsperiod : Nat) → Result σ × Nat
  shiftTmsTdi : σ → (count : Nat) → (tms tdi : List UInt8) → Result σ × ByteMem
  lock : σ → (timeout : Nat) → Result σ
  unlock : σ → Result σ
  registerShift : σ → (instruction : Bool) → (flags state count : Nat) → (tdi : List UInt8) →
    Result σ × ByteMem
  state : σ → (flags state count : Nat) → Result σ
  mrd : σ → (flags addr numBytes : Nat) → Result σ × ByteMem
  mwr : σ → (flags addr numBytes : Nat) → (data : List UInt8) → Result σ

/-! ## The messages -/

/-- `lock:` without its status. -/
def handleLock (cb : Callbacks σ) (timeout : Nat) (a : Core σ) : Outcome (Core σ) :=
  if a.c.failed then { core := a }
  else if a.c.enableLocking = 0 then { core := { a with c := a.c.setError (ascii "locking is disabled") } }
  else if a.c.locked ≠ 0 then { core := { a with c := a.c.setError (ascii "already locked") } }
  else
    let o := Outcome.ofCall a (.lock timeout) (cb.lock a.data timeout)
    if o.core.c.failed then o else { o with core := { o.core with c := { o.core.c with locked := 1 } } }

/-- `unlock:` without its status. -/
def handleUnlock (cb : Callbacks σ) (a : Core σ) : Outcome (Core σ) :=
  if a.c.failed then { core := a }
  else if a.c.enableLocking = 0 then { core := { a with c := a.c.setError (ascii "locking is disabled") } }
  else if a.c.locked = 0 then { core := { a with c := a.c.setError (ascii "already unlocked") } }
  else
    let o := Outcome.ofCall a .unlock (cb.unlock a.data)
    if o.core.c.failed then o else { o with core := { o.core with c := { o.core.c with locked := 0 } } }

/-- `settck:` without its status: the period that the handler chose, or the one asked for. -/
def handleSettck (cb : Callbacks σ) (nsperiod : Nat) (a : Core σ) : Outcome (Core σ) :=
  let r := cb.setTck a.data nsperiod
  let o := Outcome.ofCall a (.setTck nsperiod) r.1
  { o with reply := setUintLe 4 (if o.core.c.failed then nsperiod else r.2) }

/-- What a message does. -/
def handle (h : XvcServerHandlers σ) (cb : Callbacks σ) (bufMax : Nat) : Msg → Core σ → Outcome (Core σ)
  | .getinfo, a => { core := a, reply := getinfoText bufMax }
  | .capabilities, a =>
    { core := a, reply := Leb128.encode 10 (capabilitiesText h).length ++ capabilitiesText h }
  | .configure _ text _, a =>
    Outcome.withStatus { core := { a with c := applyConfig (lockingAvailable h) text a.c } }
  | .error, a => handleError bufMax a
  | .lock timeout, a => (handleLock cb (u32 timeout.value) a).withStatus
  | .unlock, a => (handleUnlock cb a).withStatus
  | .shift bits tms tdi _ _ _, a =>
    let r := cb.shiftTmsTdi a.data bits tms tdi
    (Outcome.ofData a (.shiftTmsTdi bits tms tdi) r.1 (slice r.2 0 ((bits + 7) / 8))).withOptionalStatus
  | .settck nsperiod _, a => (handleSettck cb nsperiod a).withOptionalStatus
  | .rshift instruction flags st count tdi _, a =>
    let r := cb.registerShift a.data instruction (u32 flags.value) (u32 st.value) count.value tdi
    (Outcome.ofData a (.registerShift instruction (u32 flags.value) (u32 st.value) count.value tdi) r.1
      (slice r.2 0 (tdoBytes (u32 flags.value) count.value))).withStatus
  | .state flags st count, a =>
    (Outcome.ofCall a (.state (u32 flags.value) (u32 st.value) count.value)
      (cb.state a.data (u32 flags.value) (u32 st.value) count.value)).withStatus
  | .mrd flags addr numBytes, a =>
    let r := cb.mrd a.data (u32 flags.value) addr.value numBytes.value
    (Outcome.ofData a (.mrd (u32 flags.value) addr.value numBytes.value) r.1
      (slice r.2 0 numBytes.value)).withStatus
  | .mwr flags addr numBytes data _, a =>
    (Outcome.ofCall a (.mwr (u32 flags.value) addr.value numBytes.value data)
      (cb.mwr a.data (u32 flags.value) addr.value numBytes.value data)).withStatus

/-- The messages as a wire. -/
def wire (h : XvcServerHandlers σ) (cb : Callbacks σ) (bufMax : Nat) : Wire (Core σ) Msg where
  enc := Msg.enc
  handle := handle h cb bufMax

/-! ## The handlers -/

/-- The handler of the message does what the callback says: on any memory that holds the operand, and
with a data buffer at any index `i`. -/
def Msg.Served (h : XvcServerHandlers σ) (cb : Callbacks σ) : Msg → Prop
  | .getinfo | .capabilities | .configure _ _ _ | .error => True
  | .lock timeout => ∀ f, h.lock = some f → ∀ d i,
      Performs (f d (u32 timeout.value)) (cb.lock d (u32 timeout.value)) i []
  | .unlock => ∀ f, h.unlock = some f → ∀ d i, Performs (f d) (cb.unlock d) i []
  | .shift bits tms tdi _ _ _ => ∀ d mem a b i, slice mem a ((bits + 7) / 8) = tms →
      slice mem b ((bits + 7) / 8) = tdi →
      Performs (h.shiftTmsTdi d mem bits a b i) (cb.shiftTmsTdi d bits tms tdi).1 i
        (slice (cb.shiftTmsTdi d bits tms tdi).2 0 ((bits + 7) / 8))
  | .settck nsperiod _ => ∀ d i, Performs (h.setTck d nsperiod).1 (cb.setTck d nsperiod).1 i [] ∧
      (h.setTck d nsperiod).2 = (cb.setTck d nsperiod).2
  | .rshift instruction flags st count tdi _ => ∀ f, h.registerShift = some f → ∀ d mem p i,
      slice mem p (tdiBytes (u32 flags.value) count.value) = tdi →
      Performs (f d mem instruction (u32 flags.value) (u32 st.value) count.value
          (if tdiBytes (u32 flags.value) count.value ≠ 0 then some p else none)
          (if tdoBytes (u32 flags.value) count.value ≠ 0 then some i else none))
        (cb.registerShift d instruction (u32 flags.value) (u32 st.value) count.value tdi).1 i
        (slice (cb.registerShift d instruction (u32 flags.value) (u32 st.value) count.value tdi).2 0
          (tdoBytes (u32 flags.value) count.value))
  | .state flags st count => ∀ f, h.state = some f → ∀ d i,
      Performs (f d (u32 flags.value) (u32 st.value) count.value)
        (cb.state d (u32 flags.value) (u32 st.value) count.value) i []
  | .mrd flags addr numBytes => ∀ f, h.mrd = some f → ∀ d i,
      Performs (f d (u32 flags.value) addr.value numBytes.value i)
        (cb.mrd d (u32 flags.value) addr.value numBytes.value).1 i
        (slice (cb.mrd d (u32 flags.value) addr.value numBytes.value).2 0 numBytes.value)
  | .mwr flags addr numBytes data _ => ∀ f, h.mwr = some f → ∀ d mem p i,
      slice mem p numBytes.value = data →
      Performs (f d mem (u32 flags.value) addr.value numBytes.value p)
        (cb.mwr d (u32 flags.value) addr.value numBytes.value data) i []

/-- The handlers are functions of their own state, their arguments and exactly the declared operand
bytes, and fill the data buffers they are given. -/
structure Implements (h : XvcServerHandlers σ) (cb : Callbacks σ) : Prop where
  setTck : ∀ d n i, Performs (h.setTck d n).1 (cb.setTck d n).1 i [] ∧ (h.setTck d n).2 = (cb.setTck d n).2
  shiftTmsTdi : ∀ d mem count a b i,
    let r := cb.shiftTmsTdi d count (slice mem a ((count + 7) / 8)) (slice mem b ((count + 7) / 8))
    Performs (h.shiftTmsTdi d mem count a b i) r.1 i (slice r.2 0 ((count + 7) / 8))
  lock : ∀ f, h.lock = some f → ∀ d t i, Performs (f d t) (cb.lock d t) i []
  unlock : ∀ f, h.unlock = some f → ∀ d i, Performs (f d) (cb.unlock d) i []
  registerShift : ∀ f, h.registerShift = some f → ∀ d mem instruction flags state count p i,
    let r := cb.registerShift d instruction flags state count (slice mem p (tdiBytes flags count))
    Performs (f d mem instruction flags state count (if tdiBytes flags count ≠ 0 then some p else none)
      (if tdoBytes flags count ≠ 0 then some i else none)) r.1 i (slice r.2 0 (tdoBytes flags count))
  state : ∀ f, h.state = some f → ∀ d flags state count i,
    Performs (f d flags state count) (cb.state d flags state count) i []
  mrd : ∀ f, h.mrd = some f → ∀ d flags addr numBytes i,
    Performs (f d flags addr numBytes i) (cb.mrd d flags addr numBytes).1 i
      (slice (cb.mrd d flags addr numBytes).2 0 numBytes)
  mwr : ∀ f, h.mwr = some f → ∀ d mem flags addr numBytes p i,
    Performs (f d mem flags addr numBytes p) (cb.mwr d flags addr numBytes (slice mem p numBytes)) i []

variable {h : XvcServerHandlers σ} {cb : Callbacks σ} {s : Server σ} {p : Nat} {rest : List UInt8}

theorem Implements.served (hi : Implements h cb) (m : Msg) : m.Served h cb := by
  cases m with
  | getinfo => trivial
  | capabilities => trivial
  | configure len text ht => trivial
  | error => trivial
  | lock timeout => exact fun f hf d i => hi.lock f hf d _ i
  | unlock => exact hi.unlock
  | shift bits tms tdi hbits htms htdi =>
    rintro d mem a b i rfl rfl
    exact hi.shiftTmsTdi d mem bits a b i
  | settck nsperiod hp => exact fun d i => hi.setTck d nsperiod i
  | rshift instruction flags st count tdi ht =>
    rintro f hf d mem p i rfl
    exact hi.registerShift f hf d mem instruction _ _ _ p i
  | state flags st count => exact fun f hf d i => hi.state f hf d _ _ _ i
  | mrd flags addr numBytes => exact fun f hf d i => hi.mrd f hf d _ _ _ i
  | mwr flags addr numBytes data hd =>
    rintro f hf d mem p i rfl
    exact hi.mwr f hf d mem _ _ _ p i

/-! ## The branches -/

theorem view_setLocked {t : Server σ} {o : Outcome (Core σ)} (v : Int) (ht : t.view = s.view.apply o) :
    (setLocked t v).view = s.view.apply (if o.core.c.failed then o
      else { o with core := { o.core with c := { o.core.c with locked := v } } }) := by
  have hc : t.c = o.core.c := Server.core_of_view ht
  unfold setLocked Server.unlessFailed
  rw [hc]
  split
  · exact ht
  · exact congrArg (View.map fun a : Core σ => { a with c := { a.c with locked := v } }) ht

/-- `lock:` and `unlock:` only get to their handler with the option on, and so with both there. -/
theorem isSome_of_enableLocking (hl : lockingAvailable h = false → s.c.enableLocking = 0)
    (he : s.c.enableLocking ≠ 0) : h.lock.isSome ∧ h.unlock.isSome := by
  cases hav : lockingAvailable h with
  | false => exact absurd (hl hav) he
  | true => simpa [lockingAvailable] using hav

theorem view_execLock {timeout : Nat} (hs : s.c.failed = false → ∀ f, h.lock = some f →
      Performs (f s.clientData timeout) (cb.lock s.clientData timeout) s.replyLen [])
    (hl : s.c.failed = false → lockingAvailable h = false → s.c.enableLocking = 0)
    (hfit : s.replyLen + (handleLock cb timeout s.view.core).withStatus.reply.length ≤ maxPacketLen) :
    (execLock h s timeout).view = s.view.apply (handleLock cb timeout s.view.core).withStatus := by
  refine Server.view_withStatus ?_ hfit
  unfold Server.unlessFailed handleLock
  have hc : s.view.core.c = s.c := rfl
  rw [hc]
  cases hf : s.c.failed with
  | true => simp [View.apply]
  | false =>
    simp only [Bool.false_eq_true, if_false]
    split
    · simp [Server.view, View.apply]
    split
    · simp [Server.view, View.apply]
    next he _ =>
    obtain ⟨f, hlock⟩ := Option.isSome_iff_exists.mp (isSome_of_enableLocking (hl hf) he).1
    rw [hlock]
    refine view_setLocked 1 ?_
    rw [Outcome.ofCall, hc, hf]
    exact Server.view_callback (hs hf f hlock)

theorem view_execUnlock (hs : s.c.failed = false → ∀ f, h.unlock = some f →
      Performs (f s.clientData) (cb.unlock s.clientData) s.replyLen [])
    (hl : s.c.failed = false → lockingAvailable h = false → s.c.enableLocking = 0)
    (hfit : s.replyLen + (handleUnlock cb s.view.core).withStatus.reply.length ≤ maxPacketLen) :
    (execUnlock h s).view = s.view.apply (handleUnlock cb s.view.core).withStatus := by
  refine Server.view_withStatus ?_ hfit
  unfold Server.unlessFailed handleUnlock
  have hc : s.view.core.c = s.c := rfl
  rw [hc]
  cases hf : s.c.failed with
  | true => simp [View.apply]
  | false =>
    simp only [Bool.false_eq_true, if_false]
    split
    · simp [Server.view, View.apply]
    split
    · simp [Server.view, View.apply]
    next he _ =>
    obtain ⟨f, hunlock⟩ := Option.isSome_iff_exists.mp (isSome_of_enableLocking (hl hf) he).2
    rw [hunlock]
    refine view_setLocked 0 ?_
    rw [Outcome.ofCall, hc, hf]
    exact Server.view_callback (hs hf f hunlock)

/-- `state:` and `mwr:`: a call and its status. -/
theorem view_callStatus {c : Call} {r : CallResult σ} {e : Result σ}
    (hs : s.c.failed = false → Performs r e s.replyLen [])
    (hfit : s.replyLen + (Outcome.ofCall s.view.core c e).withStatus.reply.length ≤ maxPacketLen) :
    (s.unlessFailed fun s => s.callback c r).replyStatus.view =
      s.view.apply (Outcome.ofCall s.view.core c e).withStatus :=
  Server.view_withStatus (Server.view_ofCall hs) hfit

/-- `irshift:`, `drshift:` and `mrd:`: a call, its data and its status. -/
theorem view_dataStatus {c : Call} {r : CallResult σ} {e : Result σ} {l : List UInt8} {n : Nat}
    (hn : l.length = n) (hs : s.c.failed = false → Performs r e s.replyLen l)
    (hfit : s.replyLen + (Outcome.ofData s.view.core c e l).withStatus.reply.length ≤ maxPacketLen) :
    (((s.unlessFailed fun s => s.callback c r).replyData n).replyStatus).view =
      s.view.apply (Outcome.ofData s.view.core c e l).withStatus := by
  have hmax := Server.maxPacketLen_lt
  subst hn
  refine Server.view_withStatus (Server.view_ofData hs ?_) hfit
  rw [Outcome.length_withStatus, Outcome.length_ofData] at hfit
  omega

theorem view_execShift {bits : Nat} {tms tdi : List UInt8} {e : Result σ} {l : List UInt8}
    (hbits : bits + 7 < 2 ^ 32) (htms : tms.length = (bits + 7) / 8) (htdi : tdi.length = (bits + 7) / 8)
    (hl : l.length = (bits + 7) / 8) (hh : Holds s p (tms ++ tdi ++ rest))
    (hs : s.c.failed = false → ∀ b, slice s.mem p ((bits + 7) / 8) = tms →
      slice s.mem b ((bits + 7) / 8) = tdi →
      Performs (h.shiftTmsTdi s.clientData s.mem bits p b s.replyLen) e s.replyLen l)
    (hfit : s.replyLen + (Outcome.ofData s.view.core (.shiftTmsTdi bits tms tdi) e l).withOptionalStatus.reply.length
      ≤ maxPacketLen) :
    (execShift h s bits p).view =
      s.view.apply (Outcome.ofData s.view.core (.shiftTmsTdi bits tms tdi) e l).withOptionalStatus := by
  have hmax := Server.maxPacketLen_lt
  have he := hh.le_cend
  have hce := s.cend_le hh.fits
  rw [List.length_append] at he
  have hb : shiftBytes bits = (bits + 7) / 8 := by unfold shiftBytes; rw [u32_of_lt hbits]
  have hat : u64 (p + (bits + 7) / 8) = p + (bits + 7) / 8 := u64_of_lt (by omega)
  have h1 : slice s.mem p ((bits + 7) / 8) = tms := by
    rw [← htms]
    exact Holds.take (r := tdi ++ rest) (by simpa using hh)
  have h2 : slice s.mem (p + (bits + 7) / 8) ((bits + 7) / 8) = tdi := by
    have hd := Holds.drop (l := tms) (r := tdi ++ rest) (by simpa using hh)
    have := hd.take
    rwa [htms, htdi] at this
  have hlen := Outcome.length_withOptionalStatus (o := Outcome.ofData s.view.core (.shiftTmsTdi bits tms tdi) e l)
  rw [Outcome.length_ofData] at hlen
  refine Server.view_withOptionalStatus ?_ hfit
  have hv := Server.view_ofData (c := .shiftTmsTdi bits tms tdi) (fun hf => hs hf _ h1 h2) (by omega)
  rw [hl] at hv
  unfold Server.unlessFailed at hv ⊢
  simp only [hb, hat, h1, h2]
  exact hv

theorem view_execSettck {nsperiod : Nat}
    (hs : s.c.failed = false → Performs (h.setTck s.clientData nsperiod).1 (cb.setTck s.clientData nsperiod).1
      s.replyLen [] ∧ (h.setTck s.clientData nsperiod).2 = (cb.setTck s.clientData nsperiod).2)
    (hfit : s.replyLen + (handleSettck cb nsperiod s.view.core).withOptionalStatus.reply.length ≤ maxPacketLen) :
    (execSettck h s nsperiod).view =
      s.view.apply (handleSettck cb nsperiod s.view.core).withOptionalStatus := by
  have hmax := Server.maxPacketLen_lt
  have hcall := Server.view_ofCall (c := .setTck nsperiod) fun hf => (hs hf).1
  refine Server.view_withOptionalStatus ?_ hfit
  rw [Outcome.length_withOptionalStatus] at hfit
  have hcore := Server.core_of_view hcall
  change _ = (Outcome.ofCall s.view.core (.setTck nsperiod) (cb.setTck s.clientData nsperiod).1).core.c at hcore
  have hlen := Server.replyLen_of_view hcall
  rw [Outcome.ofCall_reply, List.length_nil, Nat.add_zero] at hlen
  -- The period is the handler's when it was called and did not fail.
  have hperiod : (if (s.unlessFailed fun t => t.callback (.setTck nsperiod) (h.setTck s.clientData nsperiod).1).c.failed
      then nsperiod else (h.setTck s.clientData nsperiod).2) =
      if (Outcome.ofCall s.view.core (.setTck nsperiod) (cb.setTck s.clientData nsperiod).1).core.c.failed
      then nsperiod else (cb.setTck s.clientData nsperiod).2 := by
    rw [hcore]
    cases hf : s.c.failed with
    | true =>
      have : (Outcome.ofCall s.view.core (.setTck nsperiod) (cb.setTck s.clientData nsperiod).1).core.c.failed =
          true := by simp [Outcome.ofCall, show s.view.core.c.failed = true from hf]
      rw [if_pos this, if_pos this]
    | false => rw [(hs hf).2]
  have h4 : ∀ n, (setUintLe 4 n).length = 4 := fun n => by simp [setUintLe]
  unfold handleSettck at hfit ⊢
  simp only [h4] at hfit
  rw [hperiod, Server.view_replyBytes (by rw [h4, hlen]; omega), hcall, View.apply_reply]
  simp only [Outcome.ofCall_reply, List.nil_append]
  rfl

theorem view_execRshift (hav : h.registerShift.isSome) {instruction : Bool} {flags state count : Nat}
    {tdi l : List UInt8} {e : Result σ} (htdi : slice s.mem p (tdiBytes flags count) = tdi)
    (hl : l.length = tdoBytes flags count)
    (hs : s.c.failed = false → ∀ f, h.registerShift = some f →
      Performs (f s.clientData s.mem instruction flags state count
        (if tdiBytes flags count ≠ 0 then some p else none)
        (if tdoBytes flags count ≠ 0 then some s.replyLen else none)) e s.replyLen l)
    (hfit : s.replyLen + (Outcome.ofData s.view.core
      (.registerShift instruction flags state count tdi) e l).withStatus.reply.length ≤ maxPacketLen) :
    (execRshift h s instruction flags state count p).view = s.view.apply
      (Outcome.ofData s.view.core (.registerShift instruction flags state count tdi) e l).withStatus := by
  obtain ⟨f, hf⟩ := Option.isSome_iff_exists.mp hav
  have hv := view_dataStatus hl (fun hn => hs hn f hf) hfit
  unfold execRshift
  rw [hf]
  unfold Server.unlessFailed at hv ⊢
  simp only [htdi]
  exact hv

theorem view_execState (hav : h.state.isSome) {flags state count : Nat} {e : Result σ}
    (hs : s.c.failed = false → ∀ f, h.state = some f →
      Performs (f s.clientData flags state count) e s.replyLen [])
    (hfit : s.replyLen + (Outcome.ofCall s.view.core (.state flags state count) e).withStatus.reply.length
      ≤ maxPacketLen) :
    (execState h s flags state count).view =
      s.view.apply (Outcome.ofCall s.view.core (.state flags state count) e).withStatus := by
  obtain ⟨f, hf⟩ := Option.isSome_iff_exists.mp hav
  unfold execState
  rw [hf]
  exact view_callStatus (fun hn => hs hn f hf) hfit

theorem view_execMrd (hav : h.mrd.isSome) {flags addr numBytes : Nat} {l : List UInt8} {e : Result σ}
    (hl : l.length = numBytes)
    (hs : s.c.failed = false → ∀ f, h.mrd = some f →
      Performs (f s.clientData flags addr numBytes s.replyLen) e s.replyLen l)
    (hfit : s.replyLen + (Outcome.ofData s.view.core (.mrd flags addr numBytes) e l).withStatus.reply.length
      ≤ maxPacketLen) :
    (execMrd h s flags addr numBytes).view =
      s.view.apply (Outcome.ofData s.view.core (.mrd flags addr numBytes) e l).withStatus := by
  obtain ⟨f, hf⟩ := Option.isSome_iff_exists.mp hav
  unfold execMrd
  rw [hf]
  exact view_dataStatus hl (fun hn => hs hn f hf) hfit

theorem view_execMwr (hav : h.mwr.isSome) {flags addr numBytes : Nat} {data : List UInt8} {e : Result σ}
    (hd : slice s.mem p numBytes = data)
    (hs : s.c.failed = false → ∀ f, h.mwr = some f →
      Performs (f s.clientData s.mem flags addr numBytes p) e s.replyLen [])
    (hfit : s.replyLen + (Outcome.ofCall s.view.core (.mwr flags addr numBytes data) e).withStatus.reply.length
      ≤ maxPacketLen) :
    (execMwr h s flags addr numBytes p).view =
      s.view.apply (Outcome.ofCall s.view.core (.mwr flags addr numBytes data) e).withStatus := by
  obtain ⟨f, hf⟩ := Option.isSome_iff_exists.mp hav
  have hv := view_callStatus (fun hn => hs hn f hf) hfit
  unfold execMwr
  rw [hf]
  unfold Server.unlessFailed at hv ⊢
  simp only [hd]
  exact hv

/-- **Execution.** What the branch of a message does is what `handle` says. -/
theorem exec_view {m : Msg} (hw : m.WellFormed h s.rx) (hh : Holds s p (m.payload ++ rest))
    (hs : s.c.failed = false → m.Served h cb)
    (hl : s.c.failed = false → lockingAvailable h = false → s.c.enableLocking = 0)
    (hfit : s.replyLen + (handle h cb s.rx.bufMax m s.view.core).reply.length ≤ maxPacketLen) :
    (exec h s (m.request p)).view = s.view.apply (handle h cb s.rx.bufMax m s.view.core) := by
  have hshort : m.payload.length < 2 ^ 32 := by
    have h1 := hw.fits
    have h2 := s.rx.unsigned
    simp only [Msg.enc, Msg.body, List.length_append] at h1
    omega
  have hav := hw.available
  cases m with
  | getinfo => exact view_execGetinfo hfit
  | capabilities => exact view_execCapabilities hfit
  | configure len text ht => exact view_execConfigure hh ht hshort hfit
  | error => exact view_execError hfit
  | lock timeout => exact view_execLock (fun hf f hlock => hs hf f hlock _ _) hl hfit
  | unlock => exact view_execUnlock (fun hf f hunlock => hs hf f hunlock _ _) hl hfit
  | shift bits tms tdi hbits htms htdi =>
    have hd := Holds.drop (l := leBytes 4 bits) (r := tms ++ tdi ++ rest) (by simpa [Msg.payload] using hh)
    rw [length_leBytes] at hd
    exact view_execShift hbits htms htdi (by simp) hd (fun hf b h1 h2 => hs hf _ _ _ _ _ h1 h2) hfit
  | settck nsperiod hp => exact view_execSettck (fun hf => hs hf _ _) hfit
  | rshift instruction flags st count tdi ht =>
    have htdi : slice s.mem p (tdiBytes (u32 flags.value) count.value) = tdi := by
      rw [tdiBytes_of ht hshort]
      exact hh.take
    exact view_execRshift hav htdi (by simp) (fun hf f hrs => hs hf f hrs _ _ _ _ htdi) hfit
  | state flags st count => exact view_execState hav (fun hf f hst => hs hf f hst _ _) hfit
  | mrd flags addr numBytes => exact view_execMrd hav (by simp) (fun hf f hmrd => hs hf f hmrd _ _) hfit
  | mwr flags addr numBytes data hd =>
    have hdata : slice s.mem p numBytes.value = data := by
      rw [← hd]
      exact hh.take
    exact view_execMwr hav hdata (fun hf f hmwr => hs hf f hmwr _ _ _ _ hdata) hfit

end Versal
end Xvc
