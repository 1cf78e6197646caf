import Xvc.Dpc.Message
import Xvc.Server.Reply

/-!
# What the messages of `dpc` do

The counterpart of `Xvc/Versal/Handle.lean`: `Callbacks` are the packet handlers as functions of their
state and arguments, and `handle` is what a message does without buffers. `exec_view` says that the
server's branch for a message does what `handle` says, and `iter_msg` the same of an iteration of the
loop.
-/

namespace Xvc
namespace Dpc

open ByteMem Stream

variable {σ : Type}

/-- The handlers as functions of their state and arguments. `edpc` also gives the words of its packet
and the bytes of its buffer. -/
structure Callbacks (σ : Type) where
  edpc : σ → (flags : Nat) → Result σ × Nat × ByteMem
  idpc : σ → (flags numWords : Nat) → (data : List UInt8) → Result σ

/-- `edpc:` without its status: the packet behind its number of words. With an error pending there are
no words, and with an error of its own there are zeros. -/
def handleEdpc (cb : Callbacks σ) (flags : Nat) (a : Core σ) : Outcome (Core σ) :=
  if a.c.failed then { core := a, reply := Leb128.encode 10 0 }
  else
    let r := cb.edpc a.data flags
    let o := Outcome.ofData a (.edpc flags) r.1 (slice r.2.2 0 (r.2.1 * 4))
    { o with reply := Leb128.encode 10 r.2.1 ++ o.reply }

/-- What a message does. -/
def handle (h : XvcServerHandlers σ) (cb : Callbacks σ) (bufMax : Nat) : Msg → Core σ → Outcome (Core σ)
  | .getinfo, a => { core := a, reply := getinfoText bufMax }
  | .capabilities, a =>
    { core := a, reply := Leb128.encode 10 (capabilitiesText h).length ++ capabilitiesText h }
  | .configure _ text _, a =>
    Outcome.withStatus { core := { a with c := applyConfig (lockingAvailable h) text a.c } }
  | .error, a => handleError bufMax a
  | .edpc flags, a => (handleEdpc cb (u32 flags.value) a).withStatus
  | .idpc flags numWords data _, a =>
    (Outcome.ofCall a (.idpc (u32 flags.value) numWords.value data)
      (cb.idpc a.data (u32 flags.value) numWords.value data)).withStatus

/-- The messages as a wire. -/
def wire (h : XvcServerHandlers σ) (cb : Callbacks σ) (bufMax : Nat) : Wire (Core σ) Msg where
  enc := Msg.enc
  handle := handle h cb bufMax

/-! ## The handlers -/

/-- `edpc` set its results to the packet of `e`: `words` words of `data`. -/
structure Delivers (r : EdpcResult σ) (e : Result σ) (words : Nat) (data : ByteMem) : Prop where
  call : ∀ i, Performs r.call e i []
  noStores : r.call.stores = []
  numWords : r.numWords = words
  unsigned : words < 2 ^ 32
  /-- `*num_words` without a buffer is 0. -/
  buf : (r.buf = none ∧ words = 0) ∨ ∃ b, r.buf = some b ∧ slice b 0 (words * 4) = slice data 0 (words * 4)

/-- The handlers are functions of their own state, their arguments and exactly the declared words. -/
structure Implements (h : XvcServerHandlers σ) (cb : Callbacks σ) : Prop where
  edpc : ∀ f, h.edpc = some f → ∀ d flags,
    Delivers (f d flags) (cb.edpc d flags).1 (cb.edpc d flags).2.1 (cb.edpc d flags).2.2
  idpc : ∀ f, h.idpc = some f → ∀ d mem flags numWords p i,
    Performs (f d mem flags numWords p) (cb.idpc d flags numWords (slice mem p (numWords * 4))) i []

/-- The handler of the message does what the callback says. -/
def Msg.Served (h : XvcServerHandlers σ) (cb : Callbacks σ) : Msg → Prop
  | .edpc flags => ∀ f, h.edpc = some f → ∀ d, Delivers (f d (u32 flags.value)) (cb.edpc d (u32 flags.value)).1
      (cb.edpc d (u32 flags.value)).2.1 (cb.edpc d (u32 flags.value)).2.2
  | .idpc flags numWords data _ => ∀ f, h.idpc = some f → ∀ d mem p i, slice mem p (numWords.value * 4) = data →
      Performs (f d mem (u32 flags.value) numWords.value p) (cb.idpc d (u32 flags.value) numWords.value data) i []
  | _ => True

variable {h : XvcServerHandlers σ} {cb : Callbacks σ} {s : Server σ} {cbuf p : Nat} {rest : List UInt8}

theorem Implements.served (hi : Implements h cb) (m : Msg) : m.Served h cb := by
  cases m with
  | edpc flags => exact fun f hf d => hi.edpc f hf d _
  | idpc flags numWords data hd =>
    rintro f hf d mem p i rfl
    exact hi.idpc f hf d mem _ _ p i
  | _ => trivial

/-! ## The branches -/

theorem callEdpc_of_failed (hf : s.c.failed = true) (flags : Nat) :
    callEdpc h s flags = { call := { clientData := s.clientData } } := by
  unfold callEdpc
  cases h.edpc with
  | none => rfl
  | some f => exact if_pos hf

theorem callEdpc_of_ok {f : σ → Nat → EdpcResult σ} (he : h.edpc = some f) (hf : s.c.failed = false) (flags : Nat) :
    callEdpc h s flags = f s.clientData flags := by
  unfold callEdpc
  rw [he]
  exact if_neg (by simp [hf])

/-- The words behind their number: `read_packet` copies the buffer, or clears the bytes when an error is
pending. -/
theorem view_replyPacket {t : Server σ} {buf : Option ByteMem} {words : Nat} {l : List UInt8}
    (hlen : l.length = words * 4)
    (hwords : words < 2 ^ 32)
    (hbuf : (buf = none ∧ words = 0) ∨ ∃ b, buf = some b ∧ slice b 0 (words * 4) = l)
    (hfit : t.replyLen + (words * 4) < 2 ^ 32) :
    ((match buf with
      | some b => t.store t.replyLen (slice b 0 (u64 (words * 4)))
      | none => t).replyData (u64 (words * 4))).view =
      t.view.reply (if t.c.failed then List.replicate (words * 4) 0 else l) := by
  have hn : u64 (words * 4) = words * 4 := u64_of_lt (by omega)
  rw [hn]
  -- Whether or not the bytes were copied, zeros replace them.
  have hzeros : ∀ u : Server σ, u.replyLen = t.replyLen → u.c = t.c → u.view = t.view → t.c.failed = true →
      (u.replyData (words * 4)).view = t.view.reply (List.replicate (words * 4) 0) := by
    intro u hul huc huv hf
    have hz : u.clear u.replyLen (words * 4) = u.store u.replyLen (List.replicate (words * 4) 0) := by
      unfold Server.clear Server.store
      rw [memset_eq_write, List.length_replicate]
    have hv := Server.view_replyBytes (s := u) (l := List.replicate (words * 4) 0)
      (by rw [List.length_replicate, hul]; exact hfit)
    simp only [Server.replyBytes, List.length_replicate] at hv
    rw [Server.replyData, huc, if_pos hf, hz, hv, huv]
  rcases hbuf with ⟨rfl, rfl⟩ | ⟨b, rfl, hb⟩
  · obtain rfl := List.length_eq_zero_iff.mp hlen
    cases hf : t.c.failed with
    | true => exact hzeros t rfl rfl rfl hf
    | false =>
      have hv := Server.view_replyBytes (s := t) (l := []) (by simpa using hfit)
      have he : (t.replyData (0 * 4)).view = (t.extend 0).view := by
        rw [Server.replyData, if_neg (by simp [hf])]
      have h0 : (t.extend 0).view = t.view.reply [] := by
        rw [View.reply_nil]
        have : u32 t.replyLen = t.replyLen := u32_of_lt (by omega)
        simp only [Server.extend, Nat.add_zero, this]
      simp only [Bool.false_eq_true, if_false]
      exact he.trans h0
  · simp only [hb]
    cases hf : t.c.failed with
    | true =>
      have hkeep : slice (write t.replyBuf t.replyLen l) 0 t.replyLen = slice t.replyBuf 0 t.replyLen :=
        slice_write_of_disjoint _ (.inl (by omega))
      have hview : (t.store t.replyLen l).view = t.view := by
        simp only [Server.view, Server.store, hkeep, callsOf_append, sentOf_append]
        simp [callsOf, sentOf]
      exact hzeros (t.store t.replyLen l) rfl rfl hview hf
    | false =>
      have hv := Server.view_replyBytes (s := t) (l := l) (by rw [hlen]; exact hfit)
      rw [Server.replyData, if_neg (by simp [show (t.store t.replyLen l).c = t.c from rfl, hf]), ← hlen]
      exact hv

/-- The packet behind its number of words. -/
theorem view_replyUlebPacket {t : Server σ} {buf : Option ByteMem} {words : Nat} {l : List UInt8}
    (hlen : l.length = words * 4) (hwords : words < 2 ^ 32)
    (hbuf : (buf = none ∧ words = 0) ∨ ∃ b, buf = some b ∧ slice b 0 (words * 4) = l)
    (hfit : t.replyLen + ((Leb128.encode 10 words).length + words * 4) ≤ maxPacketLen) :
    let u := t.replyUleb128 (u32 words)
    ((match buf with
      | some b => u.store u.replyLen (slice b 0 (u64 (words * 4)))
      | none => u).replyData (u64 (words * 4))).view =
      t.view.reply (Leb128.encode 10 words ++ if t.c.failed then List.replicate (words * 4) 0 else l) := by
  have hmax := Server.maxPacketLen_lt
  intro u
  have hu : u.view = t.view.reply (Leb128.encode 10 words) := by
    simp only [u, u32_of_lt hwords]
    exact Server.view_replyUleb128 (by omega)
  have hul : u.replyLen = t.replyLen + (Leb128.encode 10 words).length := by
    rw [← Server.length_pending u, hu]; simp [View.reply]
  have huc : u.c = t.c := Server.core_of_view hu
  rw [view_replyPacket hlen hwords hbuf (by omega), hu, huc, View.reply_reply]

theorem view_execEdpc (hav : h.edpc.isSome) {flags : Nat}
    (hs : s.c.failed = false → ∀ f, h.edpc = some f → Delivers (f s.clientData flags) (cb.edpc s.clientData flags).1
      (cb.edpc s.clientData flags).2.1 (cb.edpc s.clientData flags).2.2)
    (hfit : s.replyLen + (handleEdpc cb flags s.view.core).withStatus.reply.length ≤ maxPacketLen) :
    (execEdpc h s flags).view = s.view.apply (handleEdpc cb flags s.view.core).withStatus := by
  obtain ⟨f, he⟩ := Option.isSome_iff_exists.mp hav
  refine Server.view_withStatus ?_ hfit
  rw [Outcome.length_withStatus] at hfit
  have hc : s.view.core.c = s.c := rfl
  unfold Server.unlessFailed
  cases hf : s.c.failed with
  | true =>
    -- No call: no words, no buffer, and nothing to clear.
    simp only [handleEdpc, hc, hf, if_true] at hfit ⊢
    have hp := view_replyUlebPacket (t := s) (l := []) (show [].length = 0 * 4 from rfl) (by decide)
      (.inl ⟨(rfl : (none : Option ByteMem) = none), rfl⟩) (by omega)
    simp only [Nat.zero_mul, List.replicate_zero, ite_self, List.append_nil, View.reply_eq_apply] at hp
    rw [callEdpc_of_failed hf]
    exact hp
  | false =>
    have hd := hs hf f he
    have hcall := Server.view_callback (c := .edpc flags) (hd.call s.replyLen)
    have hok : s.view.core.c.failed = false := hf
    have hdata : s.view.core.data = s.clientData := rfl
    simp only [handleEdpc, hok, hdata, Bool.false_eq_true, if_false, Outcome.ofData_of_ok hok] at hfit ⊢
    rw [callEdpc_of_ok he hf, he]
    generalize cb.edpc s.clientData flags = r at hd hcall hfit ⊢
    generalize f s.clientData flags = d at hd hcall ⊢
    obtain ⟨e, words, data⟩ := r
    have hcore := Server.core_of_view hcall
    have hlen := Server.replyLen_of_view hcall
    simp only [List.length_nil, Nat.add_zero] at hlen
    have hfails : (s.callback (.edpc flags) d.call).c.failed = e.fails := by
      rw [hcore]; exact Core.failed_after e hok
    have hl : (slice data 0 (words * 4)).length = words * 4 := length_slice _ _ _
    have hp := view_replyUlebPacket (t := s.callback (.edpc flags) d.call) hl hd.unsigned hd.buf (by
      rw [hlen]
      simp only [length_slice, List.length_append] at hfit
      split at hfit <;> simp only [List.length_replicate, length_slice] at hfit <;> omega)
    rw [hcall, View.apply_reply, hfails] at hp
    rw [hd.numWords, hl]
    exact hp

theorem view_execIdpc (hav : h.idpc.isSome) {flags numWords : Nat} {data : List UInt8} {e : Result σ}
    (hd : slice s.mem p (numWords * 4) = data)
    (hs : s.c.failed = false → ∀ f, h.idpc = some f →
      Performs (f s.clientData s.mem flags numWords p) e s.replyLen [])
    (hfit : s.replyLen + (Outcome.ofCall s.view.core (.idpc flags numWords data) e).withStatus.reply.length
      ≤ maxPacketLen) :
    (execIdpc h s flags numWords p).view =
      s.view.apply (Outcome.ofCall s.view.core (.idpc flags numWords data) e).withStatus := by
  obtain ⟨f, hf⟩ := Option.isSome_iff_exists.mp hav
  have hv := Server.view_withStatus (Server.view_ofCall fun hn => hs hn f hf) hfit
  unfold execIdpc
  rw [hf]
  unfold Server.unlessFailed at hv ⊢
  simp only [hd]
  exact hv

/-- **Execution.** What the branch of a message does is what `handle` says. -/
theorem exec_view {m : Msg} (hw : m.WellFormed h s.rx) (hh : Holds s p (m.payload ++ rest))
    (hs : s.c.failed = false → m.Served h cb)
    (hfit : s.replyLen + (handle h cb s.rx.bufMax m s.view.core).reply.length ≤ maxPacketLen) :
    (exec h s (m.request p)).view = s.view.apply (handle h cb s.rx.bufMax m s.view.core) := by
  have hav := hw.available
  cases m with
  | getinfo => exact view_execGetinfo hfit
  | capabilities => exact view_execCapabilities hfit
  | configure len text ht => exact view_execConfigure hh ht (hw.length_payload_lt) hfit
  | error => exact view_execError hfit
  | edpc flags => exact view_execEdpc hav (fun hf f he => hs hf f he _) hfit
  | idpc flags numWords data hd =>
    have hdata : slice s.mem p (numWords.value * 4) = data := by
      rw [← hd]
      exact hh.take
    exact view_execIdpc hav hdata (fun hf f hi => hs hf f hi _ _ _ _ hdata) hfit

/-! ## What follows a message -/

theorem holds_exec_complete {m : Msg} (hlen : m.payload.length < 2 ^ 32) (hh : Holds s p (m.payload ++ rest)) :
    Holds (exec h s (m.request p)) (p + m.payload.length) rest := by
  have hd := hh.drop
  cases m with
  | configure len text ht =>
    have hx : Holds (execConfigure (lockingAvailable h) s text.length p) (p + text.length) rest :=
      hh.of_execConfigure hlen
    show Holds (execConfigure (lockingAvailable h) s len.value p) (p + text.length) rest
    rw [← ht]
    exact hx
  | getinfo => exact hd.of_received (received_execGetinfo s)
  | capabilities => exact hd.of_received (received_execCapabilities _ s)
  | error => exact hd.of_received (received_execError s)
  | edpc flags => exact hd.of_received (received_execEdpc h s _)
  | idpc flags numWords data _ => exact hd.of_received (received_execIdpc h s _ _ _)

theorem holds_exec {m : Msg} (hw : m.WellFormed h s.rx) (hh : Holds s p (m.payload ++ rest)) :
    Holds (exec h s (m.request p)) (p + m.payload.length) rest := holds_exec_complete hw.length_payload_lt hh

/-- The bytes behind the numbers of a message. -/
theorem holds_payload {m : Msg} (hh : Holds s cbuf (m.enc ++ rest)) :
    Holds s (cbuf + (m.name.length + 1) + (Uleb.enc m.numbers).length) (m.payload ++ rest) := by
  have hd : Holds s cbuf ((m.name ++ [58] ++ Uleb.enc m.numbers) ++ (m.payload ++ rest)) := by
    simpa [Msg.enc, Msg.body, List.append_assoc] using hh
  have := hd.drop
  simpa only [List.length_append, List.length_singleton, ← Nat.add_assoc] using this

theorem length_enc (m : Msg) (cbuf : Nat) :
    cbuf + (m.name.length + 1) + (Uleb.enc m.numbers).length + m.payload.length = cbuf + m.enc.length := by
  simp only [Msg.enc, Msg.body, List.length_append, List.length_singleton]
  omega

/-- **One iteration.** At a whole message it does what `handle` says. -/
theorem iter_msg {m : Msg} (hw : m.WellFormed h s.rx) (hs : s.c.failed = false → m.Served h cb)
    (hh : Holds s cbuf (m.enc ++ rest))
    (hfit : s.replyLen + (handle h cb s.rx.bufMax m s.view.core).reply.length ≤ maxPacketLen) :
    ∃ t, (protocol h).iter s cbuf = .reply t (cbuf + m.enc.length) ∧ t.rx = s.rx ∧
      Holds t (cbuf + m.enc.length) rest ∧ t.view = s.view.apply (handle h cb s.rx.bufMax m s.view.core) := by
  have hpay := holds_payload hh
  refine ⟨_, iter_whole hw hh, (keepsBuffer h s _).1, ?_, exec_view hw hpay hs hfit⟩
  rw [← length_enc]
  exact holds_exec hw hpay

/-- The server does what `wire` says. -/
theorem realizes (cb : Callbacks σ) (rx : RxBuffer) (hq : (protocol h).QuietFlush id) :
    Realizes (protocol h) id (wire h cb rx.bufMax) rx (fun m => m.WellFormed h rx ∧ m.Served h cb)
      fun _ => True where
  enc_ne m _ := m.enc_ne_nil
  fits m hm := (Nat.le_add_right _ _).trans hm.1.fits
  keeps m a _ _ := trivial
  idle s cbuf _ hh := Dispatch.iter_idle hh
  cut s cbuf m q hrx hm hq hh := iter_cut (by rw [hrx]; exact hm.1) hh hq
  whole s cbuf m rest hrx hm _ hh hfit := by
    subst hrx
    exact .inr (iter_msg hm.1 (fun _ => hm.2) hh hfit)
  flush := hq

end Dpc
end Xvc
