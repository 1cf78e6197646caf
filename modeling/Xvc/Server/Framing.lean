import Xvc.Server.Decode
import Xvc.Server.View

/-!
# Fragmentation

`read_packet` is driven by what `recv` returns: bytes in chunks that have nothing to do with the
messages. This module shows, for any server whose branches are the messages of a `Wire`, that what
the client and the handlers see depends on the sequence of messages only.

* `Wire`: messages with their bytes and what each does; `Wire.run` does several.
* `Serves`: one iteration of the server's loop does what the wire says, and executes nothing of a
  message that is cut short. `Realizes`: and `flush` has no effect.
* `Protocol.Flushes`: what `flush` does, whatever it is.
* `Waits`, `Parses`: what a connection holds while it waits in `recv`, and at the head of the loop.
* `Parses.settles`: a batch of complete messages and a rest, from the head of the loop to `recv`.
  `Waits.feed` is the same for any number of chunks, and `Waits.exists_feed` says that no chunk
  that fits is refused.
-/

namespace Xvc

open ByteMem Stream Machine

variable {σ A B M : Type}

/-- Messages: their bytes, and what each does. -/
structure Wire (A M : Type) where
  enc : M → List UInt8
  handle : M → A → Outcome A

/-- The messages `ms` one after the other. -/
def Wire.run (W : Wire A M) : List M → A → Outcome A
  | [], a => { core := a }
  | m :: ms, a =>
    let o := W.handle m a
    let r := W.run ms o.core
    { core := r.core, reply := o.reply ++ r.reply, calls := o.calls ++ r.calls }

theorem Wire.run_append (W : Wire A M) (ms ms' : List M) (a : A) :
    W.run (ms ++ ms') a =
      { core := (W.run ms' (W.run ms a).core).core
        reply := (W.run ms a).reply ++ (W.run ms' (W.run ms a).core).reply
        calls := (W.run ms a).calls ++ (W.run ms' (W.run ms a).core).calls } := by
  induction ms generalizing a with
  | nil => simp [run]
  | cons m ms ih => simp [run, ih]

/-- On states related by `R`, `W'` does what `W` does and answers the same. -/
def Wire.Simulates (W : Wire A M) (W' : Wire B M) (R : A → B → Prop) (ok : M → Prop) : Prop :=
  ∀ m a b, ok m → R a b →
    R (W.handle m a).core (W'.handle m b).core ∧ (W.handle m a).reply = (W'.handle m b).reply

theorem Wire.Simulates.run {W : Wire A M} {W' : Wire B M} {R : A → B → Prop} {ok : M → Prop}
    (h : W.Simulates W' R ok) {ms : List M} (hms : ∀ m ∈ ms, ok m) {a : A} {b : B} (hab : R a b) :
    R (W.run ms a).core (W'.run ms b).core ∧ (W.run ms a).reply = (W'.run ms b).reply := by
  induction ms generalizing a b with
  | nil => exact ⟨hab, rfl⟩
  | cons m ms ih =>
    obtain ⟨hcore, hreply⟩ := h m a b (hms m (by simp)) hab
    obtain ⟨hcore', hreply'⟩ := ih (fun x hx => hms x (by simp [hx])) hcore
    exact ⟨hcore', by simp only [Wire.run, hreply, hreply']⟩

/-- `flush` is NULL, or does nothing that the abstract state shows. -/
def Protocol.QuietFlush (P : Protocol σ) (abs : Core σ → A) : Prop :=
  ∀ f, P.flush = some f → ∀ d m, (f d m).1.error = none ∧ (f d m).1.stores = [] ∧ 0 ≤ (f d m).2 ∧
    ∀ c, abs ⟨c, (f d m).1.clientData⟩ = abs ⟨c, d⟩

/-- `flush` is called between two views, and returns `rval`: it may raise an error and store into the replies that
are pending. -/
def Protocol.Flushes (P : Protocol σ) (abs : Core σ → A) (v w : View A) (rval : Int) : Prop :=
  match P.flush with
  | none => w = v ∧ rval = 0
  | some f => ∃ (a : Core σ) (m : ByteMem), abs a = v.core ∧ rval = (f a.data m).2 ∧
      w = ⟨abs ⟨a.c.after (f a.data m).1.error, (f a.data m).1.clientData⟩, overlay (f a.data m).1.stores v.pending,
        v.calls, v.sent⟩

/-- The server `P` does what `W` says, for the messages that satisfy `ok`, from the states that
satisfy `inv`, in the receive buffer `rx`. -/
structure Serves (P : Protocol σ) (abs : Core σ → A) (W : Wire A M) (rx : RxBuffer) (ok : M → Prop)
    (inv : A → Prop) : Prop where
  enc_ne : ∀ m, ok m → W.enc m ≠ []
  fits : ∀ m, ok m → (W.enc m).length ≤ rx.bufMax
  keeps : ∀ m a, ok m → inv a → inv (W.handle m a).core
  /-- Nothing is there. -/
  idle : ∀ (s : Server σ) cbuf, s.rx = rx → Holds s cbuf [] → P.iter s cbuf = .fill
  /-- A message is cut short. -/
  cut : ∀ (s : Server σ) cbuf m q, s.rx = rx → ok m → Proper q (W.enc m) → Holds s cbuf q →
    P.iter s cbuf = .fill
  /-- A whole message: it is executed, or it waits for the replies before it to be sent. -/
  whole : ∀ (s : Server σ) cbuf m rest, s.rx = rx → ok m → inv (abs s.view.core) →
    Holds s cbuf (W.enc m ++ rest) →
    s.replyLen + (W.handle m (abs s.view.core)).reply.length ≤ maxPacketLen →
    (0 < s.replyLen ∧ P.iter s cbuf = .stop) ∨
      ∃ t, P.iter s cbuf = .reply t (cbuf + (W.enc m).length) ∧ t.rx = s.rx ∧
        Holds t (cbuf + (W.enc m).length) rest ∧
        t.view.map abs = (s.view.map abs).apply (W.handle m (abs s.view.core))

/-- It does, and `flush` is quiet. -/
structure Realizes (P : Protocol σ) (abs : Core σ → A) (W : Wire A M) (rx : RxBuffer) (ok : M → Prop)
    (inv : A → Prop) : Prop extends Serves P abs W rx ok inv where
  flush : P.QuietFlush abs

/-- The connection waits in `recv` with the bytes `q` of an incomplete message. -/
structure Waits (rx : RxBuffer) (abs : Core σ → A) (c : Conn σ) (q : List UInt8) (v : View A) : Prop where
  phase : c.phase = .recv
  buffer : c.s.rx = rx
  holds : Holds c.s rx.buf q
  core : abs c.s.view.core = v.core
  calls : callsOf c.s.trace = v.calls
  sent : sentOf c.s.trace = v.sent
  nothing : v.pending = []

/-- The connection is at the head of the loop, with the bytes `l` from its cursor on. -/
structure Parses (rx : RxBuffer) (abs : Core σ → A) (c : Conn σ) (l : List UInt8) (v : View A) : Prop where
  phase : ∃ cbuf, c.phase = .parse cbuf ∧ rx.buf ≤ cbuf ∧ Holds c.s cbuf l ∧ (cbuf = rx.buf → c.s.replyLen = 0)
  buffer : c.s.rx = rx
  view : c.s.view.map abs = v

variable {P : Protocol σ} {abs : Core σ → A} {W : Wire A M} {rx : RxBuffer} {ok : M → Prop}
  {inv : A → Prop} {c d : Conn σ} {q l chunk : List UInt8} {v : View A} {m : M} {ms : List M}

/-! ## Between two batches -/

/-- `recv` returns a chunk. -/
theorem Waits.receive (h : Waits rx abs c q v) (hfit : chunk.length ≤ c.s.room) :
    Parses rx abs (c.receive chunk) (q ++ chunk) v := by
  have hb := h.holds.bytes
  have he := h.holds.ends
  have hf := h.holds.fits
  unfold Server.cend at he
  rw [h.buffer] at he
  have hlen : c.s.bufLen = q.length := by omega
  have hroom : c.s.bufLen + chunk.length ≤ c.s.rx.bufMax := by unfold Server.room at hfit; omega
  refine ⟨⟨rx.buf, by simp [Conn.receive, Conn.readMore, Server.receive, h.buffer], Nat.le_refl _, ?_,
    fun _ => rfl⟩, h.buffer, ?_⟩
  · refine ⟨?_, ?_, hroom⟩
    · show slice (write c.s.mem (c.s.rx.buf + c.s.bufLen) chunk) rx.buf (q ++ chunk).length = _
      rw [h.buffer, hlen, List.length_append, slice_append, slice_write,
        slice_write_of_disjoint _ (.inl (by omega)), hb]
    · show rx.buf + (q ++ chunk).length = c.s.rx.buf + (c.s.bufLen + chunk.length)
      rw [h.buffer, hlen, List.length_append]
  · rcases v with ⟨core, pending, calls, sent⟩
    obtain rfl : pending = [] := h.nothing
    show View.map abs ⟨_, [], callsOf c.s.trace, sentOf c.s.trace⟩ = _
    simp only [View.map, View.mk.injEq]
    exact ⟨h.core, trivial, h.calls, h.sent⟩

theorem runFlush_flushes (P : Protocol σ) (abs : Core σ → A) (s : Server σ) :
    ∃ t rval, s.runFlush P = (t, rval) ∧ t.received = s.received ∧ t.replyLen = s.replyLen ∧
      P.Flushes abs (s.view.map abs) (t.view.map abs) rval := by
  unfold Protocol.Flushes
  cases hP : P.flush with
  | none => exact ⟨s, 0, by simp [Server.runFlush, hP], rfl, rfl, rfl, rfl⟩
  | some f =>
    obtain ⟨r, hr⟩ : ∃ r, f s.clientData s.mem = r := ⟨_, rfl⟩
    refine ⟨{ s with
      clientData := r.1.clientData
      c := s.c.after r.1.error
      replyBuf := applyStores r.1.stores s.replyBuf
      trace := s.trace ++ [Event.flush] ++ r.1.stores.map fun w => .store w.1 w.2.length }, r.2, ?_, rfl, rfl,
      s.view.core, s.mem, rfl, by rw [show s.view.core.data = s.clientData from rfl, hr], ?_⟩
    · unfold XvcClient.after
      cases herr : r.1.error <;> simp [Server.runFlush, hP, hr, Server.stores_eq, herr]
    · rw [show s.view.core.data = s.clientData from rfl, hr]
      simp only [Server.view, View.map, callsOf_append, sentOf_append, Server.callsOf_stores,
        Server.sentOf_stores, slice_applyStores]
      simp [callsOf, sentOf]

/-- A quiet `flush` changes nothing that matters. -/
theorem Protocol.Flushes.of_quiet (hf : P.QuietFlush abs) {w : View A} {rval : Int} (h : P.Flushes abs v w rval) :
    w = v ∧ 0 ≤ rval := by
  unfold Protocol.Flushes at h
  split at h
  · exact ⟨h.1, Int.le_of_eq h.2.symm⟩
  · next f hP =>
    obtain ⟨⟨c, d⟩, m, hcore, rfl, rfl⟩ := h
    obtain ⟨herr, hst, hr, habs⟩ := hf f hP d m
    refine ⟨?_, hr⟩
    rw [herr, hst, overlay_nil, show c.after none = c from rfl, habs, hcore]

/-- What `read_packet` does once it has left its loop: it calls `flush`, sends what is pending and keeps the rest of
the bytes at the beginning of the buffer. -/
theorem finish_flushes (P : Protocol σ) (abs : Core σ → A) {s : Server σ} {cbuf : Nat} (hrx : s.rx = rx)
    (hc : rx.buf < cbuf) (h : Holds s cbuf l) (fill : Bool) (hfill : fill = true ∨ l ≠ []) :
    ∃ w rval, P.Flushes abs (s.view.map abs) w rval ∧
      if rval < 0 then ∃ t : Server σ, Conn.finish P Conn.sendAll s cbuf fill = ⟨.error, t⟩ ∧ t.view.map abs = w
      else ∃ t : Server σ, Conn.finish P Conn.sendAll s cbuf fill = (if fill then ⟨.recv, t⟩ else Conn.readMore t) ∧
        t.rx = rx ∧ Holds t rx.buf l ∧ ({ t with replyLen := 0 } : Server σ).view.map abs = w.flush := by
  obtain ⟨t, rval, ht, hrec, hrl, hflush⟩ := runFlush_flushes P abs s
  refine ⟨t.view.map abs, rval, hflush, ?_⟩
  split
  · next hneg =>
    refine ⟨t, ?_, rfl⟩
    unfold Conn.finish
    simp only [hrx, if_pos hc, ht, if_pos hneg]
  next hrval =>
  have he := h.ends
  have hfit := h.fits
  have hun := rx.unsigned
  have htrx : t.rx = rx := (Server.rx_of_received hrec).trans hrx
  have htlen : t.bufLen = s.bufLen := Server.bufLen_of_received hrec
  have htmem : t.mem = s.mem := (Prod.mk.inj (Prod.mk.inj hrec).2).2
  unfold Server.cend at he
  rw [hrx] at he hfit
  have hcons : u32 (cbuf - rx.buf) = cbuf - rx.buf := u32_of_lt (by omega)
  generalize hu : t.logSend (Conn.sendAll t.replyLen) = u
  have hurx : u.rx = rx := by rw [← hu]; exact htrx
  have hulen : u.bufLen = s.bufLen := by rw [← hu]; exact htlen
  have humem : u.mem = s.mem := by rw [← hu]; exact htmem
  have huview : ({ u with replyLen := 0 } : Server σ).view.map abs = (t.view.map abs).flush := by
    rw [← hu]
    simp [View.map, View.flush, Server.view, Server.logSend, callsOf, sentOf]
  have hlen : (u.consume (cbuf - rx.buf)).bufLen = l.length := by
    show u.bufLen - (cbuf - rx.buf) = _
    rw [hulen]; omega
  refine ⟨u.consume (cbuf - rx.buf), ?_, hurx, ⟨?_, ?_, ?_⟩, huview⟩
  · unfold Conn.finish
    have hsend : ¬ Conn.sendAll t.replyLen < 0 := by unfold Conn.sendAll; omega
    have hcl : ¬ u.bufLen < cbuf - rx.buf := by rw [hulen]; omega
    simp only [hrx, if_pos hc, ht, if_neg hrval, if_neg hsend, hu, hurx, hcons, if_neg hcl]
    rcases hfill with rfl | hl
    · rw [if_neg (by simp), if_pos rfl]
    · have hne : (u.consume (cbuf - rx.buf)).bufLen ≠ 0 := by
        rw [hlen]; exact fun h0 => hl (List.length_eq_zero_iff.mp h0)
      cases fill with
      | true => rw [if_neg (by simp), if_pos rfl]
      | false => rw [if_pos ⟨hne, rfl⟩, if_neg (by simp)]
  · show slice (memmove u.mem u.rx.buf (u.rx.buf + (cbuf - rx.buf)) (u.bufLen - (cbuf - rx.buf))) rx.buf _ = l
    rw [hurx, humem, hulen, show s.bufLen - (cbuf - rx.buf) = l.length by omega, slice_memmove,
      show rx.buf + (cbuf - rx.buf) = cbuf by omega]
    exact h.bytes
  · show rx.buf + l.length = u.rx.buf + (u.bufLen - (cbuf - rx.buf))
    rw [hurx, hulen]; omega
  · show u.bufLen - (cbuf - rx.buf) ≤ u.rx.bufMax
    rw [hurx, hulen]; omega

/-- With a quiet `flush`. -/
theorem finish_sends (hf : P.QuietFlush abs) {s : Server σ} {cbuf : Nat} (hrx : s.rx = rx)
    (hc : rx.buf < cbuf) (h : Holds s cbuf l) (fill : Bool) (hfill : fill = true ∨ l ≠ []) :
    ∃ t : Server σ, Conn.finish P Conn.sendAll s cbuf fill =
        (if fill then ⟨.recv, t⟩ else Conn.readMore t) ∧
      t.rx = rx ∧ Holds t rx.buf l ∧ ({ t with replyLen := 0 } : Server σ).view.map abs = (s.view.map abs).flush := by
  obtain ⟨w, rval, hflush, hfin⟩ := finish_flushes P abs hrx hc h fill hfill
  obtain ⟨rfl, hrval⟩ := hflush.of_quiet hf
  rwa [if_neg (Int.not_lt.mpr hrval)] at hfin

/-! ## A batch -/

/-- A connection waits once its pending bytes are sent. -/
theorem Waits.of_view {t : Server σ} (hrx : t.rx = rx) (h : Holds t rx.buf q)
    (hv : ({ t with replyLen := 0 } : Server σ).view.map abs = v.flush) :
    Waits rx abs ⟨.recv, t⟩ q v.flush :=
  ⟨rfl, hrx, h, congrArg View.core hv, congrArg View.calls hv, congrArg View.sent hv, rfl⟩

/-- At the head of the loop again. -/
theorem Parses.of_readMore {t : Server σ} (hrx : t.rx = rx) (h : Holds t rx.buf l)
    (hv : ({ t with replyLen := 0 } : Server σ).view.map abs = v) : Parses rx abs (Conn.readMore t) l v :=
  ⟨⟨rx.buf, by rw [← hrx]; rfl, Nat.le_refl _, ⟨h.bytes, h.ends, h.fits⟩, fun _ => rfl⟩, hrx, hv⟩

/-- With an incomplete message left, `flush` is called for what is pending, unless nothing was executed. What is
pending is sent and the connection waits, or `flush` has failed and the connection is closed. -/
theorem Parses.ends (hr : Serves P abs W rx ok inv) (h : Parses rx abs c q v) (htail : Tail W.enc ok q) :
    ∃ d, Settles (Conn.advance P Conn.sendAll) c d ∧
      (v.pending = [] ∧ Waits rx abs d q v ∨
        ∃ w rval, P.Flushes abs v w rval ∧
          if rval < 0 then d.phase = .error ∧ d.s.view.map abs = w else Waits rx abs d q w.flush) := by
  obtain ⟨cbuf, hp, hle, hh, hz⟩ := h.phase
  have hfill : P.iter c.s cbuf = .fill := by
    rcases htail with rfl | ⟨m, hm, hq⟩
    · exact hr.idle c.s cbuf h.buffer hh
    · exact hr.cut c.s cbuf m q h.buffer hm hq hh
  have hadv : Conn.advance P Conn.sendAll c = Conn.finish P Conn.sendAll c.s cbuf true := by
    rw [Conn.advance_parse hp, hfill]
  by_cases hc : rx.buf < cbuf
  · obtain ⟨w, rval, hflush, hfin⟩ := finish_flushes P abs h.buffer hc hh true (.inl rfl)
    rw [h.view] at hflush
    split at hfin
    · next hneg =>
      obtain ⟨t, hfin, hview⟩ := hfin
      refine ⟨⟨.error, t⟩, .of_step ?_, .inr ⟨w, rval, hflush, ?_⟩⟩
      · rw [hadv, hfin]
        exact .refl (Conn.advance_of_not_parse nofun)
      · rw [if_pos hneg]
        exact ⟨rfl, hview⟩
    · next hneg =>
      obtain ⟨t, hfin, hrx, hholds, hview⟩ := hfin
      rw [if_pos rfl] at hfin
      refine ⟨⟨.recv, t⟩, .of_step ?_, .inr ⟨w, rval, hflush, ?_⟩⟩
      · rw [hadv, hfin]
        exact .refl (Conn.advance_recv rfl)
      · rw [if_neg hneg]
        exact .of_view hrx hholds hview
  · -- Nothing was executed since the buffer was filled.
    obtain rfl : cbuf = rx.buf := by omega
    have hfin : Conn.finish P Conn.sendAll c.s rx.buf true = ⟨.recv, c.s⟩ := by
      unfold Conn.finish; rw [h.buffer, if_neg (Nat.lt_irrefl _)]
    have hz := hz rfl
    have hpend : v.pending = [] := by
      rw [← h.view]
      show slice c.s.replyBuf 0 c.s.replyLen = []
      rw [hz]; rfl
    have hview : ({ c.s with replyLen := 0 } : Server σ).view.map abs = v.flush := by
      rw [show ({ c.s with replyLen := 0 } : Server σ) = c.s by rw [← hz], h.view]
      cases v; subst hpend; simp [View.flush]
    have hwaits : Waits rx abs ⟨.recv, c.s⟩ q v.flush := .of_view h.buffer hh hview
    refine ⟨⟨.recv, c.s⟩, .of_step ?_, .inl ⟨hpend, ?_⟩⟩
    · rw [hadv, hfin]
      exact .refl (Conn.advance_recv rfl)
    · cases v
      subst hpend
      simpa [View.flush] using hwaits

/-- With a quiet `flush`, what is pending is sent and the connection waits. -/
theorem Parses.settles_tail (hr : Realizes P abs W rx ok inv) (h : Parses rx abs c q v)
    (htail : Tail W.enc ok q) : ∃ d, Settles (Conn.advance P Conn.sendAll) c d ∧ Waits rx abs d q v.flush := by
  obtain ⟨d, hd, ⟨hpend, hw⟩ | ⟨w, rval, hflush, hw⟩⟩ := h.ends hr.toServes htail
  · refine ⟨d, hd, ?_⟩
    cases v
    subst hpend
    simpa [View.flush] using hw
  · obtain ⟨rfl, hrval⟩ := hflush.of_quiet hr.flush
    rw [if_neg (Int.not_lt.mpr hrval)] at hw
    exact ⟨d, hd, hw⟩

/-- A complete message at the cursor: it is executed, or `flush` is called for the replies before it. These are sent
and it is executed, or `flush` has failed and the connection is closed. -/
theorem Parses.passes (hr : Serves P abs W rx ok inv) (hm : ok m) (h : Parses rx abs c (W.enc m ++ l) v)
    (hinv : inv v.core) (hfit : v.pending.length + (W.handle m v.core).reply.length ≤ maxPacketLen)
    (hnext : ∀ w rval, P.Flushes abs v w rval → inv w.core ∧ (W.handle m w.core).reply.length ≤ maxPacketLen) :
    ∃ n d, (Conn.advance P Conn.sendAll)^[n] c = d ∧
      (Parses rx abs d l (v.apply (W.handle m v.core)) ∨
        ∃ w rval, P.Flushes abs v w rval ∧
          if rval < 0 then d.phase = .error ∧ d.s.view.map abs = w
          else Parses rx abs d l (w.flush.apply (W.handle m w.core))) := by
  -- Without a wait it takes one iteration.
  have once : ∀ c v cbuf t, c.phase = .parse cbuf → rx.buf ≤ cbuf →
      P.iter c.s cbuf = .reply t (cbuf + (W.enc m).length) → t.rx = rx →
      Holds t (cbuf + (W.enc m).length) l → t.view.map abs = View.apply v (W.handle m v.core) →
      Parses rx abs (Conn.advance P Conn.sendAll c) l (v.apply (W.handle m v.core)) := by
    intro c v cbuf t hp hle hiter hrx hh hv
    have hpos := List.length_pos_iff.mpr (hr.enc_ne m hm)
    rw [Conn.advance_parse hp, hiter]
    exact ⟨⟨_, rfl, by omega, hh, fun h0 => absurd h0 (by omega)⟩, hrx, hv⟩
  have hlen : ∀ {c : Conn σ} {v : View A}, c.s.view.map abs = v → c.s.replyLen = v.pending.length := by
    rintro c v rfl; exact (Server.length_pending c.s).symm
  have hcore : ∀ {c : Conn σ} {v : View A}, c.s.view.map abs = v → abs c.s.view.core = v.core := by
    rintro c v rfl; rfl
  obtain ⟨cbuf, hp, hle, hh, hz⟩ := h.phase
  rcases hr.whole c.s cbuf m l h.buffer hm (by rw [hcore h.view]; exact hinv) hh
    (by rw [hcore h.view, hlen h.view]; exact hfit) with ⟨hpos, hstop⟩ | ⟨t, hiter, hrx, hht, hview⟩
  · -- It waits: the replies are sent first, and the loop begins again with this message.
    have hc : rx.buf < cbuf := by
      rcases Nat.lt_or_eq_of_le hle with hlt | heq
      · exact hlt
      · exact absurd (hz heq.symm) (by omega)
    obtain ⟨w, rval, hflush, hfin⟩ := finish_flushes P abs h.buffer hc hh false (.inr (by simp [hr.enc_ne m hm]))
    rw [h.view] at hflush
    have hadv : Conn.advance P Conn.sendAll c = Conn.finish P Conn.sendAll c.s cbuf false := by
      rw [Conn.advance_parse hp, hstop]
    split at hfin
    · next hneg =>
      obtain ⟨t, hfin, hview⟩ := hfin
      refine ⟨1, _, rfl, .inr ⟨w, rval, hflush, ?_⟩⟩
      rw [if_pos hneg, Function.iterate_one, hadv, hfin]
      exact ⟨rfl, hview⟩
    · next hneg =>
      obtain ⟨u, hfin, hurx, huh, huv⟩ := hfin
      obtain ⟨hinv', hfit'⟩ := hnext w rval hflush
      rw [if_neg (by simp)] at hfin
      have hu := Parses.of_readMore hurx huh huv
      obtain ⟨cbuf', hp', hle', hh', hz'⟩ := hu.phase
      rcases hr.whole _ cbuf' m l hu.buffer hm (by rw [hcore hu.view]; exact hinv') hh'
        (by rw [hcore hu.view, hlen hu.view]; simpa [View.flush] using hfit') with
        ⟨hpos', -⟩ | ⟨t, hiter, hrx, hht, hview⟩
      · exact absurd hpos' (Nat.lt_irrefl 0)
      · rw [hu.view, hcore hu.view] at hview
        refine ⟨2, _, rfl, .inr ⟨w, rval, hflush, ?_⟩⟩
        rw [if_neg hneg]
        show Parses rx abs (Conn.advance P Conn.sendAll (Conn.advance P Conn.sendAll c)) l _
        rw [hadv, hfin]
        exact once _ w.flush cbuf' t hp' hle' hiter (hrx.trans hu.buffer) hht hview
  · rw [h.view, hcore h.view] at hview
    exact ⟨1, _, rfl, .inl (once c v cbuf t hp hle hiter (hrx.trans h.buffer) hht hview)⟩

/-- With a quiet `flush` the connection is behind it, after it has been executed, or after the replies before it have
been sent and it has been executed. -/
theorem Parses.step (hr : Realizes P abs W rx ok inv) (hm : ok m) (h : Parses rx abs c (W.enc m ++ l) v)
    (hinv : inv v.core)
    (hfit : v.pending.length + (W.handle m v.core).reply.length ≤ maxPacketLen) :
    ∃ n d w, (Conn.advance P Conn.sendAll)^[n] c = d ∧ Parses rx abs d l (w.apply (W.handle m v.core)) ∧
      (w = v ∨ w = v.flush) := by
  have hnext : ∀ w rval, P.Flushes abs v w rval → inv w.core ∧ (W.handle m w.core).reply.length ≤ maxPacketLen := by
    intro w rval hflush
    obtain ⟨rfl, -⟩ := hflush.of_quiet hr.flush
    exact ⟨hinv, by omega⟩
  obtain ⟨n, d, hd, hp | ⟨w, rval, hflush, hp⟩⟩ := h.passes hr.toServes hm hinv hfit hnext
  · exact ⟨n, d, v, hd, hp, .inl rfl⟩
  · obtain ⟨rfl, hrval⟩ := hflush.of_quiet hr.flush
    rw [if_neg (Int.not_lt.mpr hrval)] at hp
    exact ⟨n, d, w.flush, hd, hp, .inr rfl⟩

theorem View.apply_flush_run (W : Wire A M) (v w : View A) (m : M) (ms : List M)
    (hw : w = v ∨ w = v.flush) :
    ((w.apply (W.handle m v.core)).apply (W.run ms (W.handle m v.core).core)).flush =
      (v.apply (W.run (m :: ms) v.core)).flush := by
  rcases hw with rfl | rfl <;> simp [View.apply, View.flush, Wire.run]

/-- **A batch.** From the head of the loop, with the messages `ms` complete and `q` left over, the
connection comes to wait in `recv` with `q`; the messages were executed in order and their replies
sent. By induction on the messages; what is pending and their replies must fit the reply buffer. -/
theorem Parses.settles (hr : Realizes P abs W rx ok inv) (hms : ∀ m ∈ ms, ok m)
    (h : Parses rx abs c (ms.flatMap W.enc ++ q) v) (htail : Tail W.enc ok q) (hinv : inv v.core)
    (hfit : v.pending.length + (W.run ms v.core).reply.length ≤ maxPacketLen) :
    ∃ d, Settles (Conn.advance P Conn.sendAll) c d ∧
      Waits rx abs d q (v.apply (W.run ms v.core)).flush := by
  induction ms generalizing c v with
  | nil =>
    obtain ⟨d, hd, hw⟩ := Parses.settles_tail hr h htail
    refine ⟨d, hd, ?_⟩
    simpa [Wire.run, View.apply] using hw
  | cons m ms ih =>
    have hm := hms m (by simp)
    rw [List.flatMap_cons, List.append_assoc] at h
    simp only [Wire.run, List.length_append] at hfit
    obtain ⟨n, c', w, hstep, hc', hw⟩ := h.step hr hm hinv (by omega)
    have hpend : w.pending.length ≤ v.pending.length := by
      rcases hw with rfl | rfl <;> simp [View.flush]
    obtain ⟨d, hd, hwait⟩ := ih (fun x hx => hms x (by simp [hx])) hc' (hr.keeps m v.core hm hinv)
      (by simp only [View.apply, List.length_append]; omega)
    refine ⟨d, hd.of_iterate hstep, ?_⟩
    rw [← View.apply_flush_run W v w m ms hw]
    exact hwait

/-! ## Chunks -/

/-- A chunk that completes the messages `ms`. -/
theorem Waits.one_chunk (hr : Realizes P abs W rx ok inv) (hms : ∀ m ∈ ms, ok m) (h : Waits rx abs c q v)
    {q' : List UInt8} (hchunk : q ++ chunk = ms.flatMap W.enc ++ q') (htail : Tail W.enc ok q')
    (hinv : inv v.core) (hfit : chunk.length ≤ c.s.room)
    (hrep : (W.run ms v.core).reply.length ≤ maxPacketLen) :
    ∃ d, Settles (Conn.advance P Conn.sendAll) (c.receive chunk) d ∧
      Waits rx abs d q' (v.apply (W.run ms v.core)).flush := by
  have hp := h.receive hfit
  rw [hchunk] at hp
  exact hp.settles hr hms htail hinv (by rw [h.nothing]; simpa using hrep)

/-- The replies of each batch fit the reply buffer. -/
def Wire.BatchesFit (W : Wire A M) : List (List M) → A → Prop
  | [], _ => True
  | ms :: mss, a => (W.run ms a).reply.length ≤ maxPacketLen ∧ W.BatchesFit mss (W.run ms a).core

theorem Wire.batchesFit_of_total (W : Wire A M) {mss : List (List M)} {rest : List M} {a : A}
    (h : (W.run (mss.flatten ++ rest) a).reply.length ≤ maxPacketLen) : W.BatchesFit mss a := by
  induction mss generalizing a with
  | nil => trivial
  | cons ms mss ih =>
    rw [List.flatten_cons, List.append_assoc, Wire.run_append, List.length_append] at h
    exact ⟨by omega, ih (by omega)⟩

theorem Wire.Simulates.batchesFit {W' : Wire B M} {R : A → B → Prop} (h : W.Simulates W' R ok)
    {mss : List (List M)} (hms : ∀ m ∈ mss.flatten, ok m) {a : A} {b : B} (hab : R a b)
    (hfit : W'.BatchesFit mss b) : W.BatchesFit mss a := by
  induction mss generalizing a b with
  | nil => trivial
  | cons ms mss ih =>
    rw [List.flatten_cons] at hms
    obtain ⟨hcore, hreply⟩ := h.run (fun m hm => hms m (List.mem_append_left _ hm)) hab
    exact ⟨by rw [hreply]; exact hfit.1, ih (fun m hm => hms m (List.mem_append_right _ hm)) hcore hfit.2⟩

theorem Wire.inv_run (hr : Realizes P abs W rx ok inv) {a : A} (hms : ∀ m ∈ ms, ok m) (hinv : inv a) :
    inv (W.run ms a).core := by
  induction ms generalizing a with
  | nil => exact hinv
  | cons m ms ih =>
    exact ih (fun x hx => hms x (by simp [hx])) (hr.keeps m a (hms m (by simp)) hinv)

theorem View.apply_run_append (W : Wire A M) (v : View A) (ms ms' : List M) :
    ((v.apply (W.run ms v.core)).flush.apply (W.run ms' (W.run ms v.core).core)).flush =
      (v.apply (W.run (ms ++ ms') v.core)).flush := by
  simp [View.apply, View.flush, Wire.run_append]

/-- **Any number of chunks.** What the chunks complete is executed, in order, and answered. -/
theorem Waits.feed (hr : Realizes P abs W rx ok inv) {chunks : List (List UInt8)} {mss : List (List M)}
    {q' : List UInt8} (hb : Batched W.enc ok q chunks mss q') (hms : ∀ m ∈ mss.flatten, ok m)
    (h : Waits rx abs c q v) (hinv : inv v.core) (hfit : W.BatchesFit mss v.core)
    (hfeed : Conn.Feed P c chunks d) : Waits rx abs d q' (v.apply (W.run mss.flatten v.core)).flush := by
  induction hb generalizing c v with
  | nil q =>
    cases hfeed
    cases v with
    | mk core pending calls sent =>
      obtain rfl : pending = [] := h.nothing
      simpa [Wire.run, View.apply, View.flush] using h
  | @cons q q₁ q₂ chunk chunks ms mss hchunk htail _ ih =>
    cases hfeed with
    | cons hp hne hroom hrun hrest =>
      rw [List.flatten_cons] at hms
      have hms₁ : ∀ m ∈ ms, ok m := fun m hm => hms m (by simp [hm])
      obtain ⟨d₁, hd₁, hw⟩ := h.one_chunk hr hms₁ hchunk htail hinv hroom hfit.1
      obtain rfl := hrun.unique hd₁
      have hcore : (v.apply (W.run ms v.core)).flush.core = (W.run ms v.core).core := rfl
      have := ih (fun m hm => hms m (List.mem_append_right ms hm)) hw
        (by rw [hcore]; exact Wire.inv_run hr hms₁ hinv) hfit.2 hrest
      rw [hcore, View.apply_run_append] at this
      rw [List.flatten_cons]
      exact this

/-- What waits does not fill the buffer. -/
theorem Waits.room_pos (hr : Realizes P abs W rx ok inv) (h : Waits rx abs c q v)
    (htail : Tail W.enc ok q) (hmax : 0 < rx.bufMax) : 0 < c.s.room := by
  have he := h.holds.ends
  unfold Server.cend at he
  rw [h.buffer] at he
  unfold Server.room
  rw [h.buffer]
  rcases htail with rfl | ⟨m, hm, hq⟩
  · simp only [List.length_nil] at he; omega
  · have := hq.length_lt
    have := hr.fits m hm
    omega

/-- No chunk that fits and goes on with the stream is refused. -/
theorem Waits.exists_feed (hr : Realizes P abs W rx ok inv) (hms : ∀ m ∈ ms, ok m) (h : Waits rx abs c q v)
    {q' : List UInt8} (hchunk : q ++ chunk = ms.flatMap W.enc ++ q') (htail : Tail W.enc ok q')
    (hinv : inv v.core) (hne : chunk ≠ []) (hfit : chunk.length ≤ c.s.room)
    (hrep : (W.run ms v.core).reply.length ≤ maxPacketLen) :
    ∃ d, Conn.Feed P c [chunk] d ∧ Waits rx abs d q' (v.apply (W.run ms v.core)).flush := by
  obtain ⟨d, hd, hw⟩ := h.one_chunk hr hms hchunk htail hinv hfit hrep
  exact ⟨d, .cons h.phase hne hfit hd (.nil d), hw⟩

/-- The messages one at a time, each in a chunk of its own. -/
theorem Waits.exists_feed_each (hr : Realizes P abs W rx ok inv) (h : Waits rx abs c [] v) (ms : List M)
    (hms : ∀ m ∈ ms, ok m) (hinv : inv v.core)
    (hrep : (W.run ms v.core).reply.length ≤ maxPacketLen) :
    ∃ d, Conn.Feed P c (ms.map W.enc) d ∧ Waits rx abs d [] (v.apply (W.run ms v.core)).flush := by
  induction ms generalizing c v with
  | nil =>
    refine ⟨c, .nil c, ?_⟩
    cases v with
    | mk core pending calls sent =>
      obtain rfl : pending = [] := h.nothing
      simpa [Wire.run, View.apply, View.flush] using h
  | cons m ms ih =>
    have hm := hms m (by simp)
    have hroom : (W.enc m).length ≤ c.s.room := by
      have he := h.holds.ends
      unfold Server.cend at he
      rw [h.buffer, List.length_nil] at he
      have := hr.fits m hm
      unfold Server.room
      rw [h.buffer]; omega
    simp only [Wire.run, List.length_append] at hrep
    have hone : [] ++ W.enc m = [m].flatMap W.enc ++ [] := by simp
    obtain ⟨c₁, hf₁, hw₁⟩ := h.exists_feed hr (by simpa using hm) hone
      (.inl rfl) hinv (hr.enc_ne m hm) hroom (by simp only [Wire.run, List.append_nil]; omega)
    have hcore : (v.apply (W.run [m] v.core)).flush.core = (W.handle m v.core).core := rfl
    obtain ⟨d, hf, hw⟩ := ih hw₁ (fun x hx => hms x (by simp [hx]))
      (by rw [hcore]; exact hr.keeps m v.core hm hinv) (by rw [hcore]; omega)
    refine ⟨d, by simpa using hf₁.append hf, ?_⟩
    have := View.apply_run_append W v [m] ms
    rw [show (W.run [m] v.core).core = (W.handle m v.core).core from rfl] at this
    rw [hcore, this] at hw
    exact hw

/-- What has been received of a stream, in any chunks, is executed as far as it is complete. -/
theorem Waits.feed_prefix (hr : Realizes P abs W rx ok inv) (hms : ∀ m ∈ ms, ok m) (h : Waits rx abs c [] v)
    (hinv : inv v.core) (hrep : (W.run ms v.core).reply.length ≤ maxPacketLen)
    {chunks : List (List UInt8)} (hpre : chunks.flatten <+: ms.flatMap W.enc)
    (hfeed : Conn.Feed P c chunks d) :
    ∃ ms₁ ms₂ q, ms = ms₁ ++ ms₂ ∧ chunks.flatten = ms₁.flatMap W.enc ++ q ∧ Rest W.enc q ms₂ ∧
      Waits rx abs d q (v.apply (W.run ms₁ v.core)).flush := by
  have henc : ∀ m ∈ ms, W.enc m ≠ [] := fun m hm => hr.enc_ne m (hms m hm)
  have hrest : Rest W.enc [] ms := by
    cases ms with
    | nil => exact .done
    | cons m ms => exact .next ms (proper_nil (henc m (by simp)))
  obtain ⟨mss, ms₂, q, rfl, hb, hq, heq⟩ := hrest.batched henc hms (by simpa using hpre)
  refine ⟨mss.flatten, ms₂, q, rfl, by simpa using heq, hq, ?_⟩
  exact h.feed hr hb (fun m hm => hms m (by simp only [List.mem_append]; exact .inl hm)) hinv
    (W.batchesFit_of_total hrep) hfeed

/-- The next chunk of a stream is not refused when it fits. -/
theorem Waits.exists_next (hr : Realizes P abs W rx ok inv) (hms : ∀ m ∈ ms, ok m) (h : Waits rx abs c q v)
    (hinv : inv v.core) (hrep : (W.run ms v.core).reply.length ≤ maxPacketLen) (hne : chunk ≠ [])
    (hfit : chunk.length ≤ c.s.room) (hpre : q ++ chunk <+: ms.flatMap W.enc) :
    ∃ d, Conn.Feed P c [chunk] d := by
  obtain ⟨ms₁, ms₂, q', rfl, heq, hq⟩ := split (fun m hm => hr.enc_ne m (hms m hm)) hpre
  rw [Wire.run_append, List.length_append] at hrep
  obtain ⟨d, hd, -⟩ := h.exists_feed hr (fun m hm => hms m (by simp [hm])) heq
    (hq.tail fun m hm => hms m (by simp [hm])) hinv hne hfit (by omega)
  exact ⟨d, hd⟩

/-! ## Sessions -/

/-- A connection that has just entered `read_packet`, up to its first `recv`, and then the chunks. -/
def Conn.Session (P : Protocol σ) (c : Conn σ) (chunks : List (List UInt8)) (d : Conn σ) : Prop :=
  ∃ c', Settles (advance P sendAll) c c' ∧ Feed P c' chunks d

/-- The connection has received the messages `ms` and the bytes `q` of the next one, and has executed
none of them: it is at the head of the loop, or with no message complete it waits in `recv`. -/
def Conn.Pending (rx : RxBuffer) (abs : Core σ → A) (enc : M → List UInt8) (c : Conn σ) (ms : List M)
    (q : List UInt8) (v : View A) : Prop :=
  Parses rx abs c (ms.flatMap enc ++ q) v ∨ ms = [] ∧ Waits rx abs c q v

/-- A new connection waits, with nothing received. -/
theorem start_waits (hr : Realizes P abs W rx ok inv) (data : σ) (mem replyBuf : ByteMem) :
    ∃ c, Settles (Conn.advance P Conn.sendAll) (Conn.start rx data mem replyBuf) c ∧
      Waits rx abs c [] ⟨abs ⟨{}, data⟩, [], [], []⟩ := by
  have hp : Parses rx abs (Conn.start rx data mem replyBuf) [] ⟨abs ⟨{}, data⟩, [], [], []⟩ :=
    ⟨⟨rx.buf, rfl, Nat.le_refl _, ⟨rfl, rfl, Nat.zero_le _⟩, fun _ => rfl⟩, rfl, rfl⟩
  exact hp.settles_tail hr (.inl rfl)

end Xvc
