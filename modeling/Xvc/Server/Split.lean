import Xvc.Server.Framing

/-!
# However the stream is split

What a connection does with a stream of messages does not depend on the chunks in which it arrives, as long as the
replies to what one chunk completes fit the reply buffer.

* `Wire.BatchesFit.singles`: then so do the replies to each message.
* `Waits.exists_feed_singles`: the messages one at a time. `Waits.exists_feed_all`: any chunks that fit.
* `Realizes.split`: any chunks against one message at a time, for every server that realizes a `Wire`.
-/

namespace Xvc

open Stream Machine

variable {σ A M : Type} {P : Protocol σ} {abs : Core σ → A} {W : Wire A M} {rx : RxBuffer} {ok : M → Prop}
  {inv : A → Prop} {c d : Conn σ} {q : List UInt8} {v : View A}

/-- What holds for some messages holds for fewer of them. -/
theorem Realizes.mono {ok' : M → Prop}
    (h : Realizes P abs W rx ok inv) (hok : ∀ m, ok' m → ok m) : Realizes P abs W rx ok' inv where
  enc_ne m hm := h.enc_ne m (hok m hm)
  fits m hm := h.fits m (hok m hm)
  keeps m a hm := h.keeps m a (hok m hm)
  idle := h.idle
  cut s cbuf m q hrx hm := h.cut s cbuf m q hrx (hok m hm)
  whole s cbuf m rest hrx hm := h.whole s cbuf m rest hrx (hok m hm)
  flush := h.flush

/-- The room that is left behind the bytes of an incomplete message. -/
theorem Waits.room_eq (h : Waits rx abs c q v) : c.s.room = rx.bufMax - q.length := by
  have he := h.holds.ends
  unfold Server.cend at he
  rw [h.buffer] at he
  unfold Server.room
  rw [h.buffer]
  omega

theorem Wire.BatchesFit.append {mss mss' : List (List M)} {a : A} (h : W.BatchesFit mss a)
    (h' : W.BatchesFit mss' (W.run mss.flatten a).core) : W.BatchesFit (mss ++ mss') a := by
  induction mss generalizing a with
  | nil => exact h'
  | cons ms mss ih =>
    rw [List.flatten_cons, Wire.run_append] at h'
    exact ⟨h.1, ih h.2 h'⟩

theorem Wire.batchesFit_singles {ms : List M} {a : A} (h : (W.run ms a).reply.length ≤ maxPacketLen) :
    W.BatchesFit (ms.map fun m => [m]) a := by
  induction ms generalizing a with
  | nil => trivial
  | cons m ms ih =>
    simp only [Wire.run, List.length_append] at h
    refine ⟨?_, ih (Nat.le_trans (Nat.le_add_left _ _) h)⟩
    simp only [Wire.run, List.append_nil]
    exact Nat.le_trans (Nat.le_add_right _ _) h

theorem flatten_map_singleton (ms : List M) : (ms.map fun m => [m]).flatten = ms := by
  induction ms with
  | nil => rfl
  | cons m ms ih => rw [List.map_cons, List.flatten_cons, ih, List.singleton_append]

/-- When the replies of the batches fit, so do those of their messages. -/
theorem Wire.BatchesFit.singles {mss : List (List M)} {a : A} (h : W.BatchesFit mss a) :
    W.BatchesFit (mss.flatten.map fun m => [m]) a := by
  induction mss generalizing a with
  | nil => trivial
  | cons ms mss ih =>
    rw [List.flatten_cons, List.map_append]
    refine (batchesFit_singles h.1).append ?_
    rw [flatten_map_singleton]
    exact ih h.2

/-- The messages one at a time, each in a chunk of its own. -/
theorem Waits.exists_feed_singles (hr : Realizes P abs W rx ok inv) (h : Waits rx abs c [] v) (ms : List M)
    (hms : ∀ m ∈ ms, ok m) (hinv : inv v.core) (hfit : W.BatchesFit (ms.map fun m => [m]) v.core) :
    ∃ d, Conn.Feed P c (ms.map W.enc) d ∧ Waits rx abs d [] (v.apply (W.run ms v.core)).flush := by
  induction ms generalizing c v with
  | nil =>
    obtain ⟨d, hd, hw⟩ := h.exists_feed_each hr [] (fun _ hm => absurd hm List.not_mem_nil) hinv (Nat.zero_le _)
    exact ⟨d, hd, hw⟩
  | cons m ms ih =>
    obtain ⟨hone, hrest⟩ := hfit
    have hm : ∀ x ∈ [m], ok x := List.forall_mem_singleton.mpr (hms m List.mem_cons_self)
    obtain ⟨c₁, hf₁, hw₁⟩ := h.exists_feed_each hr [m] hm hinv hone
    obtain ⟨d, hf, hw⟩ := ih hw₁ (fun x hx => hms x (List.mem_cons_of_mem m hx)) (Wire.inv_run hr hm hinv) hrest
    refine ⟨d, hf₁.append hf, ?_⟩
    have happ := View.apply_run_append W v [m] ms
    rw [List.singleton_append] at happ
    rw [← happ]
    exact hw

/-- Chunks that fit the receive buffer together are all taken. -/
theorem Waits.exists_feed_all (hr : Realizes P abs W rx ok inv) {chunks : List (List UInt8)} {mss : List (List M)}
    {q' : List UInt8} (hb : Batched W.enc ok q chunks mss q') (hms : ∀ m ∈ mss.flatten, ok m) (h : Waits rx abs c q v)
    (hinv : inv v.core) (hfit : W.BatchesFit mss v.core) (hne : ∀ chunk ∈ chunks, chunk ≠ [])
    (hroom : q.length + chunks.flatten.length ≤ rx.bufMax) :
    ∃ d, Conn.Feed P c chunks d ∧ Waits rx abs d q' (v.apply (W.run mss.flatten v.core)).flush := by
  have hexists : ∃ d, Conn.Feed P c chunks d := by
    induction hb generalizing c v with
    | nil q => exact ⟨c, .nil c⟩
    | @cons q q₁ q₂ chunk chunks ms mss hchunk htail _ ih =>
      rw [List.flatten_cons] at hms
      rw [List.flatten_cons, List.length_append] at hroom
      have hms₁ : ∀ m ∈ ms, ok m := fun m hm => hms m (List.mem_append_left _ hm)
      have hlen := congrArg List.length hchunk
      simp only [List.length_append] at hlen
      obtain ⟨c₁, hf₁, hw₁⟩ := h.exists_feed hr hms₁ hchunk htail hinv (hne chunk List.mem_cons_self)
        (by rw [h.room_eq]; omega) hfit.1
      obtain ⟨d, hf⟩ := ih (fun m hm => hms m (List.mem_append_right _ hm)) hw₁ (Wire.inv_run hr hms₁ hinv) hfit.2
        (fun x hx => hne x (List.mem_cons_of_mem _ hx)) (by omega)
      exact ⟨d, hf₁.append hf⟩
  obtain ⟨d, hd⟩ := hexists
  exact ⟨d, hd, h.feed hr hb hms hinv hfit hd⟩

/-- **Splitting.** A new connection gets its stream in chunks that complete the messages `mss`, batch by batch. It has
done what it does with these messages one at a time, and no further chunk that fits is refused. -/
theorem Realizes.split (hr : Realizes P abs W rx ok inv) (data : σ) (mem replyBuf : ByteMem)
    {chunks : List (List UInt8)} {mss : List (List M)} (hb : Batched W.enc ok [] chunks mss q)
    (hms : ∀ m ∈ mss.flatten, ok m) (hinv : inv (abs ⟨{}, data⟩)) (hfit : W.BatchesFit mss (abs ⟨{}, data⟩))
    (hs : (Conn.start rx data mem replyBuf).Session P chunks d) :
    d.phase = .recv ∧
      (∃ u, (Conn.start rx data mem replyBuf).Session P (mss.flatten.map W.enc) u ∧
        sentOf d.s.trace = sentOf u.s.trace ∧ callsOf d.s.trace = callsOf u.s.trace ∧
        abs d.s.view.core = abs u.s.view.core) ∧
      ∀ chunk ms q', chunk ≠ [] → chunk.length ≤ d.s.room → q ++ chunk = ms.flatMap W.enc ++ q' →
        Tail W.enc ok q' → (∀ m ∈ ms, ok m) →
        (W.run ms (abs d.s.view.core)).reply.length ≤ maxPacketLen →
        ∃ e, (Conn.start rx data mem replyBuf).Session P (chunks ++ [chunk]) e := by
  obtain ⟨c, hc, hwait⟩ := start_waits hr data mem replyBuf
  obtain ⟨c', hc', hfeed⟩ := hs
  obtain rfl := hc.unique hc'
  have hd := hwait.feed hr hb hms hinv hfit hfeed
  obtain ⟨u, hu, hwu⟩ := hwait.exists_feed_singles hr mss.flatten hms hinv hfit.singles
  refine ⟨hd.phase, ⟨u, ⟨c, hc, hu⟩, hd.sent.trans hwu.sent.symm, hd.calls.trans hwu.calls.symm,
    hd.core.trans hwu.core.symm⟩, ?_⟩
  intro chunk ms q' hne hroom heq htail' hms' hrep
  rw [hd.core] at hrep
  obtain ⟨e, he, -⟩ := hd.exists_feed hr hms' heq htail' (Wire.inv_run hr hms hinv) hne hroom hrep
  exact ⟨e, c, hc, hfeed.append he⟩

end Xvc
