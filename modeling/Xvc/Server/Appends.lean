import Xvc.Lib.Appending
import Xvc.Server.Common
import Xvc.Server.Reply

/-!
# Replies, wherever they are stored

`Appends cap ps s t`: from `s` to `t` the reply has grown by the pieces `ps`, as `Appending.putAll` says, and
nothing was stored at or behind `cap` if and only if they fit. Unlike `Server.view`, this also says what
happens behind `max_packet_len`: `reply_status` and `reply_uleb128` store nothing there, the other helpers
do not check.
-/

namespace Xvc

open ByteMem Appending

variable {σ : Type}

/-- Nothing was stored at or behind `cap`. -/
def StoresWithin (cap : Nat) (es : List Event) : Prop := ∀ i n, Event.store i n ∈ es → ∀ k, k < n → i + k < cap

theorem storesWithin_append {cap : Nat} {es es' : List Event} :
    StoresWithin cap (es ++ es') ↔ StoresWithin cap es ∧ StoresWithin cap es' := by
  constructor
  · intro h
    exact ⟨fun i n he => h i n (List.mem_append_left _ he), fun i n he => h i n (List.mem_append_right _ he)⟩
  · rintro ⟨h, h'⟩ i n he
    rcases List.mem_append.mp he with he | he
    · exact h i n he
    · exact h' i n he

theorem storesWithin_nil {cap : Nat} : StoresWithin cap [] := fun _ _ he => absurd he List.not_mem_nil

theorem storesWithin_store {cap i n : Nat} : StoresWithin cap [.store i n] ↔ (0 < n → i + n ≤ cap) := by
  constructor
  · intro h hn
    have := h i n List.mem_cons_self (n - 1) (by omega)
    omega
  · intro h i' n' he k hk
    cases List.mem_singleton.mp he
    have := h (by omega)
    omega

namespace Server

/-- The reply has grown by the pieces `ps`. -/
structure Appends (cap : Nat) (ps : List Piece) (s t : Server σ) : Prop where
  replyLen : t.replyLen = s.replyLen + total ps
  buf : t.replyBuf = putAll maxPacketLen s.replyLen ps s.replyBuf
  events : ∃ es, t.trace = s.trace ++ es ∧ sentOf es = [] ∧ (StoresWithin cap es ↔ Fits cap s.replyLen ps)

variable {cap : Nat} {ps qs : List Piece} {s t u : Server σ} {l : List UInt8}

theorem Appends.refl (s : Server σ) : Appends cap [] s s :=
  ⟨rfl, rfl, [], (List.append_nil _).symm, rfl, iff_of_true storesWithin_nil trivial⟩

theorem Appends.trans (h : Appends cap ps s t) (h' : Appends cap qs t u) : Appends cap (ps ++ qs) s u := by
  obtain ⟨es, htr, hsent, hfit⟩ := h.events
  obtain ⟨es', htr', hsent', hfit'⟩ := h'.events
  refine ⟨?_, ?_, es ++ es', by rw [htr', htr, List.append_assoc], by rw [sentOf_append, hsent, hsent']; rfl, ?_⟩
  · rw [h'.replyLen, h.replyLen, total_append, Nat.add_assoc]
  · rw [h'.buf, h.buf, h.replyLen, putAll_append]
  · rw [storesWithin_append, fits_append, hfit, hfit', h.replyLen]

/-- A call, or nothing at all. -/
theorem Appends.of_same (es : List Event) (hlen : t.replyLen = s.replyLen) (hbuf : t.replyBuf = s.replyBuf)
    (htr : t.trace = s.trace ++ es) (hsent : sentOf es = []) (hes : StoresWithin cap es) : Appends cap [] s t :=
  ⟨hlen, hbuf, es, htr, hsent, iff_of_true hes trivial⟩

/-! ## The helpers -/

theorem appends_replyBytes (hfit : s.replyLen + l.length < 2 ^ 32) : Appends cap [.copied l] s (s.replyBytes l) where
  replyLen := by
    show u32 (s.replyLen + l.length) = _
    rw [u32_of_lt hfit]
    simp [Piece.bytes]
  buf := rfl
  events := by
    refine ⟨[.store s.replyLen l.length], rfl, rfl, storesWithin_store.trans ?_⟩
    rw [List.length_pos_iff]
    exact (iff_of_eq (and_true _)).symm

/-- `getinfo:` stores a zero behind its reply. -/
theorem appends_execGetinfo (hfit : s.replyLen + (getinfoText s.rx.bufMax).length < 2 ^ 32) :
    Appends cap [.terminated (getinfoText s.rx.bufMax)] s (execGetinfo s) where
  replyLen := by
    show u32 (s.replyLen + (getinfoText s.rx.bufMax).length) = _
    rw [u32_of_lt hfit]
    simp [Piece.bytes]
  buf := rfl
  events := by
    refine ⟨[.store s.replyLen (getinfoText s.rx.bufMax ++ [0]).length], rfl, rfl, storesWithin_store.trans ?_⟩
    rw [List.length_append, List.length_singleton]
    constructor
    · intro h
      exact ⟨h (by omega), trivial⟩
    · rintro ⟨h, -⟩ -
      exact h

theorem appends_replyStatus (hcap : maxPacketLen ≤ cap) (hfit : s.replyLen + 1 < 2 ^ 32) :
    Appends cap [.checked [s.c.status]] s s.replyStatus := by
  have hlen : u32 (s.replyLen + 1) = s.replyLen + 1 := u32_of_lt hfit
  unfold replyStatus
  by_cases hlt : s.replyLen < maxPacketLen
  · rw [if_pos hlt]
    refine ⟨hlen, ?_, [.store s.replyLen 1], rfl, rfl, iff_of_true (storesWithin_store.mpr fun _ => by omega) trivial⟩
    show write s.replyBuf s.replyLen [s.c.status] =
      write s.replyBuf s.replyLen ([s.c.status].take (maxPacketLen - s.replyLen))
    rw [List.take_of_length_le (by rw [List.length_singleton]; omega)]
  · rw [if_neg hlt]
    refine ⟨hlen, ?_, [], (List.append_nil _).symm, rfl, iff_of_true storesWithin_nil trivial⟩
    show s.replyBuf = write s.replyBuf s.replyLen ([s.c.status].take (maxPacketLen - s.replyLen))
    rw [show maxPacketLen - s.replyLen = 0 by omega, List.take_zero, write_nil]

/-- The loop of `reply_uleb128` at `pos`. -/
theorem replyUlebLoop_appends (hcap : maxPacketLen ≤ cap) (s : Server σ) (k value pos : Nat)
    (hfit : s.replyLen + pos + (Leb128.encode k value).length < 2 ^ 32) :
    (s.replyUlebLoop k value pos).1.replyBuf =
        write s.replyBuf (s.replyLen + pos) ((Leb128.encode k value).take (maxPacketLen - (s.replyLen + pos))) ∧
      ∃ es, (s.replyUlebLoop k value pos).1.trace = s.trace ++ es ∧ sentOf es = [] ∧ StoresWithin cap es := by
  induction k generalizing s value pos with
  | zero =>
    exact ⟨by rw [replyUlebLoop, Leb128.encode, List.take_nil, write_nil], [], by simp [replyUlebLoop], rfl,
      storesWithin_nil⟩
  | succ k ih =>
    obtain ⟨b, tl, hb, henc, hcont⟩ := Leb128.encode_succ k value
    rw [henc, List.length_cons] at hfit
    have hi : u32 (s.replyLen + pos) = s.replyLen + pos := u32_of_lt (by omega)
    simp only [replyUlebLoop, hb, hi, henc]
    -- The byte of this round, stored or not.
    obtain ⟨t, ht, hlen, hbuf, es, htr, hsent, hes⟩ : ∃ t, (if s.replyLen + pos < maxPacketLen then
        s.store (s.replyLen + pos) [b] else s) = t ∧ t.replyLen = s.replyLen ∧
        t.replyBuf = write s.replyBuf (s.replyLen + pos) ([b].take (maxPacketLen - (s.replyLen + pos))) ∧
        ∃ es, t.trace = s.trace ++ es ∧ sentOf es = [] ∧ StoresWithin cap es := by
      by_cases hlt : s.replyLen + pos < maxPacketLen
      · refine ⟨_, if_pos hlt, rfl, ?_, [.store (s.replyLen + pos) 1], rfl, rfl,
          storesWithin_store.mpr fun _ => by omega⟩
        rw [List.take_of_length_le (by rw [List.length_singleton]; omega)]
        rfl
      · refine ⟨_, if_neg hlt, rfl, ?_, [], (List.append_nil _).symm, rfl, storesWithin_nil⟩
        rw [show maxPacketLen - (s.replyLen + pos) = 0 by omega, List.take_zero, write_nil]
    rw [ht]
    split
    · next hv =>
      rw [if_pos hv] at hcont
      obtain ⟨hbuf', es', htr', hsent', hes'⟩ := ih t (value >>> 7) (pos + 1) (by rw [hlen, ← hcont]; omega)
      refine ⟨?_, es ++ es', by rw [htr', htr, List.append_assoc], by rw [sentOf_append, hsent, hsent']; rfl,
        storesWithin_append.mpr ⟨hes, hes'⟩⟩
      rw [hbuf', hbuf, hlen, hcont]
      by_cases hlt : s.replyLen + pos < maxPacketLen
      · obtain ⟨n, hn⟩ : ∃ n, maxPacketLen - (s.replyLen + pos) = n + 1 :=
          ⟨maxPacketLen - (s.replyLen + pos) - 1, by omega⟩
        rw [hn, List.take_succ_cons, List.take_succ_cons, List.take_nil,
          show maxPacketLen - (s.replyLen + (pos + 1)) = n by omega, ← Nat.add_assoc]
        exact write_write s.replyBuf (s.replyLen + pos) [b] _
      · rw [show maxPacketLen - (s.replyLen + pos) = 0 by omega,
          show maxPacketLen - (s.replyLen + (pos + 1)) = 0 by omega]
        simp only [List.take_zero, write_nil]
    · next hv =>
      rw [if_neg hv] at hcont
      rw [hcont]
      exact ⟨hbuf, es, htr, hsent, hes⟩

theorem appends_replyUleb128 (hcap : maxPacketLen ≤ cap) {value : Nat}
    (hfit : s.replyLen + (Leb128.encode 10 value).length < 2 ^ 32) :
    Appends cap [.checked (Leb128.encode 10 value)] s (s.replyUleb128 value) := by
  obtain ⟨hbuf, es, htr, hsent, hes⟩ := replyUlebLoop_appends hcap s 10 value 0 hfit
  refine ⟨?_, ?_, es, htr, hsent, iff_of_true hes trivial⟩
  · rw [replyLen_replyUleb128, u32_of_lt hfit]
    simp [Piece.bytes]
  · exact hbuf

/-- A reply that is announced by its length. -/
theorem appends_replyUlebBytes (hcap : maxPacketLen ≤ cap) {n : Nat}
    (hfit : s.replyLen + ((Leb128.encode 10 n).length + l.length) < 2 ^ 32) :
    Appends cap [.checked (Leb128.encode 10 n), .copied l] s ((s.replyUleb128 n).replyBytes l) := by
  have hu : Appends cap [.checked (Leb128.encode 10 n)] s (s.replyUleb128 n) :=
    appends_replyUleb128 hcap (by omega)
  refine hu.trans (appends_replyBytes ?_)
  rw [hu.replyLen]
  simp only [total_cons, total_nil, Piece.bytes]
  omega

/-- A callback that stores nothing. -/
theorem appends_callback (c : Call) {r : CallResult σ} (hr : r.stores = []) : Appends cap [] s (s.callback c r) := by
  rw [callback_eq, hr]
  refine .of_same [.call c] rfl rfl (by simp) rfl fun i n he => ?_
  cases List.mem_singleton.mp he

theorem core_callback {c : Call} {r : CallResult σ} {e : Result σ} (hd : r.clientData = e.data)
    (he : r.error = e.error) :
    (s.callback c r).view.core = s.view.core.after e := by
  rw [callback_eq, hd, he]
  rfl

/-- A callback without a buffer, unless an error is pending. -/
theorem appends_ofCall {f : Option (CallResult σ)} {c : Call} {e : Result σ}
    (hf : s.c.failed = false → f = some { clientData := e.data, error := e.error }) :
    Appends cap [] s (s.unlessFailed fun s => callOrNull s f c) ∧
      (s.unlessFailed fun s => callOrNull s f c).view.core = (Outcome.ofCall s.view.core c e).core := by
  have hc : s.view.core.c.failed = s.c.failed := rfl
  unfold unlessFailed Outcome.ofCall
  rw [hc]
  cases hs : s.c.failed with
  | true => exact ⟨.refl s, rfl⟩
  | false =>
    rw [hf hs]
    exact ⟨appends_callback c rfl, core_callback rfl rfl⟩

end Server
end Xvc
