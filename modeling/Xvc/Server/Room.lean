import Xvc.Server.Contain

/-!
# The room in the receive buffer

`recv` is asked for what the received bytes leave free, so it must leave something free: otherwise it
returns 0, and the peer is taken to have closed. `finish_safe_iff` says when it does. The assertions of
the branches are those of each server.
-/

namespace Xvc

open ByteMem

variable {σ R : Type}

namespace Server

variable {s : Server σ}

@[simp] theorem received_runFlush (P : Protocol σ) (s : Server σ) : (s.runFlush P).1.received = s.received := by
  unfold runFlush
  cases P.flush with
  | none => rfl
  | some f =>
    simp only
    split <;> exact received_stores _ _

end Server

namespace Conn

/-- No assertion has failed, and `recv` is called with some room. -/
def Safe (c : Conn σ) : Prop := c.phase ≠ .aborted ∧ (c.phase = .recv → 1 ≤ c.s.room)

/-- The received bytes lie in the buffer, and the cursor among them. -/
structure Within (rx : RxBuffer) (c : Conn σ) : Prop where
  buffer : c.s.rx = rx
  bufLen : c.s.bufLen ≤ rx.bufMax
  cursor : ∀ cbuf, c.phase = .parse cbuf → cbuf ≤ c.s.cend

variable {P : Protocol σ} {rx : RxBuffer} {s : Server σ} {c d : Conn σ}

theorem within_readMore (hrx : s.rx = rx) (hlen : s.bufLen ≤ rx.bufMax) : (readMore s).Within rx where
  buffer := hrx
  bufLen := hlen
  cursor cbuf hp := by
    cases hp
    exact Nat.le_add_right _ _

theorem within_of_not_parse {p : Phase} (hp : ∀ cbuf, p ≠ .parse cbuf) (hrx : s.rx = rx)
    (hlen : s.bufLen ≤ rx.bufMax) : Within rx ⟨p, s⟩ := ⟨hrx, hlen, fun cbuf h => absurd h (hp cbuf)⟩

/-- What was executed makes room; otherwise there is what there was. -/
theorem finish_safe_iff (snd : Nat → Int) {cbuf : Nat} (fill : Bool) (hrx : s.rx = rx) (hlen : s.bufLen ≤ rx.bufMax)
    (hc : cbuf ≤ s.cend) :
    (finish P snd s cbuf fill).Within rx ∧
      ((finish P snd s cbuf fill).Safe ↔ rx.buf < cbuf ∨ 1 ≤ s.room) := by
  unfold finish
  rw [hrx]
  by_cases hlt : rx.buf < cbuf
  · rw [if_pos hlt]
    have hrec := Server.received_runFlush P s
    generalize s.runFlush P = t at hrec
    obtain ⟨t, rval⟩ := t
    have htrx : t.rx = rx := (Server.rx_of_received hrec).trans hrx
    have htlen : t.bufLen = s.bufLen := Server.bufLen_of_received hrec
    have hle : t.bufLen ≤ rx.bufMax := htlen.trans_le hlen
    have hsafe : ∀ u : Server σ, Safe ⟨.error, u⟩ := fun u => ⟨nofun, nofun⟩
    simp only [hlt, true_or, iff_true]
    split
    · exact ⟨within_of_not_parse nofun htrx hle, hsafe _⟩
    split
    · exact ⟨within_of_not_parse nofun htrx hle, hsafe _⟩
    -- The assertion of `consume_packet` holds, and the buffer is shorter afterwards.
    have hun := rx.unsigned
    unfold Server.cend at hc
    rw [hrx] at hc
    have hu : u32 (cbuf - (t.logSend (snd t.replyLen)).rx.buf) = cbuf - rx.buf := by
      show u32 (cbuf - t.rx.buf) = _
      rw [htrx]
      exact u32_of_lt (by omega)
    rw [hu]
    rw [if_neg (show ¬ (t.logSend (snd t.replyLen)).bufLen < cbuf - rx.buf by
      show ¬ t.bufLen < _
      omega)]
    generalize hv : (t.logSend (snd t.replyLen)).consume (cbuf - rx.buf) = v
    have hvrx : v.rx = rx := by rw [← hv]; exact htrx
    have hvlen : v.bufLen = s.bufLen - (cbuf - rx.buf) := by rw [← hv, ← htlen]; rfl
    split
    · exact ⟨within_readMore hvrx (by omega), nofun, nofun⟩
    · refine ⟨within_of_not_parse nofun hvrx (by omega), nofun, fun _ => ?_⟩
      unfold Server.room
      rw [hvrx, hvlen]
      omega
  · rw [if_neg hlt]
    refine ⟨within_of_not_parse nofun hrx hlen, ?_⟩
    simp [Safe, hlt]

/-- A step that is not an iteration of the loop is safe. -/
theorem Within.step_recv (hw : c.Within rx) (hstep : Step P c d) (hp : c.phase = .recv) : d.Within rx ∧ d.Safe := by
  cases hstep with
  | advance snd h => rw [hp] at h; cases h
  | @recv chunk _ hne hfit =>
    have hroom : c.s.bufLen + chunk.length ≤ rx.bufMax := by
      unfold Server.room at hfit
      rw [hw.buffer] at hfit
      have := hw.bufLen
      omega
    exact ⟨within_readMore hw.buffer hroom, nofun, nofun⟩
  | closed _ => exact ⟨within_of_not_parse nofun hw.buffer hw.bufLen, nofun, nofun⟩
  | failed _ => exact ⟨within_of_not_parse nofun hw.buffer hw.bufLen, nofun, nofun⟩

end Conn
end Xvc
