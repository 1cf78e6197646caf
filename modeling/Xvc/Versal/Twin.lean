import Xvc.Server.Twin
import Xvc.Versal.ReplyBound

/-!
# Two servers of `mem/versal` with different reply buffers

What one iteration of the loop does to two servers that are `Alike`. They decode the same request
(`Alike.parse`), since nothing that is decoded is in the reply buffer. They stay alike when the callback
of the request does the same on both sides (`CallMatches`), for each branch (`Alike.exec`).
-/

namespace Xvc
namespace Versal

open ByteMem Server

variable {σ τ : Type}

/-- The optional callbacks are there, or not, in both tables. -/
structure SameTable (h : XvcServerHandlers σ) (h' : XvcServerHandlers τ) : Prop where
  lock : h'.lock.isSome = h.lock.isSome
  unlock : h'.unlock.isSome = h.unlock.isSome
  registerShift : h'.registerShift.isSome = h.registerShift.isSome
  state : h'.state.isSome = h.state.isSome
  mrd : h'.mrd.isSome = h.mrd.isSome
  mwr : h'.mwr.isSome = h.mwr.isSome

/-- The callback of a request, called in the two states, does the same. -/
def CallMatches (R : σ → τ → Prop) (h : XvcServerHandlers σ) (h' : XvcServerHandlers τ) (s : Server σ)
    (d' : τ) : Request → Prop
  | .lock timeout => Option.Rel (Matches R s.replyLen) (h.lock.map fun f => f s.clientData timeout)
      (h'.lock.map fun f => f d' timeout)
  | .unlock => Option.Rel (Matches R s.replyLen) (h.unlock.map fun f => f s.clientData)
      (h'.unlock.map fun f => f d')
  | .shift bits p => Matches R s.replyLen
      (h.shiftTmsTdi s.clientData s.mem bits p (u64 (p + shiftBytes bits)) s.replyLen)
      (h'.shiftTmsTdi d' s.mem bits p (u64 (p + shiftBytes bits)) s.replyLen)
  | .settck nsperiod => (h'.setTck d' nsperiod).2 = (h.setTck s.clientData nsperiod).2 ∧
      Matches R s.replyLen (h.setTck s.clientData nsperiod).1 (h'.setTck d' nsperiod).1
  | .rshift instruction flags state count p =>
      let tdi := if tdiBytes flags count ≠ 0 then some p else none
      let tdo := if tdoBytes flags count ≠ 0 then some s.replyLen else none
      Option.Rel (Matches R s.replyLen)
        (h.registerShift.map fun f => f s.clientData s.mem instruction flags state count tdi tdo)
        (h'.registerShift.map fun f => f d' s.mem instruction flags state count tdi tdo)
  | .state flags state count => Option.Rel (Matches R s.replyLen)
      (h.state.map fun f => f s.clientData flags state count) (h'.state.map fun f => f d' flags state count)
  | .mrd flags addr numBytes => Option.Rel (Matches R s.replyLen)
      (h.mrd.map fun f => f s.clientData flags addr numBytes s.replyLen)
      (h'.mrd.map fun f => f d' flags addr numBytes s.replyLen)
  | .mwr flags addr numBytes p => Option.Rel (Matches R s.replyLen)
      (h.mwr.map fun f => f s.clientData s.mem flags addr numBytes p)
      (h'.mwr.map fun f => f d' s.mem flags addr numBytes p)
  | _ => True

variable {R : σ → τ → Prop} {B : List Event → ByteMem → ByteMem → Prop} {h : XvcServerHandlers σ}
  {h' : XvcServerHandlers τ} {s : Server σ} {t : Server τ} {r : Request}

theorem SameTable.lockingAvailable (ht : SameTable h h') : lockingAvailable h' = lockingAvailable h := by
  unfold Versal.lockingAvailable
  rw [ht.lock, ht.unlock]

theorem SameTable.capabilitiesText (ht : SameTable h h') : capabilitiesText h' = capabilitiesText h := by
  unfold Versal.capabilitiesText
  rw [ht.lockingAvailable, ht.registerShift, ht.state]

/-- What is decoded is in what was received. -/
theorem parse_twin (ht : SameTable h h') (hrec : t.received = s.received) (cbuf : Nat) (hdr : List UInt8) (p : Nat) :
    parse h' t cbuf hdr p = parse h s cbuf hdr p := by
  obtain ⟨rx, bufLen, mem, c, d, b, n, tr⟩ := s
  obtain ⟨rx', bufLen', mem', c', d', b', n', tr'⟩ := t
  simp only [Server.received, Prod.mk.injEq] at hrec
  obtain ⟨rfl, rfl, rfl⟩ := hrec
  unfold parse
  rw [ht.registerShift, ht.state, ht.mrd, ht.mwr]
  rfl

theorem alike_setLocked (ha : Alike R B s t) (v : Int) : Alike R B (setLocked s v) (setLocked t v) := by
  refine ha.unlessFailed fun _ => ?_
  rw [ha.c]
  exact ha.setClient _

/-- The end of a branch with a status, after a callback. -/
theorem alike_status (hB : Frames s.replyLen B) {u : Server σ} {v : Server τ} (hu : u.replyState = s.replyState)
    (huv : Alike R B u v) : Alike R B u.replyStatus v.replyStatus :=
  huv.replyStatus hB (Nat.le_of_eq (replyLen_of_replyState hu).symm)

/-- The end of a branch with data, after a callback: the status is behind the data. -/
theorem alike_data (hB : Frames s.replyLen B) {u : Server σ} {v : Server τ} {n : Nat}
    (hu : u.replyState = s.replyState) (hfit : s.replyLen + n < 2 ^ 32) (huv : Alike R B u v) :
    Alike R B (u.replyData n) (v.replyData n) ∧ s.replyLen ≤ (u.replyData n).replyLen := by
  refine ⟨huv.replyData hB (Nat.le_of_eq (replyLen_of_replyState hu).symm) n, ?_⟩
  rw [(Prod.mk.inj (replyState_data hu)).1, u32_of_lt hfit]
  exact Nat.le_add_right _ _

/-- Data and a status. -/
theorem alike_dataStatus (hB : Frames s.replyLen B) {u : Server σ} {v : Server τ} {n : Nat}
    (hu : u.replyState = s.replyState) (hfit : s.replyLen + n < 2 ^ 32) (huv : Alike R B u v) :
    Alike R B (u.replyData n).replyStatus (v.replyData n).replyStatus := by
  obtain ⟨hdata, hlo⟩ := alike_data hB hu hfit huv
  exact hdata.replyStatus hB hlo

theorem alike_shift (ha : Alike R B s t) (hB : Frames s.replyLen B) {bits p : Nat}
    (hfit : s.replyLen + shiftBytes bits < 2 ^ 32)
    (hcall : s.c.failed = false → CallMatches R h h' s t.clientData (.shift bits p)) :
    Alike R B (execShift h s bits p) (execShift h' t bits p) := by
  have hcalled := ha.unlessFailed (f := fun s => s.callback (.shiftTmsTdi bits (slice s.mem p ((bits + 7) / 8))
      (slice s.mem (u64 (p + shiftBytes bits)) ((bits + 7) / 8)))
      (h.shiftTmsTdi s.clientData s.mem bits p (u64 (p + shiftBytes bits)) s.replyLen))
    (g := fun s => s.callback (.shiftTmsTdi bits (slice s.mem p ((bits + 7) / 8))
      (slice s.mem (u64 (p + shiftBytes bits)) ((bits + 7) / 8)))
      (h'.shiftTmsTdi s.clientData s.mem bits p (u64 (p + shiftBytes bits)) s.replyLen))
    fun hn => by
      rw [ha.mem, ha.replyLen]
      exact ha.callback hB _ (hcall hn)
  obtain ⟨hdata, hlo⟩ := alike_data hB (replyState_unlessFailed (replyState_callback _ _ _)) hfit hcalled
  exact hdata.replyOptionalStatus hB hlo

theorem alike_settck (ha : Alike R B s t) (hB : Frames s.replyLen B) {nsperiod : Nat} (hfit : s.replyLen + 4 < 2 ^ 32)
    (hcall : s.c.failed = false → CallMatches R h h' s t.clientData (.settck nsperiod)) :
    Alike R B (execSettck h s nsperiod) (execSettck h' t nsperiod) := by
  have hcalled := ha.unlessFailed (f := fun u => u.callback (.setTck nsperiod) (h.setTck s.clientData nsperiod).1)
    (g := fun u => u.callback (.setTck nsperiod) (h'.setTck t.clientData nsperiod).1)
    fun hn => ha.callback hB _ (hcall hn).2
  have hstate : (s.unlessFailed fun u => u.callback (.setTck nsperiod)
      (h.setTck s.clientData nsperiod).1).replyState = s.replyState :=
    replyState_unlessFailed (replyState_callback _ _ _)
  -- The result counts only when the callback was called.
  have hran : (s.unlessFailed fun u => u.callback (.setTck nsperiod) (h.setTck s.clientData nsperiod).1).c.failed =
      false → s.c.failed = false := fun hf => by
    cases hs : s.c.failed with
    | false => rfl
    | true => simp [Server.unlessFailed, hs] at hf
  unfold execSettck
  dsimp only
  generalize (s.unlessFailed fun u => u.callback (.setTck nsperiod) (h.setTck s.clientData nsperiod).1) = u at *
  generalize (t.unlessFailed fun u => u.callback (.setTck nsperiod) (h'.setTck t.clientData nsperiod).1) = v at *
  have hperiod : (if u.c.failed then nsperiod else (h'.setTck t.clientData nsperiod).2) =
      if u.c.failed then nsperiod else (h.setTck s.clientData nsperiod).2 := by
    cases hf : u.c.failed with
    | true => rfl
    | false => exact (hcall (hran hf)).1
  have hlen := replyLen_of_replyState hstate
  rw [hcalled.c, hperiod]
  refine (hcalled.replyBytes hB (by omega) _).replyOptionalStatus hB ?_
  rw [(Prod.mk.inj (replyState_bytes hstate)).1, setUintLe, length_leBytes, u32_of_lt hfit]
  exact Nat.le_add_right _ _

/-- A request whose callback does the same on both sides. -/
theorem alike_exec (ht : SameTable h h') (ha : Alike R B s t) (hB : Frames s.replyLen B)
    (hfit : s.replyLen + replySize h s r + 10 < 2 ^ 32)
    (hcall : s.c.failed = false → CallMatches R h h' s t.clientData r) : Alike R B (exec h s r) (exec h' t r) := by
  have hlo := Nat.le_refl s.replyLen
  cases r with
  | getinfo =>
    show Alike R B (execGetinfo s) (execGetinfo t)
    unfold execGetinfo
    rw [ha.replyLen, ha.rx]
    exact (ha.store hB hlo _).extend _
  | capabilities =>
    show Alike R B (execCapabilities _ s) (execCapabilities _ t)
    rw [ht.capabilitiesText]
    exact ha.replyUlebBytes hB hlo (by omega) _ _
  | configure declared p =>
    show Alike R B (execConfigure _ s declared p) (execConfigure _ t declared p)
    unfold execConfigure
    rw [ht.lockingAvailable, ha.mem, ha.c]
    generalize configure (lockingAvailable h) s.mem p (u64 (p + u32 declared)) s.c = r
    exact (ha.update r.1 r.2).replyStatus hB hlo
  | error =>
    show Alike R B (execError s) (execError t)
    unfold execError
    rw [ha.c, ha.rx]
    exact (ha.replyUlebBytes hB hlo (by omega) _ _).clearError
  | lock timeout =>
    show Alike R B (execLock h s timeout) (execLock h' t timeout)
    unfold execLock
    refine alike_status hB (replyState_unlessFailed ?_) (ha.unlessFailed fun hn => ?_)
    · split
      · rfl
      split
      · rfl
      · exact (replyState_setLocked _ 1).trans (replyState_callOrNull s _ _)
    · rw [ha.c]
      split
      · exact ha.setClient _
      split
      · exact ha.setClient _
      · exact alike_setLocked (ha.callOrNull hB _ (hcall hn)) 1
  | unlock =>
    show Alike R B (execUnlock h s) (execUnlock h' t)
    unfold execUnlock
    refine alike_status hB (replyState_unlessFailed ?_) (ha.unlessFailed fun hn => ?_)
    · split
      · rfl
      split
      · rfl
      · exact (replyState_setLocked _ 0).trans (replyState_callOrNull s _ _)
    · rw [ha.c]
      split
      · exact ha.setClient _
      split
      · exact ha.setClient _
      · exact alike_setLocked (ha.callOrNull hB _ (hcall hn)) 0
  | shift bits p => exact alike_shift ha hB (by simp only [replySize, dataSize] at hfit; omega) hcall
  | settck nsperiod => exact alike_settck ha hB (by simp only [replySize, dataSize] at hfit; omega) hcall
  | rshift instruction flags state count p =>
    simp only [replySize, dataSize] at hfit
    show Alike R B (execRshift h s instruction flags state count p) (execRshift h' t instruction flags state count p)
    unfold execRshift
    refine alike_dataStatus hB (replyState_unlessFailed (replyState_callOrNull _ _ _)) (by omega)
      (ha.unlessFailed fun hn => ?_)
    rw [ha.mem, ha.replyLen]
    exact ha.callOrNull hB _ (hcall hn)
  | state flags state count =>
    exact alike_status hB (replyState_unlessFailed (replyState_callOrNull _ _ _))
      (ha.unlessFailed fun hn => ha.callOrNull hB _ (hcall hn))
  | mrd flags addr numBytes =>
    simp only [replySize, dataSize] at hfit
    show Alike R B (execMrd h s flags addr numBytes) (execMrd h' t flags addr numBytes)
    unfold execMrd
    refine alike_dataStatus hB (replyState_unlessFailed (replyState_callOrNull _ _ _)) (by omega)
      (ha.unlessFailed fun hn => ?_)
    rw [ha.replyLen]
    exact ha.callOrNull hB _ (hcall hn)
  | mwr flags addr numBytes p =>
    exact alike_status hB (replyState_unlessFailed (replyState_callOrNull _ _ _))
      (ha.unlessFailed fun hn => by rw [ha.mem]; exact ha.callOrNull hB _ (hcall hn))

/-! ## An iteration of the loop -/

/-- Both iterations end in the same way, and execute the same request. -/
theorem iter_twin (ht : SameTable h h') (ha : Alike R B s t) (cbuf : Nat) :
    ((protocol h).iter s cbuf = .fill ∧ (protocol h').iter t cbuf = .fill) ∨
    ((protocol h).iter s cbuf = .stop ∧ (protocol h').iter t cbuf = .stop) ∨
    ((protocol h).iter s cbuf = .bad ∧ (protocol h').iter t cbuf = .bad) ∨
    ((protocol h).iter s cbuf = .abort ∧ (protocol h').iter t cbuf = .abort) ∨
    ∃ r q p, (dispatch h).Dispatched s cbuf r q p ∧ (protocol h).iter s cbuf = .reply (exec h s r) p ∧
      (protocol h').iter t cbuf = .reply (exec h' t r) p := by
  have hiter : ∀ {υ : Type} (g : XvcServerHandlers υ) (u : Server υ),
      (protocol g).iter u cbuf = (dispatch g).iter u cbuf := fun _ _ => rfl
  rw [hiter, hiter]
  unfold Dispatch.iter
  rw [ha.scanHeader]
  cases hscan : scanHeader s cbuf with
  | fill => exact .inl ⟨rfl, rfl⟩
  | bad => exact .inr (.inr (.inl ⟨rfl, rfl⟩))
  | header hdr q =>
    have hparse : (dispatch h').parse t cbuf hdr q = (dispatch h).parse s cbuf hdr q :=
      parse_twin ht ha.received cbuf hdr q
    simp only [hparse]
    cases hp : (dispatch h).parse s cbuf hdr q with
    | fill => exact .inl ⟨rfl, rfl⟩
    | bad => exact .inr (.inr (.inl ⟨rfl, rfl⟩))
    | abort => exact .inr (.inr (.inr (.inl ⟨rfl, rfl⟩)))
    | msg r p =>
      simp only [ha.replyLen]
      by_cases hw : (dispatch h).waitsForReplies r = true ∧ 0 < s.replyLen
      · have hw' : (dispatch h').waitsForReplies r = true ∧ 0 < s.replyLen := hw
        rw [if_pos hw, if_pos hw']
        exact .inr (.inl ⟨rfl, rfl⟩)
      · have hw' : ¬ ((dispatch h').waitsForReplies r = true ∧ 0 < s.replyLen) := hw
        rw [if_neg hw, if_neg hw']
        exact .inr (.inr (.inr (.inr ⟨r, q, p, ⟨⟨hdr, hscan, hp⟩, hw⟩, rfl, rfl⟩)))

end Versal
end Xvc
