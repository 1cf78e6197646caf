import Xvc.Server.Reply
import Xvc.Versal.Contain

/-!
# What a request does before its reply

The second half of a branch first acts, on the client record or through a callback, and then replies.
`act` is the first of these. A reply only stores to the reply buffer (`Server.Replied`), so the calls of a
request and its effect on the client record are those of `act`: `exec_replied`. `acts_act` says once
what it can do.
-/

namespace Xvc

open ByteMem

variable {σ : Type}

/-- The calls that are not about the lock. -/
def Call.Plain : Call → Prop
  | .lock _ | .unlock => False
  | _ => True

namespace Versal

open Server

variable {h : XvcServerHandlers σ} {s : Server σ} {r : Request}

/-- What a request does to the client record and which handler it calls. -/
def act (h : XvcServerHandlers σ) (s : Server σ) : Request → Server σ
  | .getinfo | .capabilities => s
  | .configure declared p =>
    let r := configure (lockingAvailable h) s.mem p (u64 (p + u32 declared)) s.c
    { s with mem := r.1, c := r.2 }
  | .error => s.clearError
  | .lock timeout => s.unlessFailed fun s =>
    if s.c.enableLocking = 0 then { s with c := s.c.setError (ascii "locking is disabled") }
    else if s.c.locked ≠ 0 then { s with c := s.c.setError (ascii "already locked") }
    else setLocked (callOrNull s (h.lock.map fun f => f s.clientData timeout) (.lock timeout)) 1
  | .unlock => s.unlessFailed fun s =>
    if s.c.enableLocking = 0 then { s with c := s.c.setError (ascii "locking is disabled") }
    else if s.c.locked = 0 then { s with c := s.c.setError (ascii "already unlocked") }
    else setLocked (callOrNull s (h.unlock.map fun f => f s.clientData) .unlock) 0
  | .shift bits p =>
    let tdi := u64 (p + shiftBytes bits)
    s.unlessFailed fun s =>
      s.callback (.shiftTmsTdi bits (slice s.mem p ((bits + 7) / 8)) (slice s.mem tdi ((bits + 7) / 8)))
        (h.shiftTmsTdi s.clientData s.mem bits p tdi s.replyLen)
  | .settck nsperiod => s.unlessFailed fun s => s.callback (.setTck nsperiod) (h.setTck s.clientData nsperiod).1
  | .rshift instruction flags state count p =>
    let tdi := if tdiBytes flags count ≠ 0 then some p else none
    let tdo := if tdoBytes flags count ≠ 0 then some s.replyLen else none
    s.unlessFailed fun s =>
      callOrNull s (h.registerShift.map fun f => f s.clientData s.mem instruction flags state count tdi tdo)
        (.registerShift instruction flags state count (slice s.mem p (tdiBytes flags count)))
  | .state flags state count => s.unlessFailed fun s =>
    callOrNull s (h.state.map fun f => f s.clientData flags state count) (.state flags state count)
  | .mrd flags addr numBytes => s.unlessFailed fun s =>
    callOrNull s (h.mrd.map fun f => f s.clientData flags addr numBytes s.replyLen) (.mrd flags addr numBytes)
  | .mwr flags addr numBytes p => s.unlessFailed fun s =>
    callOrNull s (h.mwr.map fun f => f s.clientData s.mem flags addr numBytes p)
      (.mwr flags addr numBytes (slice s.mem p numBytes))

/-- The rest of a request is its reply. -/
theorem exec_replied (h : XvcServerHandlers σ) (s : Server σ) (r : Request) : Replied (act h s r) (exec h s r) := by
  cases r with
  | getinfo => exact (replied_store _ _).trans (replied_extend _)
  | capabilities => exact (replied_replyUleb128 _).trans (replied_replyBytes _)
  | error => exact ((replied_replyUleb128 _).trans (replied_replyBytes _)).clearError
  | shift bits p => exact (replied_replyData _).trans replied_replyOptionalStatus
  | settck nsperiod => exact (replied_replyBytes _).trans replied_replyOptionalStatus
  | rshift instruction flags state count p => exact replied_status (replied_replyData _)
  | mrd flags addr numBytes => exact replied_status (replied_replyData _)
  | configure declared p => exact replied_replyStatus
  | lock timeout => exact replied_replyStatus
  | unlock => exact replied_replyStatus
  | state flags state count => exact replied_replyStatus
  | mwr flags addr numBytes p => exact replied_replyStatus

/-- The handler that a request is dispatched with. -/
def Request.Available (h : XvcServerHandlers σ) : Request → Prop
  | .rshift _ _ _ _ _ => h.registerShift.isSome
  | .state _ _ _ => h.state.isSome
  | .mrd _ _ _ => h.mrd.isSome
  | .mwr _ _ _ _ => h.mwr.isSome
  | _ => True

/-- The branch that a request comes from. -/
theorem parse_branch {cbuf q p : Nat} {hdr : List UInt8} (hm : parse h s cbuf hdr q = .msg r p) :
    r.Available h ∧
      (∀ declared o, r = .configure declared o → parseConfigure Request.configure s cbuf q = .msg r p) ∧
      ∀ bits o, r = .shift bits o → parseShift s cbuf q = .msg r p := by
  rcases parse_eq_msg hm with ⟨hr, -⟩ | ⟨-, hm⟩ | ⟨-, hm⟩ | ⟨-, hm⟩ | ⟨-, hm⟩ | ⟨-, hav, hm⟩ | ⟨-, hav, hm⟩ |
    ⟨-, hav, hm⟩ | ⟨-, hav, hm⟩
  · rcases hr with rfl | rfl | rfl | rfl <;> exact ⟨trivial, nofun, nofun⟩
  · obtain ⟨-, rfl, -⟩ := parseConfigure_eq_msg.mp hm
    exact ⟨trivial, fun _ _ _ => hm, nofun⟩
  · obtain ⟨-, rfl, -⟩ := check_eq_msg.mp hm
    exact ⟨trivial, nofun, nofun⟩
  · have hshift := hm
    unfold parseShift at hm
    split at hm
    · cases hm
    · obtain ⟨-, rfl, -⟩ := check_eq_msg.mp hm
      exact ⟨trivial, nofun, fun _ _ _ => hshift⟩
  · unfold parseSettck at hm
    split at hm
    · cases hm
    · cases hm
      exact ⟨trivial, nofun, nofun⟩
  · obtain ⟨-, rfl, -⟩ := check_eq_msg.mp hm
    exact ⟨hav, nofun, nofun⟩
  · obtain ⟨-, rfl, -⟩ := check_eq_msg.mp hm
    exact ⟨hav, nofun, nofun⟩
  · obtain ⟨-, rfl, -⟩ := check_eq_msg.mp hm
    exact ⟨hav, nofun, nofun⟩
  · obtain ⟨-, rfl, -⟩ := check_eq_msg.mp hm
    exact ⟨hav, nofun, nofun⟩

theorem parse_available {cbuf q p : Nat} {hdr : List UInt8} (hm : parse h s cbuf hdr q = .msg r p) :
    r.Available h := (parse_branch hm).1

/-! ## The cases -/

/-- What a request did to `s`. -/
inductive Acts (h : XvcServerHandlers σ) (s : Server σ) : Request → Server σ → Prop
  /-- No handler was called. -/
  | none {r : Request} {t : Server σ} (htrace : t.trace = s.trace) (hdata : t.clientData = s.clientData)
      (hlocked : t.c.locked = s.c.locked)
      (henable : t.c.enableLocking = s.c.enableLocking ∨ lockingAvailable h) : Acts h s r t
  | plain {r : Request} {c : Call} {x : CallResult σ} (hc : Call.Plain c) (hf : s.c.failed = false) :
      Acts h s r (s.callback c x)
  | lock {timeout : Nat} {f : σ → Nat → CallResult σ} (hlock : h.lock = some f) (hf : s.c.failed = false)
      (henable : s.c.enableLocking ≠ 0) (hfree : s.c.locked = 0) :
      Acts h s (.lock timeout) (setLocked (s.callback (.lock timeout) (f s.clientData timeout)) 1)
  | unlock {f : σ → CallResult σ} (hunlock : h.unlock = some f) (hf : s.c.failed = false)
      (henable : s.c.enableLocking ≠ 0) (hheld : s.c.locked ≠ 0) :
      Acts h s .unlock (setLocked (s.callback .unlock (f s.clientData)) 0)

theorem Acts.refl (r : Request) : Acts h s r s := .none rfl rfl rfl (.inl rfl)

theorem Acts.unlessFailed {f : Server σ → Server σ} (hf : s.c.failed = false → Acts h s r (f s)) :
    Acts h s r (s.unlessFailed f) := by
  unfold Server.unlessFailed
  cases hs : s.c.failed with
  | true => exact .refl r
  | false => exact hf hs

theorem Acts.plainOrNull {c : Call} {f : Option (CallResult σ)} (hc : Call.Plain c) (hav : f.isSome)
    (hf : s.c.failed = false) : Acts h s r (callOrNull s f c) := by
  obtain ⟨x, rfl⟩ := Option.isSome_iff_exists.mp hav
  exact .plain hc hf

theorem acts_act (hav : r.Available h) (hl : s.c.enableLocking ≠ 0 → lockingAvailable h) : Acts h s r (act h s r) := by
  have hmap : ∀ {α β : Type} {o : Option α} (g : α → β), o.isSome → (o.map g).isSome := by simp
  cases r with
  | getinfo => exact .refl _
  | capabilities => exact .refl _
  | configure declared p =>
    obtain ⟨hlocked, henable⟩ := configure_keeps (lockingAvailable h) s.mem p (u64 (p + u32 declared)) s.c
    exact .none rfl rfl hlocked henable
  | error => exact .none rfl rfl rfl (.inl rfl)
  | lock timeout =>
    rw [act]
    refine .unlessFailed fun hf => ?_
    split
    · exact .none rfl rfl rfl (.inl rfl)
    split
    · exact .none rfl rfl rfl (.inl rfl)
    next henable hlocked =>
      have hboth := hl henable
      simp only [lockingAvailable, Bool.and_eq_true] at hboth
      obtain ⟨f, hf'⟩ := Option.isSome_iff_exists.mp hboth.1
      rw [hf']
      exact .lock hf' hf henable (by omega)
  | unlock =>
    rw [act]
    refine .unlessFailed fun hf => ?_
    split
    · exact .none rfl rfl rfl (.inl rfl)
    split
    · exact .none rfl rfl rfl (.inl rfl)
    next henable hlocked =>
      have hboth := hl henable
      simp only [lockingAvailable, Bool.and_eq_true] at hboth
      obtain ⟨f, hf'⟩ := Option.isSome_iff_exists.mp hboth.2
      rw [hf']
      exact .unlock hf' hf henable hlocked
  | shift bits p =>
    rw [act]
    refine .unlessFailed fun hf => ?_
    exact .plain trivial hf
  | settck nsperiod =>
    rw [act]
    refine .unlessFailed fun hf => ?_
    exact .plain trivial hf
  | rshift instruction flags state count p =>
    rw [act]
    refine .unlessFailed fun hf => ?_
    exact .plainOrNull trivial (hmap _ hav) hf
  | state flags state count =>
    rw [act]
    refine .unlessFailed fun hf => ?_
    exact .plainOrNull trivial (hmap _ hav) hf
  | mrd flags addr numBytes =>
    rw [act]
    refine .unlessFailed fun hf => ?_
    exact .plainOrNull trivial (hmap _ hav) hf
  | mwr flags addr numBytes p =>
    rw [act]
    refine .unlessFailed fun hf => ?_
    exact .plainOrNull trivial (hmap _ hav) hf

end Versal
end Xvc
