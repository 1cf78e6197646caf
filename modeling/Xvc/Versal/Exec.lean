import Xvc.Versal.Request

/-!
# The messages of `mem/versal`: execution

The second half of each branch of the loop of `mem/versal/src/xvcserver.c`: the handler call, the
error latch, and the reply at `reply_buf + reply_len`. `dispatch` joins both halves, and `protocol`
is the server's `read_packet`.
-/

namespace Xvc
namespace Versal

open ByteMem

variable {σ : Type}

/-- `c->handlers->lock && c->handlers->unlock`. -/
def lockingAvailable (h : XvcServerHandlers σ) : Bool := h.lock.isSome && h.unlock.isSome

/-- The text of `capabilities:` (`XVC_MEM` is 1). -/
def capabilitiesText (h : XvcServerHandlers σ) : List UInt8 :=
  (if lockingAvailable h then ascii "locking," else []) ++
  (if h.registerShift.isSome ∧ h.state.isSome then ascii "state-aware," else []) ++
  ascii "memory,idcode=2315268243,status"

/-- `c->locked = v` unless an error is pending. -/
def setLocked (s : Server σ) (v : Int) : Server σ :=
  s.unlessFailed fun s => { s with c := { s.c with locked := v } }

/-- `lock:`. -/
def execLock (h : XvcServerHandlers σ) (s : Server σ) (timeout : Nat) : Server σ :=
  Server.replyStatus <| s.unlessFailed fun s =>
    if s.c.enableLocking = 0 then { s with c := s.c.setError (ascii "locking is disabled") }
    else if s.c.locked ≠ 0 then { s with c := s.c.setError (ascii "already locked") }
    else setLocked (callOrNull s (h.lock.map fun f => f s.clientData timeout) (.lock timeout)) 1

/-- `unlock:`. -/
def execUnlock (h : XvcServerHandlers σ) (s : Server σ) : Server σ :=
  Server.replyStatus <| s.unlessFailed fun s =>
    if s.c.enableLocking = 0 then { s with c := s.c.setError (ascii "locking is disabled") }
    else if s.c.locked = 0 then { s with c := s.c.setError (ascii "already unlocked") }
    else setLocked (callOrNull s (h.unlock.map fun f => f s.clientData) .unlock) 0

/-- `shift:`. The recorded operands are the bytes that `count` bits of TMS and TDI take. -/
def execShift (h : XvcServerHandlers σ) (s : Server σ) (bits p : Nat) : Server σ :=
  let bytes := shiftBytes bits
  let tdi := u64 (p + bytes)
  let s := s.unlessFailed fun s =>
    s.callback (.shiftTmsTdi bits (slice s.mem p ((bits + 7) / 8)) (slice s.mem tdi ((bits + 7) / 8)))
      (h.shiftTmsTdi s.clientData s.mem bits p tdi s.replyLen)
  (s.replyData bytes).replyOptionalStatus

/-- `settck:`. -/
def execSettck (h : XvcServerHandlers σ) (s : Server σ) (nsperiod : Nat) : Server σ :=
  let r := h.setTck s.clientData nsperiod
  let s := s.unlessFailed fun s => s.callback (.setTck nsperiod) r.1
  let resnsperiod := if s.c.failed then nsperiod else r.2
  (s.replyBytes (setUintLe 4 resnsperiod)).replyOptionalStatus

/-- `irshift:` and `drshift:`, dispatched only with `register_shift`. -/
def execRshift (h : XvcServerHandlers σ) (s : Server σ) (instruction : Bool) (flags state count p : Nat) :
    Server σ :=
  let tdibytes := tdiBytes flags count
  let tdobytes := tdoBytes flags count
  let tdi := if tdibytes ≠ 0 then some p else none
  let tdo := if tdobytes ≠ 0 then some s.replyLen else none
  let s := s.unlessFailed fun s =>
    callOrNull s (h.registerShift.map fun f =>
        f s.clientData s.mem instruction flags state count tdi tdo)
      (.registerShift instruction flags state count (slice s.mem p tdibytes))
  (s.replyData tdobytes).replyStatus

/-- `state:`, dispatched only with `state`. -/
def execState (h : XvcServerHandlers σ) (s : Server σ) (flags state count : Nat) : Server σ :=
  Server.replyStatus <| s.unlessFailed fun s =>
    callOrNull s (h.state.map fun f => f s.clientData flags state count) (.state flags state count)

/-- `mrd:`, dispatched only with `mrd`. -/
def execMrd (h : XvcServerHandlers σ) (s : Server σ) (flags addr numBytes : Nat) : Server σ :=
  let s := s.unlessFailed fun s =>
    callOrNull s (h.mrd.map fun f => f s.clientData flags addr numBytes s.replyLen)
      (.mrd flags addr numBytes)
  (s.replyData numBytes).replyStatus

/-- `mwr:`, dispatched only with `mwr`. -/
def execMwr (h : XvcServerHandlers σ) (s : Server σ) (flags addr numBytes p : Nat) : Server σ :=
  Server.replyStatus <| s.unlessFailed fun s =>
    callOrNull s (h.mwr.map fun f => f s.clientData s.mem flags addr numBytes p)
      (.mwr flags addr numBytes (slice s.mem p numBytes))

/-- The second half of a branch. -/
def exec (h : XvcServerHandlers σ) (s : Server σ) : Request → Server σ
  | .getinfo => execGetinfo s
  | .capabilities => execCapabilities (capabilitiesText h) s
  | .configure declared p => execConfigure (lockingAvailable h) s declared p
  | .error => execError s
  | .lock timeout => execLock h s timeout
  | .unlock => execUnlock h s
  | .shift bits p => execShift h s bits p
  | .settck nsperiod => execSettck h s nsperiod
  | .rshift instruction flags state count p => execRshift h s instruction flags state count p
  | .state flags state count => execState h s flags state count
  | .mrd flags addr numBytes => execMrd h s flags addr numBytes
  | .mwr flags addr numBytes p => execMwr h s flags addr numBytes p

/-! ## No request but `configure:` touches what was received -/

theorem received_setLocked (s : Server σ) (v : Int) : (setLocked s v).received = s.received :=
  Server.received_unlessFailed rfl

theorem received_execLock (h : XvcServerHandlers σ) (s : Server σ) (timeout : Nat) :
    (execLock h s timeout).received = s.received := by
  unfold execLock
  rw [Server.received_replyStatus, Server.received_unlessFailed]
  split
  · rfl
  split
  · rfl
  · rw [received_setLocked, received_callOrNull]

theorem received_execUnlock (h : XvcServerHandlers σ) (s : Server σ) :
    (execUnlock h s).received = s.received := by
  unfold execUnlock
  rw [Server.received_replyStatus, Server.received_unlessFailed]
  split
  · rfl
  split
  · rfl
  · rw [received_setLocked, received_callOrNull]

theorem received_execShift (h : XvcServerHandlers σ) (s : Server σ) (bits p : Nat) :
    (execShift h s bits p).received = s.received := by
  unfold execShift
  rw [Server.received_replyOptionalStatus, Server.received_replyData, Server.received_unlessFailed]
  rw [Server.received_callback]

theorem received_execSettck (h : XvcServerHandlers σ) (s : Server σ) (nsperiod : Nat) :
    (execSettck h s nsperiod).received = s.received := by
  unfold execSettck
  rw [Server.received_replyOptionalStatus, Server.received_replyBytes, Server.received_unlessFailed]
  rw [Server.received_callback]

theorem received_execRshift (h : XvcServerHandlers σ) (s : Server σ) (instruction : Bool)
    (flags state count p : Nat) :
    (execRshift h s instruction flags state count p).received = s.received := by
  unfold execRshift
  rw [Server.received_replyStatus, Server.received_replyData, Server.received_unlessFailed]
  rw [received_callOrNull]

theorem received_execState (h : XvcServerHandlers σ) (s : Server σ) (flags state count : Nat) :
    (execState h s flags state count).received = s.received := by
  unfold execState
  rw [Server.received_replyStatus, Server.received_unlessFailed]
  rw [received_callOrNull]

theorem received_execMrd (h : XvcServerHandlers σ) (s : Server σ) (flags addr numBytes : Nat) :
    (execMrd h s flags addr numBytes).received = s.received := by
  unfold execMrd
  rw [Server.received_replyStatus, Server.received_replyData, Server.received_unlessFailed]
  rw [received_callOrNull]

theorem received_execMwr (h : XvcServerHandlers σ) (s : Server σ) (flags addr numBytes p : Nat) :
    (execMwr h s flags addr numBytes p).received = s.received := by
  unfold execMwr
  rw [Server.received_replyStatus, Server.received_unlessFailed]
  rw [received_callOrNull]

/-- The `lock:` branch leaves the loop when a reply is pending. -/
def Request.waitsForReplies : Request → Bool
  | .lock _ => true
  | _ => false

/-- The branches of `mem/versal`. -/
def dispatch (h : XvcServerHandlers σ) : Dispatch σ Request where
  parse := parse h
  exec := exec h
  waitsForReplies := Request.waitsForReplies

/-- The server of `mem/versal`. -/
def protocol (h : XvcServerHandlers σ) : Protocol σ where
  iter := (dispatch h).iter
  flush := h.flush

end Versal
end Xvc
