import Xvc.Server.Latch
import Xvc.Versal.Fragmentation
import Xvc.Versal.ReplyBound

/-!
# The error latch of `mem/versal`

`latch` is how this server answers with an error pending, and `handle_of_failed` that each message does
no more than that. The length of a reply does not depend on the error (`replyLen_of_iter`), for any
handlers.
-/

namespace Xvc
namespace Versal

open ByteMem Stream Server

variable {σ : Type} {h : XvcServerHandlers σ} {rx : RxBuffer} {s t : Server σ} {cbuf p : Nat} {m : Msg}
  {rest : List UInt8}

namespace Msg

/-- The status byte of the reply. -/
def statusKind (m : Msg) : StatusKind := (m.request 0).statusKind

/-- The reply with an error pending, without its status: zeros for data. -/
def latchedData (h : XvcServerHandlers σ) (bufMax : Nat) : Msg → List UInt8
  | getinfo => getinfoText bufMax
  | capabilities => Leb128.encode 10 (capabilitiesText h).length ++ capabilitiesText h
  | shift bits _ _ _ _ _ => List.replicate ((bits + 7) / 8) 0
  | settck nsperiod _ => setUintLe 4 nsperiod
  | rshift _ flags _ count _ _ => List.replicate (tdoBytes (u32 flags.value) count.value) 0
  | mrd _ _ numBytes => List.replicate numBytes.value 0
  | _ => []

/-- The reply with an error pending: status 1, if there is one. -/
def latchedReply (h : XvcServerHandlers σ) (bufMax : Nat) (m : Msg) (c : XvcClient) : List UInt8 :=
  m.latchedData h bufMax ++ List.replicate (m.statusKind.bytes c) 1

end Msg

/-- Handlers that do nothing. -/
def Callbacks.idle : Callbacks σ where
  setTck d nsperiod := ({ data := d }, nsperiod)
  shiftTmsTdi d _ _ _ := ({ data := d }, fun _ => 0)
  lock d _ := { data := d }
  unlock d := { data := d }
  registerShift d _ _ _ _ _ := ({ data := d }, fun _ => 0)
  state d _ _ _ := { data := d }
  mrd d _ _ _ := ({ data := d }, fun _ => 0)
  mwr d _ _ _ _ := { data := d }

theorem withOptionalStatus_of_failed {a : Core σ} (hf : a.c.failed = true) (l : List UInt8) :
    ({ core := a, reply := l } : Outcome (Core σ)).withOptionalStatus =
      { core := a, reply := l ++ List.replicate (StatusKind.optional.bytes a.c) 1 } := by
  unfold Outcome.withOptionalStatus StatusKind.bytes
  by_cases he : a.c.enableStatus = 0
  · simp [he]
  · simp [he, Outcome.withStatus_of_failed hf]

/-- With an error pending a message calls nothing and changes nothing. -/
theorem handle_of_failed (h : XvcServerHandlers σ) (cb : Callbacks σ) (bufMax : Nat) (hm : m ≠ .error)
    {a : Core σ} (hf : a.c.failed = true) :
    handle h cb bufMax m a = { core := a, reply := m.latchedReply h bufMax a.c } := by
  cases m with
  | getinfo => simp [handle, Msg.latchedReply, Msg.latchedData, Msg.statusKind, Msg.request, Request.statusKind,
      StatusKind.bytes]
  | capabilities => simp [handle, Msg.latchedReply, Msg.latchedData, Msg.statusKind, Msg.request,
      Request.statusKind, StatusKind.bytes]
  | configure len text ht =>
    simp only [handle, applyConfig_of_failed text hf]
    exact Outcome.withStatus_of_failed hf []
  | error => exact absurd rfl hm
  | lock timeout =>
    simp only [handle, handleLock, if_pos hf]
    exact Outcome.withStatus_of_failed hf []
  | unlock =>
    simp only [handle, handleUnlock, if_pos hf]
    exact Outcome.withStatus_of_failed hf []
  | shift bits tms tdi _ _ _ =>
    simp only [handle, Outcome.ofData_of_failed hf, length_slice]
    exact withOptionalStatus_of_failed hf _
  | settck nsperiod _ =>
    simp only [handle, handleSettck, Outcome.ofCall_of_failed hf, if_pos hf]
    exact withOptionalStatus_of_failed hf _
  | rshift instruction flags st count tdi _ =>
    simp only [handle, Outcome.ofData_of_failed hf, length_slice]
    exact Outcome.withStatus_of_failed hf _
  | state flags st count =>
    simp only [handle, Outcome.ofCall_of_failed hf]
    exact Outcome.withStatus_of_failed hf []
  | mrd flags addr numBytes =>
    simp only [handle, Outcome.ofData_of_failed hf, length_slice]
    exact Outcome.withStatus_of_failed hf _
  | mwr flags addr numBytes data _ =>
    simp only [handle, Outcome.ofCall_of_failed hf]
    exact Outcome.withStatus_of_failed hf []

end Versal
end Xvc
