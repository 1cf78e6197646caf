import Xvc.Dpc.Handle
import Xvc.Server.Latch

/-!
# The error latch of `dpc`

The counterpart of `Xvc/Versal/Latch.lean`. With an error pending `edpc:` announces a packet of no words.
-/

namespace Xvc
namespace Dpc

open ByteMem Stream Server

variable {σ : Type} {h : XvcServerHandlers σ} {rx : RxBuffer} {s t : Server σ} {cbuf p : Nat} {m : Msg}
  {rest : List UInt8}

namespace Msg

/-- The status byte of the reply. -/
def statusKind : Msg → StatusKind
  | getinfo | capabilities | error => .never
  | _ => .always

/-- The reply with an error pending, without its status. -/
def latchedData (h : XvcServerHandlers σ) (bufMax : Nat) : Msg → List UInt8
  | getinfo => getinfoText bufMax
  | capabilities => Leb128.encode 10 (capabilitiesText h).length ++ capabilitiesText h
  | edpc _ => Leb128.encode 10 0
  | _ => []

/-- The reply with an error pending: status 1, if there is one. -/
def latchedReply (h : XvcServerHandlers σ) (bufMax : Nat) (m : Msg) (c : XvcClient) : List UInt8 :=
  m.latchedData h bufMax ++ List.replicate (m.statusKind.bytes c) 1

end Msg

/-- Handlers that do nothing. -/
def Callbacks.idle : Callbacks σ where
  edpc d _ := ({ data := d }, 0, fun _ => 0)
  idpc d _ _ _ := { data := d }

/-- With an error pending a message calls nothing and changes nothing. -/
theorem handle_of_failed (h : XvcServerHandlers σ) (cb : Callbacks σ) (bufMax : Nat) (hm : m ≠ .error)
    {a : Core σ} (hf : a.c.failed = true) :
    handle h cb bufMax m a = { core := a, reply := m.latchedReply h bufMax a.c } := by
  cases m with
  | getinfo => simp [handle, Msg.latchedReply, Msg.latchedData, Msg.statusKind, StatusKind.bytes]
  | capabilities => simp [handle, Msg.latchedReply, Msg.latchedData, Msg.statusKind, StatusKind.bytes]
  | configure len text ht =>
    simp only [handle, applyConfig_of_failed text hf]
    exact Outcome.withStatus_of_failed hf []
  | error => exact absurd rfl hm
  | edpc flags =>
    simp only [handle, handleEdpc, if_pos hf]
    exact Outcome.withStatus_of_failed hf _
  | idpc flags numWords data _ =>
    simp only [handle, Outcome.ofCall_of_failed hf]
    exact Outcome.withStatus_of_failed hf []

/-- The other bytes of a reply. -/
def dataSize (h : XvcServerHandlers σ) (s : Server σ) : Request → Nat
  | .getinfo => (getinfoText s.rx.bufMax).length
  | .capabilities => (Leb128.encode 10 (capabilitiesText h).length).length + (capabilitiesText h).length
  | .error => (Leb128.encode 10 (errorBytes s.rx.bufMax s.c)).length + errorBytes s.rx.bufMax s.c
  | .edpc flags =>
    (Leb128.encode 10 (u32 (callEdpc h s flags).numWords)).length + u64 ((callEdpc h s flags).numWords * 4)
  | .configure _ _ | .idpc _ _ _ => 0

theorem execEdpc_answers (h : XvcServerHandlers σ) (s : Server σ) (flags : Nat) :
    Answers s .always (dataSize h s (.edpc flags)) (execEdpc h s flags) := by
  unfold execEdpc
  simp only [dataSize]
  generalize callEdpc h s flags = r
  have hcall : (s.unlessFailed fun s => callOrNull s (h.edpc.map fun _ => r.call) (.edpc flags)).replyState =
      s.replyState := replyState_unlessFailed (replyState_callOrNull _ _ _)
  generalize (s.unlessFailed fun s => callOrNull s (h.edpc.map fun _ => r.call) (.edpc flags)) = t at hcall ⊢
  obtain ⟨hlen, hstatus⟩ := Prod.mk.inj hcall
  have hu := replyLen_replyUleb128 t (u32 r.numWords)
  have hdata : ∀ u : Server σ, u.replyLen = (t.replyUleb128 (u32 r.numWords)).replyLen →
      Answers s .always ((Leb128.encode 10 (u32 r.numWords)).length + u64 (r.numWords * 4))
        (u.replyData (u64 (r.numWords * 4))).replyStatus := by
    intro u hul
    have hd : (u.replyData (u64 (r.numWords * 4))).replyLen = u32 (u.replyLen + u64 (r.numWords * 4)) := by
      unfold replyData
      split <;> rfl
    refine ⟨u.replyData (u64 (r.numWords * 4)), ?_, nofun, rfl⟩
    rw [hd, hul, hu, hlen]
    unfold u32
    rw [Nat.mod_add_mod, Nat.add_assoc]
  cases r.buf with
  | none => exact hdata _ rfl
  | some b => exact hdata _ rfl

/-- Any handlers, any state: a request appends `dataSize` bytes and its status. -/
theorem exec_answers (h : XvcServerHandlers σ) (hs : s.replyLen < 2 ^ 32) (m : Msg) :
    Answers s m.statusKind (dataSize h s (m.request p)) (exec h s (m.request p)) := by
  cases m with
  | getinfo => exact .never rfl
  | capabilities => exact .never (replyLen_replyUlebBytes s _ _)
  | configure len text ht => exact .of_replyLen hs rfl
  | error =>
    have hu : (execError s).replyLen = _ := replyLen_replyUlebBytes s _ _
    rw [length_errorText] at hu
    exact .never hu
  | edpc flags => exact execEdpc_answers h s _
  | idpc flags numWords data hd =>
    exact .of_replyLen hs (replyLen_of_replyState (replyState_unlessFailed (replyState_callOrNull _ _ _)))

end Dpc
end Xvc
