import Xvc.Dpc.Contain
import Xvc.Server.Common
import Xvc.Server.Options
import Xvc.Versal.Act
import Xvc.Versal.XvcMem

/-!
# The `configure:` of both servers

* `configure_accepts_grammar`: in every state of a connection to either server.
* `configure_inside_iff_room`: the branch stays inside the receive buffer exactly when a byte is left
  behind the message.
-/

namespace Xvc

open ByteMem Server

variable {σ τ : Type}

/-! ## The branch in `mem/versal` -/

namespace Versal

theorem sameOptions_setLocked (s : Server σ) (v : Int) : SameOptions s.c (setLocked s v).c := by
  unfold setLocked
  exact sameOptions_unlessFailed ⟨rfl, rfl⟩

theorem sameOptions_act (h : XvcServerHandlers σ) (s : Server σ) (r : Request) :
    (∃ declared p, r = .configure declared p) ∨ SameOptions s.c (act h s r).c := by
  cases r with
  | configure declared p => exact .inl ⟨declared, p, rfl⟩
  | getinfo => exact .inr (.refl s.c)
  | capabilities => exact .inr (.refl s.c)
  | error => exact .inr ⟨rfl, rfl⟩
  | lock timeout =>
    refine .inr (sameOptions_unlessFailed ?_)
    split
    · exact ⟨rfl, rfl⟩
    split
    · exact ⟨rfl, rfl⟩
    · exact (sameOptions_callOrNull s _ _).trans (sameOptions_setLocked _ 1)
  | unlock =>
    refine .inr (sameOptions_unlessFailed ?_)
    split
    · exact ⟨rfl, rfl⟩
    split
    · exact ⟨rfl, rfl⟩
    · exact (sameOptions_callOrNull s _ _).trans (sameOptions_setLocked _ 0)
  | shift bits p => exact .inr (sameOptions_unlessFailed (sameOptions_callback s _ _))
  | settck nsperiod => exact .inr (sameOptions_unlessFailed (sameOptions_callback s _ _))
  | rshift instruction flags state count p => exact .inr (sameOptions_unlessFailed (sameOptions_callOrNull s _ _))
  | state flags state count => exact .inr (sameOptions_unlessFailed (sameOptions_callOrNull s _ _))
  | mrd flags addr numBytes => exact .inr (sameOptions_unlessFailed (sameOptions_callOrNull s _ _))
  | mwr flags addr numBytes p => exact .inr (sameOptions_unlessFailed (sameOptions_callOrNull s _ _))

theorem configBranch (h : XvcServerHandlers σ) : ConfigBranch (dispatch h) Request.configure (lockingAvailable h) where
  keeps := keepsBuffer h
  inj heq := by
    cases heq
    exact ⟨rfl, rfl⟩
  parse_configure _ _ _ := parse_configure (h := h)
  parse hm := (parse_branch hm).2.1 _ _ rfl
  waits _ _ := rfl
  exec _ _ _ := rfl
  other s r := (sameOptions_act h s r).imp_right fun hsame => hsame.trans (.of_replied (exec_replied h s r))

end Versal

/-! ## The branch in `dpc` -/

namespace Dpc

theorem sameOptions_exec (h : XvcServerHandlers σ) (s : Server σ) (r : Request) :
    (∃ declared p, r = .configure declared p) ∨ SameOptions s.c (exec h s r).c := by
  cases r with
  | configure declared p => exact .inl ⟨declared, p, rfl⟩
  | getinfo => exact .inr (.of_replied ((replied_store _ _).trans (replied_extend _)))
  | capabilities => exact .inr (.of_replied ((replied_replyUleb128 _).trans (replied_replyBytes _)))
  | error =>
    have herror : Replied s.clearError (execError s) :=
      ((replied_replyUleb128 _).trans (replied_replyBytes _)).clearError
    exact .inr ((show SameOptions s.c s.clearError.c from ⟨rfl, rfl⟩).trans (.of_replied herror))
  | edpc flags =>
    refine .inr ?_
    simp only [exec, execEdpc]
    generalize callEdpc h s flags = r
    have hcall : SameOptions s.c (s.unlessFailed fun s => callOrNull s (h.edpc.map fun _ => r.call) (.edpc flags)).c :=
      sameOptions_unlessFailed (sameOptions_callOrNull s _ _)
    refine hcall.trans (.of_replied ?_)
    generalize (s.unlessFailed fun s => callOrNull s (h.edpc.map fun _ => r.call) (.edpc flags)) = t
    refine (replied_replyUleb128 (s := t) (u32 r.numWords)).trans ?_
    generalize t.replyUleb128 (u32 r.numWords) = u
    cases r.buf with
    | none => exact (replied_replyData _).trans replied_replyStatus
    | some b => exact ((replied_store _ _).trans (replied_replyData _)).trans replied_replyStatus
  | idpc flags numWords p =>
    exact .inr ((sameOptions_unlessFailed (sameOptions_callOrNull s _ _)).trans (.of_replied replied_replyStatus))

theorem parse_eq_configure {h : XvcServerHandlers σ} {s : Server σ} {cbuf q declared p pend : Nat} {hdr : List UInt8}
    (hm : parse h s cbuf hdr q = .msg (.configure declared p) pend) :
    parseConfigure Request.configure s cbuf q = .msg (.configure declared p) pend := by
  rcases parse_eq_msg hm with ⟨hr, -⟩ | ⟨-, hm⟩ | ⟨-, -, hm⟩ | ⟨-, -, hm⟩
  · rcases hr with hr | hr | hr <;> cases hr
  · exact hm
  · obtain ⟨-, hr, -⟩ := check_eq_msg.mp hm
    cases hr
  · obtain ⟨-, hr, -⟩ := check_eq_msg.mp hm
    cases hr

theorem configBranch (h : XvcServerHandlers σ) : ConfigBranch (dispatch h) Request.configure (lockingAvailable h) where
  keeps := keepsBuffer h
  inj heq := by
    cases heq
    exact ⟨rfl, rfl⟩
  parse_configure _ _ _ := parse_configure (h := h)
  parse := parse_eq_configure
  waits _ _ := rfl
  exec _ _ _ := rfl
  other := sameOptions_exec h

end Dpc

/-! ## Both servers -/

/-- **`configure:`** accepts exactly its grammar: for either server, with any handlers, in every state of a
connection, and for a text of any length and content; a complete message is executed. -/
theorem configure_accepts_grammar (h : Versal.XvcServerHandlers σ) (h' : Dpc.XvcServerHandlers τ) (rx : RxBuffer)
    (data : σ) (data' : τ) (error : Option (List UInt8)) (mem replyBuf : ByteMem) :
    (∀ c, Relation.ReflTransGen (Conn.Step (Versal.protocol h)) (.opened rx mem data error replyBuf) c →
      FollowsGrammar (Versal.dispatch h) .configure (Versal.lockingAvailable h) c.s) ∧
    ∀ c, Relation.ReflTransGen (Conn.Step (Dpc.protocol h')) (.opened rx mem data' error replyBuf) c →
      FollowsGrammar (Dpc.dispatch h') .configure (Dpc.lockingAvailable h') c.s :=
  ⟨fun _ hrun => (Versal.configBranch h).follows rfl hrun, fun _ hrun => (Dpc.configBranch h').follows rfl hrun⟩

/-- A connection to `xvc_mem` that has received `configure:status+`. -/
def statusOn : Conn ByteMem :=
  (Conn.advance (Versal.protocol (Versal.handlers Versal.defaultHub)) Conn.sendAll
    (.opened (Server.loaded () []).rx Versal.zeroHub Versal.zeroHub none Versal.zeroHub)).receive
      (ascii "configure:" ++ [7] ++ ascii "status+")

theorem statusOn_run :
    Relation.ReflTransGen (Conn.Step (Versal.protocol (Versal.handlers Versal.defaultHub)))
      (.opened (Server.loaded () []).rx Versal.zeroHub Versal.zeroHub none Versal.zeroHub) statusOn :=
  .tail (.single (.advance Conn.sendAll (rfl : _ = Phase.parse 0x1000))) (.recv rfl (by decide) (by decide))

theorem statusOn_dispatched :
    (Versal.dispatch (Versal.handlers Versal.defaultHub)).Dispatched statusOn.s 0x1000 (.configure 7 0x100b) 0x100a
      0x1012 :=
  ⟨⟨ascii "configure:", rfl, rfl⟩, fun h => absurd h.1 (by decide)⟩

/-- A `dpc` server that can lock. -/
def locking : Dpc.XvcServerHandlers Unit where
  lock := some fun _ _ => { clientData := () }
  unlock := some fun _ => { clientData := () }
  flush := none
  idpc := none
  edpc := none

/-- Four items. The third is none of the options. -/
def fourItems : List UInt8 := ascii "locking+,status+,speed+,status-"

/-- A connection to it that has received them. -/
def itemsOn : Conn Unit :=
  (Conn.advance (Dpc.protocol locking) Conn.sendAll
    (.opened (Server.loaded () []).rx Versal.zeroHub () none Versal.zeroHub)).receive
      (ascii "configure:" ++ [31] ++ fourItems)

/-- `status+` for the one, and `fourItems` for the other. -/
theorem configure_accepts_grammar_items :
    (Versal.exec (Versal.handlers Versal.defaultHub) statusOn.s (.configure 7 0x100b)).c.enableStatus = 1 ∧
    ∃ p q pend, (Dpc.dispatch locking).Dispatched itemsOn.s 0x1000 (.configure 31 p) q pend ∧
      (Dpc.exec locking itemsOn.s (.configure 31 p)).c.enableLocking = 1 ∧
      (Dpc.exec locking itemsOn.s (.configure 31 p)).c.enableStatus = 1 ∧
      (Dpc.exec locking itemsOn.s (.configure 31 p)).c.failed = true := by
  have hall := configure_accepts_grammar (Versal.handlers Versal.defaultHub) locking (Server.loaded () []).rx
    Versal.zeroHub () none Versal.zeroHub Versal.zeroHub
  refine ⟨((hall.1 statusOn statusOn_run).configured statusOn_dispatched rfl).enableStatus.trans (by decide), ?_⟩
  have hrun : Relation.ReflTransGen (Conn.Step (Dpc.protocol locking))
      (.opened (Server.loaded () []).rx Versal.zeroHub () none Versal.zeroHub) itemsOn :=
    .tail (.single (.advance Conn.sendAll (rfl : _ = Phase.parse 0x1000))) (.recv rfl (by decide) (by decide))
  have hh : Holds itemsOn.s 0x1000
      (ascii "configure:" ++ (Uleb.enc [⟨[31], by decide, by decide⟩] ++ fourItems ++ [])) := by
    exact ⟨by decide, by decide, by decide⟩
  obtain ⟨p, q, pend, hd, htext⟩ := (hall.2 itemsOn hrun).complete rfl (by decide) hh
  have hconf := (hall.2 itemsOn hrun).configured hd rfl
  rw [htext] at hconf
  refine ⟨p, q, pend, hd, hconf.enableLocking.trans (by decide), hconf.enableStatus.trans (by decide), ?_⟩
  exact hconf.error.mpr (by decide)

/-- **The branch** of `mem/versal` reads and writes only inside the receive buffer, and leaves what follows
the message as it was, if and only if the message does not end with the buffer. -/
theorem configure_inside_iff_room (h : Versal.XvcServerHandlers σ) (s : Server σ) (cbuf declared p q pend : Nat)
    (hlen : s.bufLen ≤ s.rx.bufMax) (hbuf : s.rx.buf ≤ cbuf)
    (hd : (Versal.dispatch h).Dispatched s cbuf (.configure declared p) q pend) :
    ((∀ a ∈ configureTouches (Versal.lockingAvailable h) s.mem p pend s.c,
          s.rx.buf ≤ a ∧ a < s.rx.buf + s.rx.bufMax) ∧
        ∀ a, pend ≤ a → (Versal.exec h s (.configure declared p)).mem a = s.mem a) ↔
      pend < s.rx.buf + s.rx.bufMax := by
  obtain ⟨hp, hle, -, hend⟩ := (Versal.configBranch h).ends hlen hd
  exact configure_inside_iff (Nat.le_trans hbuf hp) hle hend

theorem configure_inside_iff_room_status :
    (∀ a ∈ configureTouches false statusOn.s.mem 0x100b 0x1012 statusOn.s.c, 0x1000 ≤ a ∧ a < 0x1000 + 10000) ∧
      ∀ a, 0x1012 ≤ a →
        (Versal.exec (Versal.handlers Versal.defaultHub) statusOn.s (.configure 7 0x100b)).mem a = statusOn.s.mem a :=
  (configure_inside_iff_room (Versal.handlers Versal.defaultHub) statusOn.s 0x1000 7 0x100b 0x100a 0x1012 (by decide)
    (by decide) statusOn_dispatched).mpr (by decide)

theorem holds_loaded (data : σ) {bytes : List UInt8} (hfit : bytes.length ≤ maxPacketLen) :
    Holds (Server.loaded data bytes) 0x1000 bytes :=
  ⟨slice_write _ _ _, rfl, hfit⟩

/-- 9988, and as many bytes. -/
def longText : List UInt8 := List.replicate 9988 43

def longLen : Uleb := ⟨[0x84, 0x4e], by decide, by decide⟩

theorem length_longText : longText.length = longLen.value := by
  unfold longText
  rw [List.length_replicate]
  decide

/-- A `configure:` of 10000 bytes. -/
def fullConfigure : List UInt8 := ascii "configure" ++ [58] ++ (Uleb.enc [longLen] ++ longText)

theorem length_fullConfigure : fullConfigure.length = maxPacketLen := by
  unfold fullConfigure
  rw [List.length_append, List.length_append, List.length_append, length_longText]
  decide

/-- Received at once it fills the buffer, and the byte behind the buffer is saved, cleared and restored. -/
theorem configure_touches_behind_buffer :
    ∃ p q pend,
      (Versal.dispatch (Versal.handlers Versal.defaultHub)).Dispatched (Server.loaded Versal.zeroHub fullConfigure)
        0x1000 (.configure longLen.value p) q pend ∧
      pend = 0x1000 + maxPacketLen ∧
      pend ∈ configureTouches false (Server.loaded Versal.zeroHub fullConfigure).mem p pend {} := by
  have hh : Holds (Server.loaded Versal.zeroHub fullConfigure) 0x1000
      (ascii "configure:" ++ (Uleb.enc [longLen] ++ longText ++ [])) := by
    rw [List.append_nil]
    exact holds_loaded _ (Nat.le_of_eq length_fullConfigure)
  refine ⟨_, _, _, (Versal.configBranch _).dispatched length_longText (by rw [length_longText]; decide) hh, ?_,
    List.mem_cons_self⟩
  rw [List.length_append, length_longText]
  decide

end Xvc
