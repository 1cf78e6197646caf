import Xvc.Dpc.Handle
import Xvc.Server.Split

/-!
# Fragmentation and pipelining in `dpc`

The counterpart of `Xvc/Versal/Fragmentation.lean`, with less asked of the replies: those to the messages that one
chunk completes fit the reply buffer.
-/

namespace Xvc
namespace Dpc

open ByteMem Stream

variable {σ : Type}

/-- **Fragmentation and pipelining.** A new connection to the server of `dpc` gets well-formed messages in any chunks.
It has sent the same bytes, made the same handler calls and come to the same client record and implementation state as
the connection that gets the messages that are complete one at a time; no further chunk that fits is refused. -/
theorem any_chunks (h : XvcServerHandlers σ) (cb : Callbacks σ) (hi : Implements h cb)
    (hq : (protocol h).QuietFlush id) (rx : RxBuffer) (data : σ) (mem replyBuf : ByteMem)
    (chunks : List (List UInt8)) (mss : List (List Msg)) (q : List UInt8) (d : Conn σ)
    (hb : Batched Msg.enc (fun m => m.WellFormed h rx) [] chunks mss q) (hms : ∀ m ∈ mss.flatten, m.WellFormed h rx)
    (hfit : (wire h cb rx.bufMax).BatchesFit mss ⟨{}, data⟩) :
    let session := (Conn.start rx data mem replyBuf).Session (protocol h)
    session chunks d →
      d.phase = .recv ∧
        (∃ u, session (mss.flatten.map Msg.enc) u ∧ sentOf d.s.trace = sentOf u.s.trace ∧
          callsOf d.s.trace = callsOf u.s.trace ∧ d.s.c = u.s.c ∧ d.s.clientData = u.s.clientData) ∧
        ∀ chunk ms q', chunk ≠ [] → chunk.length ≤ d.s.room → q ++ chunk = ms.flatMap Msg.enc ++ q' →
          Tail Msg.enc (fun m => m.WellFormed h rx) q' → (∀ m ∈ ms, m.WellFormed h rx) →
          ((wire h cb rx.bufMax).run ms ⟨d.s.c, d.s.clientData⟩).reply.length ≤ maxPacketLen →
          ∃ e, session (chunks ++ [chunk]) e := by
  intro session hs
  have hr := (realizes (h := h) cb rx hq).mono fun m (hm : m.WellFormed h rx) => ⟨hm, hi.served m⟩
  obtain ⟨hphase, ⟨u, hu, hsent, hcalls, hcore⟩, hnext⟩ := hr.split data mem replyBuf hb hms trivial hfit hs
  exact ⟨hphase, ⟨u, hu, hsent, hcalls, congrArg Core.c hcore, congrArg Core.data hcore⟩, hnext⟩

/-- Handlers that give each packet back. -/
def mailbox : XvcServerHandlers (List (List UInt8)) where
  lock := none
  unlock := none
  flush := none
  idpc := some fun d mem _flags numWords p => { clientData := d ++ [slice mem p (numWords * 4)] }
  edpc := some fun d _flags =>
    match d with
    | [] => { call := { clientData := [] } }
    | l :: d => { call := { clientData := d }, numWords := u32 (l.length / 4), buf := some (write (fun _ => 0) 0 l) }

def mailboxCallbacks : Callbacks (List (List UInt8)) where
  idpc d _flags _numWords data := { data := d ++ [data] }
  edpc d _flags :=
    match d with
    | [] => ({ data := [] }, 0, fun _ => 0)
    | l :: d => ({ data := d }, u32 (l.length / 4), write (fun _ => 0) 0 l)

theorem mailbox_implements : Implements mailbox mailboxCallbacks where
  idpc := by
    rintro _ ⟨⟩ d mem flags numWords p i
    exact Performs.of_noStores (e := { data := d ++ [slice mem p (numWords * 4)] })
  edpc := by
    rintro _ ⟨⟩ d flags
    cases d with
    | nil => exact ⟨fun i => .of_noStores (e := { data := [] }), rfl, rfl, Nat.two_pow_pos 32, .inl ⟨rfl, rfl⟩⟩
    | cons l d =>
      have hwords : u32 (l.length / 4) < 2 ^ 32 := Nat.mod_lt _ (Nat.two_pow_pos 32)
      exact ⟨fun i => .of_noStores (e := { data := d }), rfl, rfl, hwords, .inr ⟨_, rfl, rfl⟩⟩

/-- A packet of one word, and its way back. -/
def wordThere : Msg := .idpc (.ofUInt64 0) (.ofUInt64 1) [1, 2, 3, 4] (by decide)
def wordBack : Msg := .edpc (.ofUInt64 0)

theorem any_chunks_wordBack :
    let session := (Conn.start (Server.loaded () []).rx [] (fun _ => 0) fun _ => 0).Session (protocol mailbox)
    ∃ d u, session [wordThere.enc ++ wordBack.enc.take 3, wordBack.enc.drop 3] d ∧
      session [wordThere.enc, wordBack.enc] u ∧ sentOf d.s.trace = sentOf u.s.trace ∧
      callsOf d.s.trace = callsOf u.s.trace := by
  intro session
  let rx := (Server.loaded () []).rx
  have hthere : ∀ m ∈ [wordThere], m.WellFormed mailbox rx := List.forall_mem_singleton.mpr ⟨rfl, by decide⟩
  have hback : ∀ m ∈ [wordBack], m.WellFormed mailbox rx := List.forall_mem_singleton.mpr ⟨rfl, by decide⟩
  have hcut : Tail Msg.enc (fun m => m.WellFormed mailbox rx) (wordBack.enc.take 3) :=
    .inr ⟨wordBack, hback _ List.mem_cons_self, List.take_prefix _ _, by decide⟩
  have h₁ : [] ++ (wordThere.enc ++ wordBack.enc.take 3) = [wordThere].flatMap Msg.enc ++ wordBack.enc.take 3 := by
    simp
  have h₂ : wordBack.enc.take 3 ++ wordBack.enc.drop 3 = [wordBack].flatMap Msg.enc ++ [] := by simp
  -- Both chunks are taken.
  have hr := (realizes (h := mailbox) mailboxCallbacks rx nofun).mono
    fun m (hm : m.WellFormed mailbox rx) => ⟨hm, mailbox_implements.served m⟩
  obtain ⟨c, hc, hwait⟩ := start_waits hr [] (fun _ => 0) fun _ => 0
  obtain ⟨c₁, hfeed, hw⟩ := hwait.exists_feed hr hthere h₁ hcut trivial (by decide)
    (by rw [hwait.room_eq]; decide) (by decide)
  obtain ⟨d, hfeed', -⟩ := hw.exists_feed hr hback h₂ (.inl rfl) trivial (by decide)
    (by rw [hw.room_eq]; decide) (by decide)
  have hs : session [wordThere.enc ++ wordBack.enc.take 3, wordBack.enc.drop 3] d := ⟨c, hc, hfeed.append hfeed'⟩
  have hall : ∀ m ∈ [[wordThere], [wordBack]].flatten, m.WellFormed mailbox rx :=
    List.forall_mem_append.mpr ⟨hthere, hback⟩
  obtain ⟨-, ⟨u, hu, hsent, hcalls, -⟩, -⟩ := any_chunks mailbox mailboxCallbacks mailbox_implements nofun rx []
    (fun _ => 0) (fun _ => 0) _ [[wordThere], [wordBack]] [] d (.cons h₁ hcut (.cons h₂ (.inl rfl) (.nil []))) hall
    ⟨by decide, by decide, trivial⟩ hs
  exact ⟨d, u, hs, hu, hsent, hcalls⟩

end Dpc
end Xvc
