import Xvc.Dpc.Duplex
import Xvc.Dpc.Ingress
import Xvc.Dpc.Latch
import Xvc.Lib.Play
import Xvc.Server.Split

/-!
# From the client to the DMA

The server of `dpc` with the handlers of `xvc_dpc.c`, whose packets go through the rings of `hsdp.c` while both
channels of the DMA are at work.

* `idpcCall`, `edpcCall`: the handlers as programs; `handlers` plays them, with the DMA's steps on a tape.
* `idpc_rule`, `edpc_rule`: what a call does to the packets.
* `Exchange`: a message with its reply, and the packets that it moved. `handle_exchange` is one message, and
  `run_exchanges` several.
* `end_to_end`: what a client sends in idpc: messages goes out, and what it gets in edpc: replies came in, however its
  stream is cut and whenever the DMA acts.
-/

namespace Xvc
namespace Dpc
namespace EndToEnd

open ByteMem Program Relation Stream
open Duplex
open Transmit (Packet)

/-! ## The handlers -/

/-- `idpc`, called with a packet. -/
def idpcCall (p : Packet) : HsdpProg Channels (Option (List UInt8)) := do
  modify (pend p)
  idpc p.mem p.wordCount p.buf

/-- `edpc`, and the `memcpy` of the packet into the reply: `*num_words`, and the bytes that are copied. -/
def edpcPacket {δ : Type} : HsdpProg δ (Nat × Option (List UInt8)) := do
  let r ← Receive.edpc
  match r.buf with
  | none => pure (r.wordCount, none)
  | some buf => do
    let l ← Receive.copyOut buf (r.wordCount * 4)
    pure (r.wordCount, some l)

def edpcCall : HsdpProg Channels (Nat × Option (List UInt8)) := do
  let r ← edpcPacket
  modify (deliver r.2)
  pure r

/-- The driver and the DMA. -/
abbrev Board : Type := Played (Hsdp Channels)

/-- What the DMA does before each access. -/
abbrev DmaTape : Type := Tape (Hsdp Channels) Access (Found Channels)

/-- A buffer with these bytes. -/
def bufOf (l : List UInt8) : ByteMem := write (fun _ => 0) 0 l

/-- `handlers` of `xvc_dpc.c`. -/
def handlers (b : Bus) (tape : DmaTape) : XvcServerHandlers Board where
  lock := none
  unlock := none
  flush := none
  idpc := some fun d mem _flags numWords buf =>
    let r := (idpcCall ⟨mem, buf, numWords⟩).play (both b) tape d
    { clientData := r.2, error := r.1 }
  edpc := some fun d _flags =>
    let r := edpcCall.play (both b) tape d
    { call := { clientData := r.2 }, numWords := r.1.1, buf := r.1.2.map bufOf }

/-- The same, as functions of the words. -/
def callbacks (b : Bus) (tape : DmaTape) : Callbacks Board where
  idpc d _flags numWords data :=
    let r := (idpcCall ⟨bufOf data, 0, numWords⟩).play (both b) tape d
    { data := r.2, error := r.1 }
  edpc d _flags :=
    let r := edpcCall.play (both b) tape d
    ({ data := r.2 }, r.1.1, (r.1.2.map bufOf).getD fun _ => 0)

/-- `hsdp_open` has been called. -/
def Board.start (b : Bus) (m : ByteMem) : Board := ⟨hsdpOpen b Channels.reset m, 0, True⟩

/-! ## What a call does -/

section Calls

variable {b : Bus} {s : Hsdp Channels} {δ : Type}

/-- What a poll returns: no words without a buffer. -/
def Shaped (r : Receive.Polled) : Prop := (r.buf = none → r.wordCount = 0) ∧ r.wordCount < 2 ^ 32

theorem poll_shaped {w : World (Hsdp δ) Access (Found δ)} (h : Hsdp δ) :
    (Receive.hsdpPollFastPacket : HsdpProg δ Receive.Polled).Always w (fun _ => True)
      (fun r _ => Shaped r) h := by
  unfold Receive.hsdpPollFastPacket
  rw [always_read_bind]
  refine (always_true _ _).seq fun status t _ => ?_
  split
  · exact (always_true _ _).seq fun _ _ _ => (always_true _ _).seq fun _ _ _ => (always_true _ _).seq fun _ _ _ =>
      (always_true _ _).seq fun _ _ _ => ⟨fun _ => rfl, Nat.two_pow_pos 32⟩
  · split
    · refine (always_true _ _).seq fun _ _ _ => (always_true _ _).seq fun _ _ _ => (always_true _ _).seq fun _ _ _ =>
        (always_true _ _).seq fun _ _ _ => (always_true _ _).seq fun _ _ _ => ⟨nofun, ?_⟩
      have hsize : status &&& 0x3FFFFFF ≤ 0x3FFFFFF := Nat.and_le_right
      show (status &&& 0x3FFFFFF) >>> 2 < 2 ^ 32
      rw [Nat.shiftRight_eq_div_pow]
      omega
    · exact ⟨fun _ => rfl, Nat.two_pow_pos 32⟩

theorem copyOut_length {w : World (Hsdp δ) Access (Found δ)} (h : Hsdp δ) (addr n : Nat) :
    (Receive.copyOut addr n).Always w (fun _ => True) (fun l _ => l.length = n) h := by
  induction n generalizing addr h with
  | zero => rfl
  | succ n ih =>
    unfold Receive.copyOut
    rw [always_ask_bind]
    refine fun f _ => ⟨trivial, (ih _ _).seq fun l t hl => ?_⟩
    exact congrArg Nat.succ hl

/-- The words of the reply. -/
def Words (r : Nat × Option (List UInt8)) : Prop :=
  r.1 < 2 ^ 32 ∧ (r = (0, none) ∨ ∃ l, r.2 = some l ∧ l.length = r.1 * 4)

theorem edpcPacket_words {w : World (Hsdp δ) Access (Found δ)} (h : Hsdp δ) :
    (edpcPacket : HsdpProg δ (Nat × Option (List UInt8))).Always w (fun _ => True) (fun r _ => Words r) h := by
  have hreceive : (Receive.hsdpReceiveFastPacket : HsdpProg δ Receive.Polled).Always w (fun _ => True)
      (fun r _ => Shaped r) h := by
    unfold Receive.hsdpReceiveFastPacket Receive.receiveLoop
    refine (poll_shaped h).seq fun r t hr => ?_
    rw [if_neg fun hagain => Nat.lt_irrefl 0 hagain.1]
    exact hr
  have hedpc : (Receive.edpc : HsdpProg δ Receive.Polled).Always w (fun _ => True) (fun r _ => Shaped r) h := by
    unfold Receive.edpc
    refine hreceive.seq fun r t hr => ?_
    split
    · exact ⟨fun _ => rfl, Nat.two_pow_pos 32⟩
    · exact hr
  unfold edpcPacket
  refine hedpc.seq fun r t hr => ?_
  obtain ⟨buf, wordCount⟩ := r
  cases buf with
  | none =>
    obtain rfl : wordCount = 0 := hr.1 rfl
    exact ⟨Nat.two_pow_pos 32, .inl rfl⟩
  | some buf => exact (copyOut_length t _ _).seq fun l _ hl => ⟨hr.2, .inr ⟨l, rfl, hl⟩⟩

/-- It is `edpcReply`, which does not return the number of words. -/
theorem edpcPacket_of_reply {w : World (Hsdp δ) Access (Found δ)} {I : Hsdp δ → Prop}
    {Q : Option (List UInt8) → Hsdp δ → Prop} {h : Hsdp δ} (hreply : Receive.edpcReply.Always w I Q h) :
    edpcPacket.Always w I (fun r t => Q r.2 t) h := by
  unfold Receive.edpcReply at hreply
  unfold edpcPacket
  refine hreply.of_bind.seq fun r t hr => ?_
  obtain ⟨buf, wordCount⟩ := r
  cases buf with
  | none => exact hr
  | some buf => exact hr.of_bind.seq fun l t hl => hl

/-- No call is in progress. -/
abbrev Rests (b : Bus) (s : Hsdp Channels) : Prop := TxRests b s ∧ RxRests b s

/-- **The message `edpc:`**: its packet, if there is one, has been delivered. -/
theorem edpc_rule (hb : b.Fits) (hr : Rests b s) :
    edpcCall.Always (both b) (fun _ => True)
      (fun r s' => (Rests b s' ∧ givenOf s' = givenOf s ∧ deliveredOf s' = deliveredOf s ++ r.2.toList) ∧
        Words r) s := by
  have hreply : Receive.edpcReply.Always (both b) (fun _ => True) _ s :=
    (edpc_duplex hb hr.1 hr.2).weaken fun _ _ => trivial
  unfold edpcCall
  refine ((edpcPacket_of_reply hreply).and (edpcPacket_words s)).weaken (fun _ _ => trivial) |>.seq fun r t ht => ?_
  obtain ⟨⟨hrests, hgiven, hdelivered⟩, hwords⟩ := ht
  rw [always_modify_bind]
  refine ⟨trivial, ⟨hrests, hgiven, ?_⟩, hwords⟩
  show t.fabric.engine.rx.delivered ++ r.2.toList = _
  rw [show t.fabric.engine.rx.delivered = deliveredOf s from hdelivered]

/-- A packet that the handler may get: it fits an entry, or the handler refuses it. -/
def Sized (numWords : Nat) : Prop := 1 ≤ numWords ∧ numWords ≤ 260 ∨ maxPacketSize ≤ numWords

theorem rests_pend (hr : Rests b s) (p : Packet) : Rests b (pend p s) := by
  obtain ⟨⟨t, ⟨⟨hengine, htail, hmem⟩, hidesc, hipkts, hwide⟩, hinv⟩, n, u, hu, hinv'⟩ := hr
  refine ⟨⟨p.pend t, ⟨⟨?_, htail, hmem⟩, hidesc, hipkts, hwide⟩, hinv.pend p⟩, n, u,
    ⟨⟨hu.agree.engine, hu.agree.tail, hu.agree.mem⟩, hu.edesc, hu.epkts, hu.wide⟩, hinv'⟩
  show { t.fabric.engine with pending := p.bytes } = { s.fabric.engine.tx with pending := p.bytes }
  rw [hengine]

/-- The texts of `idpc` are errors. -/
def Fails (error : Option (List UInt8)) : Prop := ∃ c l, error = some (c :: l) ∧ c ≠ 0

theorem fails_tooLarge (numWords : Nat) : Fails (some (tooLargeText numWords)) := ⟨_, _, rfl, by decide⟩

theorem fails_ingressFailed : Fails (some ingressFailedText) := ⟨_, _, rfl, by decide⟩

/-- **The message `idpc:`**: its packet has been given, or it sets an error and no packet has been given. -/
theorem idpc_rule (hb : b.Fits) (hr : Rests b s) {p : Packet} (hsize : Sized p.wordCount) :
    (idpcCall p).Always (both b) (fun _ => True)
      (fun error s' => Rests b s' ∧ deliveredOf s' = deliveredOf s ∧
        (error = none ∧ givenOf s' = givenOf s ++ [p.bytes] ∨ Fails error ∧ givenOf s' = givenOf s)) s := by
  by_cases hlarge : maxPacketSize ≤ p.wordCount
  · unfold idpcCall idpc
    rw [always_modify_bind, if_pos hlarge]
    exact ⟨trivial, rests_pend hr p, rfl, .inr ⟨fails_tooLarge _, rfl⟩⟩
  · have hfit : p.bytes.length ≤ 1040 := by
      obtain ⟨-, hle⟩ := hsize.resolve_right hlarge
      unfold Packet.bytes
      rw [length_slice]
      omega
    have hsend : (send p).Always (both b) (fun _ => True) _ s :=
      (send_duplex hb hfit hr.1 hr.2).weaken fun _ _ => trivial
    unfold idpcCall idpc
    rw [if_neg hlarge]
    have hrule : ((send p) >>= fun ret =>
        if ret ≠ 0 then pure (some ingressFailedText) else pure none :
          HsdpProg Channels (Option (List UInt8))).Always (both b)
        (fun _ => True) (fun error s' => Rests b s' ∧ deliveredOf s' = deliveredOf s ∧
          (error = none ∧ givenOf s' = givenOf s ++ [p.bytes] ∨ Fails error ∧ givenOf s' = givenOf s)) s := by
      refine hsend.seq fun ret s' hs' => ?_
      obtain ⟨hrests, hdelivered, ⟨rfl, hgiven⟩ | ⟨rfl, hgiven⟩⟩ := hs'
      · exact ⟨hrests, hdelivered, .inl ⟨rfl, hgiven⟩⟩
      · exact ⟨hrests, hdelivered, .inr ⟨fails_ingressFailed, hgiven⟩⟩
    exact hrule

end Calls

/-! ## The handlers do what the callbacks say -/

theorem slice_bufOf (l : List UInt8) : slice (bufOf l) 0 l.length = l := slice_write _ 0 l

/-- A packet is read for its words only. -/
theorem idpcCall_congr {p p' : Packet} (hcount : p.wordCount = p'.wordCount) (hbytes : p.bytes = p'.bytes) :
    idpcCall p = idpcCall p' := by
  obtain ⟨mem, buf, wordCount⟩ := p
  obtain ⟨mem', buf', wordCount'⟩ := p'
  obtain rfl : wordCount = wordCount' := hcount
  have hslice : slice mem buf (wordCount * 4) = slice mem' buf' (wordCount * 4) := hbytes
  unfold idpcCall idpc hsdpSendPacket pend
  rw [hslice, hbytes]

theorem implements (b : Bus) (tape : DmaTape) : Implements (handlers b tape) (callbacks b tape) where
  edpc := by
    rintro _ ⟨⟩ d flags
    have hwords : Words (edpcCall.play (both b) tape d).1 := by
      have hcall : edpcCall.Always ⟨fun _ _ _ => True, (both b).effect⟩ (fun _ => True)
        (fun r _ => Words r) d.state := by
        unfold edpcCall
        refine (edpcPacket_words _).seq fun r t hr => ?_
        rw [always_modify_bind]
        exact ⟨trivial, hr⟩
      exact hcall.play_any
    obtain ⟨hlt, hshape⟩ := hwords
    refine ⟨fun i => ⟨rfl, rfl, nofun, fun _ _ => rfl⟩, rfl, rfl, hlt, ?_⟩
    rcases hshape with hnone | ⟨l, hl, -⟩
    · simp only [callbacks, hnone]
      exact .inl ⟨rfl, trivial⟩
    · simp only [callbacks, hl]
      exact .inr ⟨bufOf l, rfl, rfl⟩
  idpc := by
    rintro _ ⟨⟩ d mem flags numWords p i
    have hsame : idpcCall ⟨mem, p, numWords⟩ = idpcCall ⟨bufOf (slice mem p (numWords * 4)), 0, numWords⟩ := by
      refine idpcCall_congr rfl ?_
      have hslice := slice_bufOf (slice mem p (numWords * 4))
      rw [length_slice] at hslice
      exact hslice.symm
    simp only [hsame]
    exact ⟨rfl, rfl, nofun, fun _ _ => rfl⟩

/-! ## Exchanges -/

/-- A message and its reply, with the packet that it gave to the DMA and the one that it took from there. -/
structure Exchange where
  msg : Msg
  reply : List UInt8
  given : Option (List UInt8)
  taken : Option (List UInt8)

/-- The replies of `idpc:` and `edpc:` tell which packets were moved. -/
inductive Exchange.Tells : Exchange → Prop
  | sent {flags numWords : Uleb} {data : List UInt8} {h : data.length = numWords.value * 4} :
      Tells ⟨.idpc flags numWords data h, [0], some data, none⟩
  | refused {flags numWords : Uleb} {data : List UInt8} {h : data.length = numWords.value * 4} :
      Tells ⟨.idpc flags numWords data h, [1], none, none⟩
  | packet {flags : Uleb} {numWords : Nat} {data : List UInt8} (h : data.length = numWords * 4) :
      Tells ⟨.edpc flags, Leb128.encode 10 numWords ++ data ++ [0], none, some data⟩
  | nothing {flags : Uleb} {status : UInt8} : Tells ⟨.edpc flags, Leb128.encode 10 0 ++ [status], none, none⟩
  | other {m : Msg} {reply : List UInt8} (hidpc : ∀ flags numWords data h, m ≠ .idpc flags numWords data h)
      (hedpc : ∀ flags, m ≠ .edpc flags) : Tells ⟨m, reply, none, none⟩

/-- A packet of the message fits an entry, or is refused. -/
def MsgSized : Msg → Prop
  | .idpc _ numWords _ _ => Sized numWords.value
  | _ => True

/-- The packets that were given up to `x`, and those that were delivered. -/
def Moved (x x' : Board) (given taken : List (List UInt8)) : Prop :=
  givenOf x'.state = givenOf x.state ++ given ∧ deliveredOf x'.state = deliveredOf x.state ++ taken

section Exchanges

variable {b : Bus} {tape : DmaTape} {bufMax : Nat} {m : Msg} {ms : List Msg} {a : Core Board}

/-- The board after a message, by message. -/
theorem handle_board (b : Bus) (tape : DmaTape) (bufMax : Nat) (m : Msg) (a : Core Board) :
    (handle (handlers b tape) (callbacks b tape) bufMax m a).core.data =
      match m with
      | .edpc _ => if a.c.failed then a.data else (edpcCall.play (both b) tape a.data).2
      | .idpc _ numWords data _ =>
        if a.c.failed then a.data else ((idpcCall ⟨bufOf data, 0, numWords.value⟩).play (both b) tape a.data).2
      | _ => a.data := by
  cases m with
  | edpc flags =>
    unfold handle handleEdpc
    simp only [Outcome.withStatus_core]
    split
    · rfl
    · next hok => simp only [Outcome.ofData_core, Outcome.ofCall_of_ok (Bool.eq_false_iff.mpr hok)]; rfl
  | idpc flags numWords data h =>
    unfold handle
    simp only [Outcome.withStatus_core]
    split
    · next hf => rw [Outcome.ofCall_of_failed hf]
    · next hok => rw [Outcome.ofCall_of_ok (Bool.eq_false_iff.mpr hok)]; rfl
  | _ => rfl

theorem handle_lawful (h : (handle (handlers b tape) (callbacks b tape) bufMax m a).core.data.lawful) :
    a.data.lawful := by
  rw [handle_board] at h
  cases m with
  | edpc flags =>
    simp only at h
    split at h
    · exact h
    · exact (play_finishes _ h).1
  | idpc flags numWords data hd =>
    simp only at h
    split at h
    · exact h
    · exact (play_finishes _ h).1
  | _ => exact h

theorem fails_status {error : Option (List UInt8)} (h : Fails error) (c : XvcClient) : (c.after error).status = 1 := by
  obtain ⟨x, l, rfl, hx⟩ := h
  refine XvcClient.status_of_failed ?_
  exact (XvcClient.failed_iff _).mpr (PendingError.ofText_cons_ne_nil hx l)

/-- **A message.** -/
theorem handle_exchange (hb : b.Fits) (hsize : MsgSized m) (hr : Rests b a.data.state)
    (hl : (handle (handlers b tape) (callbacks b tape) bufMax m a).core.data.lawful) :
    let o := handle (handlers b tape) (callbacks b tape) bufMax m a
    Rests b o.core.data.state ∧ ∃ x : Exchange, x.msg = m ∧ x.Tells ∧ o.reply = x.reply ∧
      Moved a.data o.core.data x.given.toList x.taken.toList := by
  intro o
  have hstill : Moved a.data a.data [] [] := ⟨(List.append_nil _).symm, (List.append_nil _).symm⟩
  have hother : (∀ flags numWords data h, m ≠ .idpc flags numWords data h) → (∀ flags, m ≠ .edpc flags) →
      o.core.data = a.data →
      Rests b o.core.data.state ∧ ∃ x : Exchange, x.msg = m ∧ x.Tells ∧ o.reply = x.reply ∧
        Moved a.data o.core.data x.given.toList x.taken.toList := by
    intro hidpc hedpc hsame
    rw [hsame]
    exact ⟨hr, ⟨m, o.reply, none, none⟩, rfl, .other hidpc hedpc, rfl, hstill⟩
  have hboard := handle_board b tape bufMax m a
  cases m with
  | edpc flags =>
    simp only at hboard
    cases hf : a.c.failed with
    | true =>
      have ho : o = _ := handle_of_failed (handlers b tape) (callbacks b tape) bufMax (by simp) hf
      rw [ho]
      exact ⟨hr, ⟨.edpc flags, _, none, none⟩, rfl, .nothing, rfl, hstill⟩
    | false =>
      rw [hf, if_neg (by decide)] at hboard
      rw [hboard] at hl
      obtain ⟨⟨hrests, hgiven, hdelivered⟩, -, hwords⟩ := (edpc_rule hb hr).play hl
      have hstatus : (a.c.after none).status = 0 := XvcClient.status_of_ok hf
      have hreply : o.reply = Leb128.encode 10 (edpcCall.play (both b) tape a.data).1.1 ++
          slice (((edpcCall.play (both b) tape a.data).1.2.map bufOf).getD fun _ => 0) 0
            ((edpcCall.play (both b) tape a.data).1.1 * 4) ++ [(a.c.after none).status] := by
        show (handleEdpc (callbacks b tape) (u32 flags.value) a).withStatus.reply = _
        unfold handleEdpc
        rw [hf, if_neg (by decide)]
        simp only [Outcome.ofData_of_ok hf, Outcome.withStatus]
        rfl
      rw [hstatus] at hreply
      have hmoved : Moved a.data o.core.data [] (edpcCall.play (both b) tape a.data).1.2.toList := by
        show Moved a.data (handle (handlers b tape) (callbacks b tape) bufMax (.edpc flags) a).core.data _ _
        rw [hboard]
        exact ⟨hgiven.trans (List.append_nil _).symm, hdelivered⟩
      refine ⟨hboard ▸ hrests, ?_⟩
      rcases hwords with hnone | ⟨l, hl, hlen⟩
      · rw [hnone] at hreply hmoved
        exact ⟨⟨.edpc flags, _, none, none⟩, rfl, .nothing, hreply, hmoved⟩
      · rw [hl] at hreply hmoved
        refine ⟨⟨.edpc flags, _, none, some l⟩, rfl, .packet hlen, hreply.trans ?_, hmoved⟩
        simp only [Option.map_some, Option.getD_some]
        rw [← hlen, slice_bufOf]
  | idpc flags numWords data h =>
    simp only at hboard
    cases hf : a.c.failed with
    | true =>
      have ho : o = _ := handle_of_failed (handlers b tape) (callbacks b tape) bufMax (by simp) hf
      rw [ho]
      exact ⟨hr, ⟨.idpc flags numWords data h, _, none, none⟩, rfl, .refused, rfl, hstill⟩
    | false =>
      rw [hf, if_neg (by decide)] at hboard
      rw [hboard] at hl
      have hbytes : (⟨bufOf data, 0, numWords.value⟩ : Packet).bytes = data := by
        unfold Packet.bytes
        rw [← h, slice_bufOf]
      obtain ⟨hrests, hdelivered, hout⟩ := (idpc_rule hb hr (p := ⟨bufOf data, 0, numWords.value⟩) hsize).play hl
      have hreply : o.reply = [(a.c.after
          ((idpcCall ⟨bufOf data, 0, numWords.value⟩).play (both b) tape a.data).1).status] := by
        show (Outcome.ofCall _ _ _).withStatus.reply = _
        simp only [Outcome.ofCall_of_ok hf, Outcome.withStatus, List.nil_append]
        rfl
      have hmoved : ∀ {q}, givenOf ((idpcCall ⟨bufOf data, 0, numWords.value⟩).play (both b) tape a.data).2.state =
          givenOf a.data.state ++ q → Moved a.data o.core.data q [] := by
        intro q hq
        show Moved a.data (handle (handlers b tape)
          (callbacks b tape) bufMax (.idpc flags numWords data h) a).core.data _ _
        rw [hboard]
        exact ⟨hq, hdelivered.trans (List.append_nil _).symm⟩
      refine ⟨hboard ▸ hrests, ?_⟩
      rcases hout with ⟨hnone, hgiven⟩ | ⟨hfails, hgiven⟩
      · rw [hbytes] at hgiven
        rw [hnone] at hreply
        have hstatus : (a.c.after none).status = 0 := XvcClient.status_of_ok hf
        exact ⟨⟨.idpc flags numWords data h, [0], some data, none⟩, rfl, .sent, by rw [hreply, hstatus], hmoved hgiven⟩
      · rw [fails_status hfails] at hreply
        exact ⟨⟨.idpc flags numWords data h, [1], none, none⟩, rfl, .refused, hreply,
          hmoved (hgiven.trans (List.append_nil _).symm)⟩
  | getinfo => exact hother (fun _ _ _ _ => Msg.noConfusion) (fun _ => Msg.noConfusion) rfl
  | capabilities => exact hother (fun _ _ _ _ => Msg.noConfusion) (fun _ => Msg.noConfusion) rfl
  | configure len text h => exact hother (fun _ _ _ _ => Msg.noConfusion) (fun _ => Msg.noConfusion) rfl
  | error => exact hother (fun _ _ _ _ => Msg.noConfusion) (fun _ => Msg.noConfusion) rfl

theorem run_lawful (h : ((wire (handlers b tape) (callbacks b tape) bufMax).run ms a).core.data.lawful) :
    a.data.lawful := by
  induction ms generalizing a with
  | nil => exact h
  | cons m ms ih => exact handle_lawful (ih h)

/-- **Several messages.** -/
theorem run_exchanges (hb : b.Fits) (hsize : ∀ m ∈ ms, MsgSized m) (hr : Rests b a.data.state)
    (hl : ((wire (handlers b tape) (callbacks b tape) bufMax).run ms a).core.data.lawful) :
    let o := (wire (handlers b tape) (callbacks b tape) bufMax).run ms a
    Rests b o.core.data.state ∧ ∃ xs : List Exchange, xs.map Exchange.msg = ms ∧ (∀ x ∈ xs, x.Tells) ∧
      o.reply = xs.flatMap Exchange.reply ∧
      Moved a.data o.core.data (xs.filterMap Exchange.given) (xs.filterMap Exchange.taken) := by
  induction ms generalizing a with
  | nil => exact ⟨hr, [], rfl, nofun, rfl, (List.append_nil _).symm, (List.append_nil _).symm⟩
  | cons m ms ih =>
    intro o
    obtain ⟨hr', x, rfl, htells, hreply, hgiven, htaken⟩ :=
      handle_exchange hb (hsize m List.mem_cons_self) hr (run_lawful hl)
    obtain ⟨hr'', xs, rfl, htells', hreply', hgiven', htaken'⟩ :=
      ih (fun m' hm => hsize m' (List.mem_cons_of_mem _ hm)) hr' hl
    refine ⟨hr'', x :: xs, rfl, List.forall_mem_cons.mpr ⟨htells, htells'⟩, ?_, ?_, ?_⟩
    · rw [List.flatMap_cons, ← hreply, ← hreply']
      rfl
    · rw [← List.singleton_append, List.filterMap_append, ← List.append_assoc]
      refine hgiven'.trans (congrArg (· ++ _) (hgiven.trans ?_))
      cases hx : x.given <;> simp [hx]
    · rw [← List.singleton_append, List.filterMap_append, ← List.append_assoc]
      refine htaken'.trans (congrArg (· ++ _) (htaken.trans ?_))
      cases hx : x.taken <;> simp [hx]

end Exchanges

/-! ## Connections -/

/-- **From the client to the DMA.** A new connection to `xvc_dpc` gets its stream in any chunks, which complete the
messages `mss` batch by batch; the DMA may act before any access, as long as it touches no packet buffer while that is
copied. Then the replies tell, message by message, which packets were given to the DMA and which were taken from it.
What goes out is a beginning of the packets of the idpc: messages that were answered with status 0; and the packets in
the replies to edpc: are a beginning of those that came in. -/
theorem end_to_end (b : Bus) (hb : b.Fits) (m : ByteMem) (tape : DmaTape) (rx : RxBuffer) (mem replyBuf : ByteMem)
    {chunks : List (List UInt8)} {mss : List (List Msg)} {q : List UInt8} {d : Conn Board}
    (hbatch : Batched Msg.enc (fun x => x.WellFormed (handlers b tape) rx) [] chunks mss q)
    (hms : ∀ x ∈ mss.flatten, x.WellFormed (handlers b tape) rx ∧ MsgSized x)
    (hfit : (wire (handlers b tape) (callbacks b tape) rx.bufMax).BatchesFit mss ⟨{}, .start b m⟩)
    (hs : (Conn.start rx (.start b m) mem replyBuf).Session (protocol (handlers b tape)) chunks d)
    (hl : d.s.clientData.lawful) :
    d.phase = .recv ∧ ∃ xs : List Exchange, xs.map Exchange.msg = mss.flatten ∧ (∀ x ∈ xs, x.Tells) ∧
      sentOf d.s.trace = xs.flatMap Exchange.reply ∧ deliveredOf d.s.clientData.state = xs.filterMap Exchange.taken ∧
      givenOf d.s.clientData.state = xs.filterMap Exchange.given ∧
      ∀ f, ReflTransGen (Step b) d.s.clientData.state.fabric f → Transmit.InOrder (txOf f) ∧
        Receive.Lossless (rxOf f) := by
  have hi := implements b tape
  have hr := realizes (h := handlers b tape) (callbacks b tape) rx nofun
  obtain ⟨c, hc, hwait⟩ := start_waits hr (.start b m) mem replyBuf
  obtain ⟨c', hc', hfeed⟩ := hs
  obtain rfl := hc.unique hc'
  have hok : ∀ x ∈ mss.flatten, x.WellFormed (handlers b tape) rx ∧ x.Served (handlers b tape) (callbacks b tape) :=
    fun x hx => ⟨(hms x hx).1, hi.served x⟩
  have hd := hwait.feed hr (hbatch.mono fun x hx => ⟨hx, hi.served x⟩) hok trivial hfit hfeed
  have hdata : d.s.clientData =
      ((wire (handlers b tape) (callbacks b tape) rx.bufMax).run mss.flatten ⟨{}, .start b m⟩).core.data :=
    congrArg Core.data hd.core
  have hsent : sentOf d.s.trace =
      ((wire (handlers b tape) (callbacks b tape) rx.bufMax).run mss.flatten ⟨{}, .start b m⟩).reply := hd.sent
  rw [hdata] at hl ⊢
  have hopen : Rests b (Board.start b m).state := rests_open hb m
  have hnone := (hsdpOpen_registers b Channels.reset m hb).1
  obtain ⟨hrests, xs, hmsgs, htells, hreply, hgiven, htaken⟩ :=
    run_exchanges hb (fun x hx => (hms x hx).2) hopen hl
  refine ⟨hd.phase, xs, hmsgs, htells, hsent.trans hreply, ?_, ?_, fun f hf => ?_⟩
  · refine htaken.trans ?_
    show (hsdpOpen b Channels.reset m).fabric.engine.rx.delivered ++ _ = _
    rw [hnone]
    rfl
  · refine hgiven.trans ?_
    show (hsdpOpen b Channels.reset m).fabric.engine.tx.posted ++ _ = _
    rw [hnone]
    rfl
  · exact (live_of_rests hrests.1 hrests.2).steps hf

/-! ### A run -/

/-- What goes out comes in again. -/
def boardTape : DmaTape := loopback boardBus 6

/-- A test of what the DMA does during a message, and during several. -/
def passesMsg (x : Board) : Msg → Bool
  | .edpc _ => edpcCall.passes (both boardBus) boardTape (loopbackTest boardBus) x
  | .idpc _ numWords data _ =>
    (idpcCall ⟨bufOf data, 0, numWords.value⟩).passes (both boardBus) boardTape (loopbackTest boardBus) x
  | _ => true

def passesAll : List Msg → Core Board → Bool
  | [], _ => true
  | m :: ms, a =>
    passesMsg a.data m &&
      passesAll ms (handle (handlers boardBus boardTape) (callbacks boardBus boardTape) maxPacketLen m a).core

theorem handle_passes {m : Msg} {a : Core Board} (ha : a.data.lawful) (h : passesMsg a.data m = true) :
    (handle (handlers boardBus boardTape) (callbacks boardBus boardTape) maxPacketLen m a).core.data.lawful := by
  rw [handle_board]
  unfold passesMsg at h
  cases m with
  | edpc flags =>
    simp only
    split
    · exact ha
    · exact lawful_of_passes (fun _ _ _ => loopback_answers) ha h
  | idpc flags numWords data hd =>
    simp only
    split
    · exact ha
    · exact lawful_of_passes (fun _ _ _ => loopback_answers) ha h
  | _ => exact ha

/-- The messages on the board. -/
abbrev boardRun (ms : List Msg) (a : Core Board) : Outcome (Core Board) :=
  (wire (handlers boardBus boardTape) (callbacks boardBus boardTape) maxPacketLen).run ms a

theorem run_passes {ms : List Msg} {a : Core Board} (ha : a.data.lawful) (h : passesAll ms a = true) :
    (boardRun ms a).core.data.lawful := by
  induction ms generalizing a with
  | nil => exact ha
  | cons m ms ih =>
    obtain ⟨hm, hms⟩ := Bool.and_eq_true_iff.mp h
    exact ih (handle_passes ha hm) hms

theorem lawful_of_run {ms : List Msg} {a : Core Board} {x : Board} (hx : x = (boardRun ms a).core.data)
    (ha : a.data.lawful) (h : passesAll ms a = true) : x.lawful :=
  hx ▸ run_passes ha h

/-- A packet of one word, and a message that asks for one. -/
def wordOut : Msg := .idpc (.ofUInt64 0) (.ofUInt64 1) [5, 6, 7, 8] (by decide)
def wordIn : Msg := .edpc (.ofUInt64 0)

/-- It goes out, and the second of these messages finds that it has come in. -/
def wordMsgs : List (List Msg) := [[wordOut], [wordIn, wordIn]]

/-- The stream is cut in the first of them. -/
def wordChunks : List (List UInt8) := [wordOut.enc ++ wordIn.enc.take 3, wordIn.enc.drop 3 ++ wordIn.enc]

theorem wordMsgs_ok :
    ∀ m ∈ wordMsgs.flatten, m.enc.length + m.slack ≤ maxPacketLen ∧ MsgSized m ∧
      m.Available (handlers boardBus boardTape) := by
  have hin : wordIn.enc.length + wordIn.slack ≤ maxPacketLen ∧ MsgSized wordIn ∧
      wordIn.Available (handlers boardBus boardTape) := ⟨by decide, trivial, rfl⟩
  have hout : wordOut.enc.length + wordOut.slack ≤ maxPacketLen ∧ MsgSized wordOut ∧
      wordOut.Available (handlers boardBus boardTape) := ⟨by decide, .inl (by decide), rfl⟩
  exact List.forall_mem_cons.mpr ⟨hout, List.forall_mem_cons.mpr ⟨hin, List.forall_mem_singleton.mpr hin⟩⟩

theorem wordMsgs_batched {ok : Msg → Prop} (hok : ∀ m ∈ wordMsgs.flatten, ok m) :
    Batched Msg.enc ok [] wordChunks wordMsgs [] := by
  have hin : ok wordIn := hok wordIn (List.mem_cons_of_mem _ List.mem_cons_self)
  have hcut : Tail Msg.enc ok (wordIn.enc.take 3) := .inr ⟨wordIn, hin, List.take_prefix _ _, by decide⟩
  exact .cons (by simp) hcut (.cons (by simp [← List.append_assoc]) (.inl rfl) (.nil []))

theorem wordChunks_ne : ∀ chunk ∈ wordChunks, chunk ≠ [] := by decide

theorem wordChunks_fit : wordChunks.flatten.length ≤ maxPacketLen := by decide

def boardStart : Core Board := ⟨{}, .start boardBus fun _ => 0⟩

theorem wordMsgs_fit :
    (wire (handlers boardBus boardTape)
      (callbacks boardBus boardTape) maxPacketLen).BatchesFit wordMsgs boardStart := by
  have hout : (boardRun [wordOut] boardStart).reply.length ≤ maxPacketLen := by decide +kernel
  have hin : (boardRun [wordIn, wordIn] (boardRun [wordOut] boardStart).core).reply.length ≤ maxPacketLen := by
    decide +kernel
  exact ⟨hout, hin, trivial⟩

/-- The connection of a client whose packet goes out and comes in again. -/
theorem end_to_end_word :
    ∃ d, (Conn.start (Server.loaded () []).rx (.start boardBus fun _ => 0) (fun _ => 0) fun _ => 0).Session
        (protocol (handlers boardBus boardTape)) wordChunks d ∧
      givenOf d.s.clientData.state = [[5, 6, 7, 8]] ∧ deliveredOf d.s.clientData.state = [[5, 6, 7, 8]] ∧
      d.phase = .recv ∧ ∃ xs : List Exchange, xs.map Exchange.msg = wordMsgs.flatten ∧ (∀ x ∈ xs, x.Tells) ∧
        sentOf d.s.trace = xs.flatMap Exchange.reply ∧ deliveredOf d.s.clientData.state = xs.filterMap Exchange.taken ∧
        givenOf d.s.clientData.state = xs.filterMap Exchange.given ∧
        ∀ f, ReflTransGen (Step boardBus) d.s.clientData.state.fabric f →
          Transmit.InOrder (txOf f) ∧ Receive.Lossless (rxOf f) := by
  have hi := implements boardBus boardTape
  have hr := realizes (h := handlers boardBus boardTape) (callbacks boardBus boardTape) (Server.loaded () []).rx nofun
  have hwell : ∀ m ∈ wordMsgs.flatten, m.WellFormed (handlers boardBus boardTape) (Server.loaded () []).rx ∧
    MsgSized m :=
    fun m hm => ⟨⟨(wordMsgs_ok m hm).2.2, (wordMsgs_ok m hm).1⟩, (wordMsgs_ok m hm).2.1⟩
  have hok := fun m hm => And.intro (hwell m hm).1 (hi.served m)
  obtain ⟨c, hc, hwait⟩ := start_waits hr (.start boardBus fun _ => 0) (fun _ => 0) fun _ => 0
  obtain ⟨d, hfeed, hd⟩ := hwait.exists_feed_all hr (wordMsgs_batched hok) hok trivial wordMsgs_fit wordChunks_ne
    wordChunks_fit
  have hdata : d.s.clientData = (boardRun wordMsgs.flatten boardStart).core.data := congrArg Core.data hd.core
  have hlawful : d.s.clientData.lawful := lawful_of_run hdata trivial (by decide +kernel)
  refine ⟨d, ⟨c, hc, hfeed⟩, ?_, ?_, ?_⟩
  · rw [hdata]
    decide +kernel
  · rw [hdata]
    decide +kernel
  · exact end_to_end boardBus boardBus_fits (fun _ => 0) boardTape (Server.loaded () []).rx (fun _ => 0) (fun _ => 0)
      (wordMsgs_batched fun m hm => (hwell m hm).1) hwell wordMsgs_fit ⟨c, hc, hfeed⟩ hlawful

end EndToEnd
end Dpc
end Xvc
