import Xvc.Server.Common
import Xvc.Server.ConfigTouches
import Xvc.Server.Grammar
import Xvc.Server.Reply
import Xvc.Server.Room
import Xvc.Server.Start

/-!
# The options of a connection

`enable_status` and `enable_locking` begin as 0, and only `configure:` stores to them.

* `ConfigBranch`: what the `configure:` branch is in the dispatch of a server.
* `ConfigBranch.follows`: in every state of a connection the options are 0 or 1, and a complete `configure:` is executed
  and does, without a pending error, what its grammar says.
-/

namespace Xvc

open ByteMem Server

variable {σ R : Type}

/-- The options are the same. -/
structure SameOptions (c d : XvcClient) : Prop where
  enableStatus : d.enableStatus = c.enableStatus
  enableLocking : d.enableLocking = c.enableLocking

theorem SameOptions.refl (c : XvcClient) : SameOptions c c := ⟨rfl, rfl⟩

theorem SameOptions.trans {c d e : XvcClient} (h : SameOptions c d) (h' : SameOptions d e) : SameOptions c e :=
  ⟨h'.enableStatus.trans h.enableStatus, h'.enableLocking.trans h.enableLocking⟩

theorem SameOptions.of_replied {s t : Server σ} (h : Replied s t) : SameOptions s.c t.c := by
  rw [h.c]
  exact .refl s.c

theorem sameOptions_callback (s : Server σ) (c : Call) (r : CallResult σ) : SameOptions s.c (s.callback c r).c := by
  rw [callback_eq]
  exact ⟨XvcClient.after_enableStatus _ _, XvcClient.after_enableLocking _ _⟩

theorem sameOptions_callOrNull (s : Server σ) (f : Option (CallResult σ)) (c : Call) :
    SameOptions s.c (callOrNull s f c).c := by
  cases f with
  | none => exact .refl s.c
  | some r => exact sameOptions_callback s c r

theorem sameOptions_unlessFailed {s : Server σ} {f : Server σ → Server σ} (h : SameOptions s.c (f s).c) :
    SameOptions s.c (s.unlessFailed f).c := by
  unfold unlessFailed
  split
  · exact .refl s.c
  · exact h

theorem sameOptions_runFlush (P : Protocol σ) (s : Server σ) : SameOptions s.c (s.runFlush P).1.c := by
  unfold runFlush
  cases P.flush with
  | none => exact .refl s.c
  | some f =>
    simp only [stores_eq]
    split
    · exact ⟨rfl, rfl⟩
    · exact .refl s.c

/-- Both options are 0 or 1. -/
structure XvcClient.Boolean (c : XvcClient) : Prop where
  enableStatus : c.enableStatus = 0 ∨ c.enableStatus = 1
  enableLocking : c.enableLocking = 0 ∨ c.enableLocking = 1

theorem SameOptions.boolean {c d : XvcClient} (h : SameOptions c d) (hc : c.Boolean) : d.Boolean :=
  ⟨by rw [h.enableStatus]; exact hc.enableStatus, by rw [h.enableLocking]; exact hc.enableLocking⟩

theorem Configured.boolean {locking : Bool} {is : List (List UInt8)} {c d : XvcClient} (h : Configured locking is c d)
    (hc : c.Boolean) : d.Boolean := by
  refine ⟨?_, ?_⟩
  · rw [h.enableStatus]
    exact lastValue_boolean hc.enableStatus
  · rw [h.enableLocking]
    exact lastValue_boolean hc.enableLocking

/-- In the dispatch `D` the requests `mk declared p` are the `configure:` messages. -/
structure ConfigBranch (D : Dispatch σ R) (mk : Nat → Nat → R) (locking : Bool) : Prop where
  keeps : D.KeepsBuffer
  inj : ∀ {a b a' b' : Nat}, mk a b = mk a' b' → a = a' ∧ b = b'
  parse_configure : ∀ (s : Server σ) (cbuf q : Nat),
    D.parse s cbuf (ascii "configure:") q = parseConfigure mk s cbuf q
  parse : ∀ {s : Server σ} {cbuf : Nat} {hdr : List UInt8} {q declared p pend : Nat},
    D.parse s cbuf hdr q = .msg (mk declared p) pend → parseConfigure mk s cbuf q = .msg (mk declared p) pend
  waits : ∀ declared p : Nat, D.waitsForReplies (mk declared p) = false
  exec : ∀ (s : Server σ) (declared p : Nat), D.exec s (mk declared p) = execConfigure locking s declared p
  other : ∀ (s : Server σ) (r : R), (∃ declared p, r = mk declared p) ∨ SameOptions s.c (D.exec s r).c

variable {D : Dispatch σ R} {mk : Nat → Nat → R} {locking : Bool} {P : Protocol σ} {s : Server σ} {c d : Conn σ}

/-- A complete `configure:` is executed, whatever has come behind it. -/
theorem ConfigBranch.dispatched (hb : ConfigBranch D mk locking) {cbuf : Nat} {len : Uleb} {text rest : List UInt8}
    (hlen : text.length = len.value) (hmax : text.length < 2 ^ 32)
    (hh : Holds s cbuf (ascii "configure:" ++ (Uleb.enc [len] ++ text ++ rest))) :
    D.Dispatched s cbuf (mk len.value (cbuf + 10 + (Uleb.enc [len]).length)) (cbuf + 10)
      (cbuf + 10 + (Uleb.enc [len] ++ text).length) where
  complete := by
    have hname : Holds s cbuf (ascii "configure" ++ [58] ++ (Uleb.enc [len] ++ text ++ rest)) := hh
    refine ⟨ascii "configure:", scanHeader_of hname (by decide) (by decide), ?_⟩
    rw [hb.parse_configure]
    exact parseConfigure_whole mk hlen hmax hh.drop
  runs hwait := by
    rw [hb.waits] at hwait
    exact Bool.false_ne_true hwait.1

/-- A `configure:` that is executed: its text is between `p` and `pend`, behind the begin of the message. -/
theorem ConfigBranch.ends (hb : ConfigBranch D mk locking) {cbuf declared p q pend : Nat}
    (hlen : s.bufLen ≤ s.rx.bufMax)
    (hd : D.Dispatched s cbuf (mk declared p) q pend) :
    cbuf ≤ p ∧ p ≤ pend ∧ pend ≤ s.cend ∧ u64 (p + u32 declared) = pend := by
  obtain ⟨hdr, hscan, hparse⟩ := hd.complete
  obtain ⟨hq, hqe⟩ := scanHeader_bounds hscan
  obtain ⟨hmk, hge, hend, hle, hcend⟩ := configure_ends hlen hqe (hb.parse hparse)
  obtain ⟨rfl, rfl⟩ := hb.inj hmk
  exact ⟨by omega, hle, hcend, hend⟩

/-- It does what the items of its text say. -/
theorem ConfigBranch.configured (hb : ConfigBranch D mk locking) {cbuf declared p q pend : Nat}
    (hlen : s.bufLen ≤ s.rx.bufMax) (hd : D.Dispatched s cbuf (mk declared p) q pend) (hf : s.c.failed = false) :
    Configured locking (items (slice s.mem p (pend - p))) s.c (D.exec s (mk declared p)).c := by
  obtain ⟨-, hle, -, hend⟩ := hb.ends hlen hd
  obtain ⟨n, rfl⟩ : ∃ n, pend = p + n := ⟨pend - p, by omega⟩
  have hconf := configure_configured locking s.mem p n hf
  rw [hb.exec, Nat.add_sub_cancel_left]
  unfold execConfigure
  rw [hend, replied_replyStatus.c]
  exact hconf

/-- With an error pending it changes nothing. -/
theorem ConfigBranch.latched (hb : ConfigBranch D mk locking) {cbuf declared p q pend : Nat}
    (hlen : s.bufLen ≤ s.rx.bufMax) (hd : D.Dispatched s cbuf (mk declared p) q pend) (hf : s.c.failed = true) :
    (D.exec s (mk declared p)).c = s.c := by
  obtain ⟨-, hle, -, hend⟩ := hb.ends hlen hd
  obtain ⟨n, rfl⟩ : ∃ n, pend = p + n := ⟨pend - p, by omega⟩
  rw [hb.exec]
  unfold execConfigure
  rw [hend, replied_replyStatus.c]
  exact (configure_spec locking s.mem p n s.c).1.trans (applyConfig_of_failed _ hf)

/-! ## Runs -/

/-- What holds of the options in every state: they are 0 or 1, and the received bytes fit the buffer. -/
structure OptionsInv (c : Conn σ) : Prop where
  boolean : c.s.c.Boolean
  bufLen : c.s.bufLen ≤ c.s.rx.bufMax

theorem OptionsInv.finish (hi : OptionsInv c) (P : Protocol σ) (snd : Nat → Int) (cbuf : Nat) (fill : Bool) :
    OptionsInv (Conn.finish P snd c.s cbuf fill) := by
  unfold Conn.finish
  split
  · have hopt := sameOptions_runFlush P c.s
    have hrec := received_runFlush P c.s
    generalize c.s.runFlush P = x at hopt hrec
    obtain ⟨t, rval⟩ := x
    have hrx : t.rx = c.s.rx := rx_of_received hrec
    have hlen : t.bufLen ≤ t.rx.bufMax := by
      rw [hrx, bufLen_of_received hrec]
      exact hi.bufLen
    have ht : t.c.Boolean := hopt.boolean hi.boolean
    dsimp only
    split
    · exact ⟨ht, hlen⟩
    split
    · exact ⟨ht, hlen⟩
    split
    · exact ⟨ht, hlen⟩
    split
    · exact ⟨ht, Nat.le_trans (Nat.sub_le _ _) hlen⟩
    · exact ⟨ht, Nat.le_trans (Nat.sub_le _ _) hlen⟩
  · exact ⟨hi.boolean, hi.bufLen⟩

/-- **One step** keeps it. -/
theorem OptionsInv.step (hb : ConfigBranch D mk locking) (hP : P.iter = D.iter) (hi : OptionsInv c)
    (hstep : Conn.Step P c d) : OptionsInv d := by
  cases hstep with
  | @advance cbuf snd hp =>
    rw [Conn.advance_parse hp, hP]
    cases hiter : D.iter c.s cbuf with
    | fill => exact hi.finish P snd cbuf true
    | stop => exact hi.finish P snd cbuf false
    | bad => exact ⟨hi.boolean, hi.bufLen⟩
    | abort => exact ⟨hi.boolean, hi.bufLen⟩
    | reply t p =>
      obtain ⟨r, q, hd, rfl⟩ := Dispatch.iter_eq_reply.mp hiter
      obtain ⟨hrx, hlen⟩ := hb.keeps c.s r
      refine ⟨?_, by rw [hrx, hlen]; exact hi.bufLen⟩
      rcases hb.other c.s r with ⟨declared, a, rfl⟩ | hsame
      · cases hf : c.s.c.failed with
        | true =>
          rw [hb.latched hi.bufLen hd hf]
          exact hi.boolean
        | false => exact (hb.configured hi.bufLen hd hf).boolean hi.boolean
      · exact hsame.boolean hi.boolean
  | @recv chunk hp hne hfit =>
    refine ⟨hi.boolean, ?_⟩
    show c.s.bufLen + chunk.length ≤ c.s.rx.bufMax
    have := hi.bufLen
    unfold room at hfit
    omega
  | closed hp => exact ⟨hi.boolean, hi.bufLen⟩
  | failed hp => exact ⟨hi.boolean, hi.bufLen⟩

/-- In this state the options are 0 or 1, a complete `configure:` is executed, for the text that it has, and one that is
executed does what its items say. -/
structure FollowsGrammar (D : Dispatch σ R) (mk : Nat → Nat → R) (locking : Bool) (s : Server σ) : Prop where
  boolean : s.c.Boolean
  complete : ∀ {cbuf : Nat} {len : Uleb} {text rest : List UInt8}, text.length = len.value → text.length < 2 ^ 32 →
    Holds s cbuf (ascii "configure:" ++ (Uleb.enc [len] ++ text ++ rest)) →
    ∃ p q pend, D.Dispatched s cbuf (mk len.value p) q pend ∧ slice s.mem p (pend - p) = text
  configured : ∀ {cbuf declared p q pend : Nat}, D.Dispatched s cbuf (mk declared p) q pend → s.c.failed = false →
    Configured locking (items (slice s.mem p (pend - p))) s.c (D.exec s (mk declared p)).c

/-- **Every state** of a connection, by induction on the run. -/
theorem ConfigBranch.follows (hb : ConfigBranch D mk locking) (hP : P.iter = D.iter) {rx : RxBuffer} {data : σ}
    {error : Option (List UInt8)} {mem replyBuf : ByteMem}
    (hrun : Relation.ReflTransGen (Conn.Step P) (.opened rx mem data error replyBuf) c) :
    FollowsGrammar D mk locking c.s := by
  have hinv : OptionsInv c := by
    induction hrun with
    | refl =>
      refine ⟨⟨?_, ?_⟩, Nat.zero_le _⟩
      · exact .inl (XvcClient.after_enableStatus _ _)
      · exact .inl (XvcClient.after_enableLocking _ _)
    | tail _ hstep ih => exact ih.step hb hP hstep
  refine ⟨hinv.boolean, fun {cbuf len text rest} hlen hmax hh => ?_, fun hd hf => hb.configured hinv.bufLen hd hf⟩
  refine ⟨_, _, _, hb.dispatched hlen hmax hh, ?_⟩
  have htext : Holds c.s (cbuf + 10 + (Uleb.enc [len]).length) (text ++ rest) := by
    have hbody : Holds c.s (cbuf + 10) (Uleb.enc [len] ++ text ++ rest) := hh.drop
    rw [List.append_assoc] at hbody
    exact hbody.drop
  rw [List.length_append, ← Nat.add_assoc, Nat.add_sub_cancel_left]
  exact htext.take

end Xvc
