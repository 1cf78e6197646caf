import Xvc.Lib.LockLog
import Xvc.Versal.Act

/-!
# The lock of `mem/versal`

The scan chain is locked through two optional callbacks. `Audit` is a connection with the log of these
calls and of their success: a call has succeeded when no error is pending after it.

* `LockEffect`: what a step of a connection can do to the lock, `Conn.Step.lockEffect`.
* `LockInv`: `locked` is what the log says, and the option is only on with both callbacks there.
* `lock_protocol`: both on every run of a connection, whatever the callbacks do.
-/

namespace Xvc
namespace Versal

open ByteMem Server

variable {σ : Type} {h : XvcServerHandlers σ} {s t u : Server σ} {r : Request}

/-! ## The log -/

/-- The lock call that a call is, with its result. -/
def lockCall (ok : Bool) : Call → Option LockLog.Call
  | .lock _ => some (.lock ok)
  | .unlock => some (.unlock ok)
  | _ => none

/-- The lock calls between two states of a server. -/
def lockCalls (s t : Server σ) : List LockLog.Call :=
  (callsOf (t.trace.drop s.trace.length)).filterMap (lockCall !t.c.failed)

/-- A connection and the lock calls up to now. -/
structure Audit (σ : Type) where
  conn : Conn σ
  log : List LockLog.Call

/-- A step of a connection adds its lock calls to the log. -/
inductive Audit.Step (P : Protocol σ) : Audit σ → Audit σ → Prop
  | of_step {c d : Conn σ} (log : List LockLog.Call) (hstep : Conn.Step P c d) :
      Step P ⟨c, log⟩ ⟨d, log ++ lockCalls c.s d.s⟩

/-- Events that have nothing to do with the lock, and are no call of a NULL pointer. -/
def PlainEvent : Event → Prop
  | .call c => c.Plain
  | .nullCall => False
  | _ => True

theorem lockCall_plain {c : Call} (hc : c.Plain) (ok : Bool) : lockCall ok c = none := by
  cases c with
  | lock timeout => exact hc.elim
  | unlock => exact hc.elim
  | _ => rfl

theorem plain_of_mem_callsOf {es : List Event} (hes : ∀ e ∈ es, PlainEvent e) : ∀ c ∈ callsOf es, c.Plain := by
  intro c hc
  obtain ⟨e, he, heq⟩ := List.mem_filterMap.mp hc
  cases e with
  | call c' => cases heq; exact hes _ he
  | _ => cases heq

theorem lockCalls_plain {es : List Event} (hes : ∀ e ∈ es, PlainEvent e) (ok : Bool) :
    (callsOf es).filterMap (lockCall ok) = [] :=
  List.filterMap_eq_nil_iff.mpr fun c hc => lockCall_plain (plain_of_mem_callsOf hes c hc) ok

/-! ## What a step does to the lock -/

/-- Between the two states nothing happened to the lock. -/
structure Quiet (s t : Server σ) : Prop where
  events : ∃ es, t.trace = s.trace ++ es ∧ ∀ e ∈ es, PlainEvent e
  locked : t.c.locked = s.c.locked

theorem Quiet.refl (s : Server σ) : Quiet s s := ⟨⟨[], by simp, by simp⟩, rfl⟩

theorem Quiet.trans (h : Quiet s t) (h' : Quiet t u) : Quiet s u := by
  obtain ⟨es, he, hp⟩ := h.events
  obtain ⟨es', he', hp'⟩ := h'.events
  refine ⟨⟨es ++ es', by rw [he', he, List.append_assoc], fun e hm => ?_⟩, h'.locked.trans h.locked⟩
  rcases List.mem_append.mp hm with hm | hm
  · exact hp e hm
  · exact hp' e hm

theorem Quiet.lockCalls (h : Quiet s t) : lockCalls s t = [] := by
  obtain ⟨es, he, hp⟩ := h.events
  rw [Versal.lockCalls, he, List.drop_left]
  exact lockCalls_plain hp _

theorem Quiet.of_replied (h : Replied s t) : Quiet s t := by
  obtain ⟨es, he, hs⟩ := h.events
  refine ⟨⟨es, he, fun e hm => ?_⟩, by rw [h.c]⟩
  obtain ⟨i, n, rfl⟩ := hs e hm
  trivial

/-- The one lock call between two states. -/
def Called (c : Call) (s t : Server σ) : Prop :=
  ∃ es, t.trace = s.trace ++ .call c :: es ∧ ∀ e ∈ es, PlainEvent e

theorem called_callback (s : Server σ) (c : Call) (x : CallResult σ) : Called c s (s.callback c x) := by
  rw [callback_eq]
  refine ⟨x.stores.map fun w => .store w.1 w.2.length, by simp, fun e hm => ?_⟩
  obtain ⟨w, -, rfl⟩ := List.mem_map.mp hm
  trivial

theorem Called.quiet {c : Call} (h : Called c s t) (hq : Quiet t u) : Called c s u := by
  obtain ⟨es, he, hp⟩ := h
  obtain ⟨es', he', hp'⟩ := hq.events
  refine ⟨es ++ es', by rw [he', he]; simp, fun e hm => ?_⟩
  rcases List.mem_append.mp hm with hm | hm
  · exact hp e hm
  · exact hp' e hm

theorem Called.lockCalls {c : Call} (h : Called c s t) : lockCalls s t = (lockCall (!t.c.failed) c).toList := by
  obtain ⟨es, he, hp⟩ := h
  have hcalls : callsOf (Event.call c :: es) = c :: callsOf es := rfl
  rw [Versal.lockCalls, he, List.drop_left, hcalls, List.filterMap_cons]
  cases lockCall (!t.c.failed) c <;> simp [lockCalls_plain hp]

theorem locked_callback (s : Server σ) (c : Call) (x : CallResult σ) : (s.callback c x).c.locked = s.c.locked := by
  rw [callback_eq]
  exact XvcClient.after_locked _ _

theorem enableLocking_callback (s : Server σ) (c : Call) (x : CallResult σ) :
    (s.callback c x).c.enableLocking = s.c.enableLocking := by
  rw [callback_eq]
  exact XvcClient.after_enableLocking _ _

theorem pendingError_callback (s : Server σ) (c : Call) (x : CallResult σ) :
    (s.callback c x).c.pendingError = (s.c.after x.error).pendingError := by
  rw [callback_eq]

/-- Once a call is done `locked` is set, unless the call has failed. -/
theorem setLocked_spec (t : Server σ) (v : Int) :
    (setLocked t v).trace = t.trace ∧ (setLocked t v).c.pendingError = t.c.pendingError ∧
      (setLocked t v).c.enableLocking = t.c.enableLocking ∧
      (setLocked t v).c.locked = if t.c.failed then t.c.locked else v := by
  unfold setLocked Server.unlessFailed
  cases hf : t.c.failed with
  | true => exact ⟨rfl, rfl, rfl, rfl⟩
  | false => exact ⟨rfl, rfl, rfl, rfl⟩

/-- What a step can do to the lock. -/
inductive LockEffect (h : XvcServerHandlers σ) (s t : Server σ) : Prop
  | quiet (hq : Quiet s t)
  /-- `lock` is called while the lock is free and no reply is pending. -/
  | lock {timeout : Nat} {f : σ → Nat → CallResult σ} (hlock : h.lock = some f) (hcall : Called (.lock timeout) s t)
      (hf : s.c.failed = false) (hfree : s.c.locked = 0) (hreply : s.replyLen = 0)
      (herror : t.c.pendingError = (s.c.after (f s.clientData timeout).error).pendingError)
      (hlocked : t.c.locked = if t.c.failed then 0 else 1)
  /-- `unlock` is called while it is held. -/
  | unlock {f : σ → CallResult σ} (hunlock : h.unlock = some f) (hcall : Called .unlock s t)
      (hf : s.c.failed = false) (hheld : s.c.locked ≠ 0)
      (herror : t.c.pendingError = (s.c.after (f s.clientData).error).pendingError)
      (hlocked : t.c.locked = if t.c.failed then s.c.locked else 0)

/-- The client's option needs both callbacks. -/
def EnabledKnown (h : XvcServerHandlers σ) (s : Server σ) : Prop :=
  s.c.enableLocking ≠ 0 → lockingAvailable h

theorem Quiet.of_callback {c : Call} (hc : c.Plain) (x : CallResult σ) : Quiet s (s.callback c x) := by
  obtain ⟨es, he, hp⟩ := called_callback s c x
  refine ⟨⟨.call c :: es, he, fun e hm => ?_⟩, locked_callback s c x⟩
  rcases List.mem_cons.mp hm with rfl | hm
  · exact hc
  · exact hp e hm

/-- A request and its reply. -/
theorem Acts.lockEffect (ha : Acts h s r t) (hr : Replied t u) (hk : EnabledKnown h s)
    (hwait : ∀ timeout, r = .lock timeout → s.replyLen = 0) : LockEffect h s u ∧ EnabledKnown h u := by
  have hq : Quiet t u := .of_replied hr
  cases ha with
  | none htrace hdata hlocked henable =>
    refine ⟨.quiet (.trans ⟨⟨[], by simp [htrace], by simp⟩, hlocked⟩ hq), fun hne => ?_⟩
    rw [hr.c] at hne
    rcases henable with he | he
    · exact hk (by rwa [he] at hne)
    · exact he
  | plain hc hf =>
    refine ⟨.quiet ((Quiet.of_callback hc _).trans hq), fun hne => hk ?_⟩
    rwa [hr.c, enableLocking_callback] at hne
  | @lock timeout f hlock hf henable hfree =>
    have hcall : Called (.lock timeout) s (s.callback (.lock timeout) (f s.clientData timeout)) := called_callback _ _ _
    have hl := locked_callback s (.lock timeout) (f s.clientData timeout)
    have herr := pendingError_callback s (.lock timeout) (f s.clientData timeout)
    generalize s.callback (.lock timeout) (f s.clientData timeout) = w at *
    obtain ⟨htr, hpe, -, hlo⟩ := setLocked_spec w 1
    obtain ⟨es, hes, hp⟩ := hcall
    have hcalled : Called (.lock timeout) s (setLocked w 1) := ⟨es, htr.trans hes, hp⟩
    have hfa : (setLocked w 1).c.failed = w.c.failed := by simp only [XvcClient.failed, hpe]
    refine ⟨.lock hlock (hcalled.quiet hq) hf hfree (hwait timeout rfl) ?_ ?_, fun hne => hk henable⟩
    · rw [hr.c, hpe, herr]
    · rw [hr.c, hlo, hfa, hl, hfree]
  | @unlock f hunlock hf henable hheld =>
    have hcall : Called .unlock s (s.callback .unlock (f s.clientData)) := called_callback _ _ _
    have hl := locked_callback s .unlock (f s.clientData)
    have herr := pendingError_callback s .unlock (f s.clientData)
    generalize s.callback .unlock (f s.clientData) = w at *
    obtain ⟨htr, hpe, -, hlo⟩ := setLocked_spec w 0
    obtain ⟨es, hes, hp⟩ := hcall
    have hcalled : Called .unlock s (setLocked w 0) := ⟨es, htr.trans hes, hp⟩
    have hfa : (setLocked w 0).c.failed = w.c.failed := by simp only [XvcClient.failed, hpe]
    refine ⟨.unlock hunlock (hcalled.quiet hq) hf hheld ?_ ?_, fun hne => hk henable⟩
    · rw [hr.c, hpe, herr]
    · rw [hr.c, hlo, hfa, hl]

/-- `flush` has nothing to do with the lock. -/
theorem quiet_runFlush (P : Protocol σ) (s : Server σ) :
    Quiet s (s.runFlush P).1 ∧ (s.runFlush P).1.c.enableLocking = s.c.enableLocking := by
  unfold runFlush
  cases P.flush with
  | none => exact ⟨.refl s, rfl⟩
  | some f =>
    have hev : ∀ e ∈ Event.flush :: (f s.clientData s.mem).1.stores.map fun w => Event.store w.1 w.2.length,
        PlainEvent e := by
      intro e hm
      rcases List.mem_cons.mp hm with rfl | hm
      · trivial
      · obtain ⟨w, -, rfl⟩ := List.mem_map.mp hm
        trivial
    simp only [stores_eq]
    split
    · exact ⟨⟨⟨_, by simp, hev⟩, rfl⟩, rfl⟩
    · exact ⟨⟨⟨_, by simp, hev⟩, rfl⟩, rfl⟩

/-- What comes after the loop has nothing to do with the lock. -/
theorem quiet_finish (P : Protocol σ) (snd : Nat → Int) (s : Server σ) (cbuf : Nat) (fill : Bool) :
    Quiet s (Conn.finish P snd s cbuf fill).s ∧
      (Conn.finish P snd s cbuf fill).s.c.enableLocking = s.c.enableLocking := by
  have hrun := quiet_runFlush P s
  unfold Conn.finish
  split
  · generalize s.runFlush P = x at hrun
    obtain ⟨t, rval⟩ := x
    obtain ⟨hq, he⟩ := hrun
    have hsend : Quiet s (t.logSend (snd t.replyLen)) := hq.trans ⟨⟨[_], rfl, by simp [PlainEvent]⟩, rfl⟩
    simp only
    split
    · exact ⟨hq, he⟩
    split
    · exact ⟨hsend, he⟩
    split
    · exact ⟨hsend, he⟩
    split
    · exact ⟨hsend.trans ⟨⟨[], by simp [Conn.readMore, consume], by simp⟩, rfl⟩, he⟩
    · exact ⟨hsend.trans ⟨⟨[], by simp [consume], by simp⟩, rfl⟩, he⟩
  · exact ⟨.refl s, rfl⟩

/-- **One step.** Every step does one of these things to the lock. -/
theorem lockEffect_step {c d : Conn σ} (hstep : Conn.Step (protocol h) c d) (hk : EnabledKnown h c.s) :
    LockEffect h c.s d.s ∧ EnabledKnown h d.s := by
  cases hstep with
  | @advance cbuf snd hp =>
    have hfin : ∀ fill, LockEffect h c.s (Conn.finish (protocol h) snd c.s cbuf fill).s ∧
        EnabledKnown h (Conn.finish (protocol h) snd c.s cbuf fill).s := fun fill => by
      obtain ⟨hq, he⟩ := quiet_finish (protocol h) snd c.s cbuf fill
      exact ⟨.quiet hq, fun hne => hk (by rwa [he] at hne)⟩
    rw [Conn.advance_parse hp]
    cases hiter : (protocol h).iter c.s cbuf with
    | fill => exact hfin true
    | stop => exact hfin false
    | bad => exact ⟨.quiet (.refl _), hk⟩
    | abort => exact ⟨.quiet (.refl _), hk⟩
    | reply t p =>
      obtain ⟨r, q, ⟨⟨hdr, -, hparse⟩, hruns⟩, rfl⟩ := Dispatch.iter_eq_reply.mp hiter
      refine (acts_act (parse_available hparse) hk).lockEffect (exec_replied h c.s r) hk ?_
      rintro timeout rfl
      exact Nat.eq_zero_of_not_pos fun hpos => hruns ⟨rfl, hpos⟩
  | recv hp hne hfit => exact ⟨.quiet ⟨⟨[], by simp [Conn.receive, Conn.readMore, receive], by simp⟩, rfl⟩, hk⟩
  | closed hp => exact ⟨.quiet ⟨⟨[], by simp, by simp⟩, rfl⟩, hk⟩
  | failed hp => exact ⟨.quiet ⟨⟨[], by simp, by simp⟩, rfl⟩, hk⟩

/-! ## The answers -/

/-- How a message is answered that asks for the call `c`. With an error pending it changes nothing; the
call is made when the lock is `able` to take it, and otherwise the message latches the error `refusal`. -/
inductive LockAnswer (s t : Server σ) (c : Call) (able : Prop) (refusal : List UInt8) : Prop
  | latched (hf : s.c.failed = true) (hc : t.c = s.c) (hq : Quiet s t)
  | called (hf : s.c.failed = false) (hable : able) (hcall : Called c s t)
  | refused (hf : s.c.failed = false) (hable : ¬ able) (hc : t.c = s.c.setError refusal)
      (herror : t.c.failed = true) (hq : Quiet s t)

/-- The record with an error, before the reply. -/
theorem LockAnswer.of_refused {c : Call} {able : Prop} {refusal : List UInt8} (hf : s.c.failed = false)
    (hable : ¬ able) (herror : (s.c.setError refusal).failed = true)
    (hr : Replied { s with c := s.c.setError refusal } t) : LockAnswer s t c able refusal := by
  have hrefused : Quiet s { s with c := s.c.setError refusal } := ⟨⟨[], by simp, by simp⟩, rfl⟩
  have hc : t.c = s.c.setError refusal := hr.c
  exact .refused hf hable hc (by rw [hc]; exact herror) (hrefused.trans (.of_replied hr))

theorem LockAnswer.of_called {w : Server σ} {c : Call} {able : Prop} {refusal : List UInt8} {v : Int}
    (hf : s.c.failed = false) (hable : able) (hcall : Called c s w) (hr : Replied (setLocked w v) t) :
    LockAnswer s t c able refusal := by
  obtain ⟨es, he, hp⟩ := hcall
  obtain ⟨htrace, -⟩ := setLocked_spec w v
  have hset : Called c s (setLocked w v) := ⟨es, htrace.trans he, hp⟩
  exact .called hf hable (hset.quiet (.of_replied hr))

/-- A `lock:` needs the option, and the lock to be free. -/
theorem lockAnswer_lock (hk : EnabledKnown h s) (timeout : Nat) :
    LockAnswer s (exec h s (.lock timeout)) (.lock timeout) (s.c.enableLocking ≠ 0 ∧ s.c.locked = 0)
      (ascii (if s.c.enableLocking = 0 then "locking is disabled" else "already locked")) := by
  have hr := exec_replied h s (.lock timeout)
  rw [act, Server.unlessFailed] at hr
  cases hf : s.c.failed with
  | true =>
    rw [hf, if_pos rfl] at hr
    exact .latched hf hr.c (.of_replied hr)
  | false =>
    rw [hf, if_neg (by simp)] at hr
    by_cases hdisabled : s.c.enableLocking = 0
    · rw [if_pos hdisabled] at hr ⊢
      exact .of_refused hf (fun hable => hable.1 hdisabled) rfl hr
    · rw [if_neg hdisabled] at hr ⊢
      by_cases hlocked : s.c.locked = 0
      · rw [if_neg (not_not_intro hlocked)] at hr
        have hboth := hk hdisabled
        simp only [lockingAvailable, Bool.and_eq_true] at hboth
        obtain ⟨f, hlock⟩ := Option.isSome_iff_exists.mp hboth.1
        rw [hlock] at hr
        exact .of_called hf ⟨hdisabled, hlocked⟩ (called_callback s _ _) hr
      · rw [if_pos hlocked] at hr
        exact .of_refused hf (fun hable => hlocked hable.2) rfl hr

/-- An `unlock:` needs the option, and the lock to be held. -/
theorem lockAnswer_unlock (hk : EnabledKnown h s) :
    LockAnswer s (exec h s .unlock) .unlock (s.c.enableLocking ≠ 0 ∧ s.c.locked ≠ 0)
      (ascii (if s.c.enableLocking = 0 then "locking is disabled" else "already unlocked")) := by
  have hr := exec_replied h s .unlock
  rw [act, Server.unlessFailed] at hr
  cases hf : s.c.failed with
  | true =>
    rw [hf, if_pos rfl] at hr
    exact .latched hf hr.c (.of_replied hr)
  | false =>
    rw [hf, if_neg (by simp)] at hr
    by_cases hdisabled : s.c.enableLocking = 0
    · rw [if_pos hdisabled] at hr ⊢
      exact .of_refused hf (fun hable => hable.1 hdisabled) rfl hr
    · rw [if_neg hdisabled] at hr ⊢
      by_cases hlocked : s.c.locked = 0
      · rw [if_pos hlocked] at hr
        exact .of_refused hf (fun hable => hable.2 hlocked) rfl hr
      · rw [if_neg hlocked] at hr
        have hboth := hk hdisabled
        simp only [lockingAvailable, Bool.and_eq_true] at hboth
        obtain ⟨f, hunlock⟩ := Option.isSome_iff_exists.mp hboth.2
        rw [hunlock] at hr
        exact .of_called hf ⟨hdisabled, hlocked⟩ (called_callback s _ _) hr

/-- The step that executes a request. -/
theorem step_of_dispatched {c d : Conn σ} {cbuf q p : Nat} (hstep : Conn.Step (protocol h) c d)
    (hp : c.phase = .parse cbuf) (hd : (dispatch h).Dispatched c.s cbuf r q p) : d.s = exec h c.s r := by
  cases hstep with
  | @advance cbuf' snd hp' =>
    obtain rfl : cbuf = cbuf' := by
      rw [hp] at hp'
      exact Phase.parse.inj hp'
    have hiter : (protocol h).iter c.s cbuf = .reply (exec h c.s r) p :=
      Dispatch.iter_eq_reply.mpr ⟨r, q, hd, rfl⟩
    rw [Conn.advance_parse hp, hiter]
  | recv hrecv => rw [hp] at hrecv; cases hrecv
  | closed hrecv => rw [hp] at hrecv; cases hrecv
  | failed hrecv => rw [hp] at hrecv; cases hrecv

/-! ## Runs -/

/-- `locked` is what the log says, nothing called a NULL pointer, and the option needs both callbacks. -/
structure LockInv (h : XvcServerHandlers σ) (a : Audit σ) : Prop where
  noNull : Event.nullCall ∉ a.conn.s.trace
  enabled : EnabledKnown h a.conn.s
  locked : ∃ b, LockLog.held false a.log = some b ∧ a.conn.s.c.locked = if b then 1 else 0

theorem LockEffect.events (he : LockEffect h s t) :
    ∃ es, t.trace = s.trace ++ es ∧ Event.nullCall ∉ es := by
  have hplain : ∀ es : List Event, (∀ e ∈ es, PlainEvent e) → Event.nullCall ∉ es := fun es hp hm => hp _ hm
  cases he with
  | quiet hq =>
    obtain ⟨es, he, hp⟩ := hq.events
    exact ⟨es, he, hplain es hp⟩
  | lock hlock hcall =>
    obtain ⟨es, he, hp⟩ := hcall
    exact ⟨_, he, by simpa using hplain es hp⟩
  | unlock hunlock hcall =>
    obtain ⟨es, he, hp⟩ := hcall
    exact ⟨_, he, by simpa using hplain es hp⟩

/-- The log follows the flag. -/
theorem LockEffect.held (he : LockEffect h s t) {b : Bool} (hb : s.c.locked = if b then 1 else 0) :
    ∃ b', LockLog.held b (lockCalls s t) = some b' ∧ t.c.locked = if b' then 1 else 0 := by
  cases he with
  | quiet hq => exact ⟨b, by rw [hq.lockCalls]; rfl, by rw [hq.locked, hb]⟩
  | lock hlock hcall hf hfree hreply herror hlocked =>
    obtain rfl : b = false := by
      cases b with
      | false => rfl
      | true => rw [hfree] at hb; exact absurd hb (by decide)
    refine ⟨!t.c.failed, by rw [hcall.lockCalls]; rfl, ?_⟩
    rw [hlocked]
    cases t.c.failed <;> rfl
  | unlock hunlock hcall hf hheld herror hlocked =>
    obtain rfl : b = true := by
      cases b with
      | true => rfl
      | false => exact absurd hb hheld
    refine ⟨t.c.failed, by rw [hcall.lockCalls]; simp [lockCall, LockLog.held], ?_⟩
    rw [hlocked, hb]
    cases t.c.failed <;> rfl

theorem LockInv.step {a b : Audit σ} (hi : LockInv h a) (hstep : Audit.Step (protocol h) a b) : LockInv h b := by
  obtain @⟨c, d, log, hstep⟩ := hstep
  obtain ⟨he, hk⟩ := lockEffect_step hstep hi.enabled
  obtain ⟨b₀, hlog, hlocked⟩ := hi.locked
  obtain ⟨b₁, hcalls, hlocked'⟩ := he.held hlocked
  refine ⟨?_, hk, b₁, ?_, hlocked'⟩
  · obtain ⟨es, htr, hno⟩ := he.events
    show Event.nullCall ∉ d.s.trace
    rw [htr]
    exact fun hm => (List.mem_append.mp hm).elim hi.noNull hno
  · rw [LockLog.held_append_of hlog]
    exact hcalls

theorem Quiet.plain_of_mem (hq : Quiet s t) {c : Call} (hm : Event.call c ∈ t.trace.drop s.trace.length) : c.Plain := by
  obtain ⟨es, he, hp⟩ := hq.events
  rw [he, List.drop_left] at hm
  exact hp _ hm

theorem Called.eq_of_mem {c c' : Call} (hcall : Called c s t) (hm : Event.call c' ∈ t.trace.drop s.trace.length) :
    c' = c ∨ c'.Plain := by
  obtain ⟨es, he, hp⟩ := hcall
  rw [he, List.drop_left] at hm
  rcases List.mem_cons.mp hm with heq | hm
  · cases heq
    exact .inl rfl
  · exact .inr (hp _ hm)

/-- A call of `lock` that a step makes. -/
theorem LockEffect.of_lock (he : LockEffect h s t) {timeout : Nat}
    (hm : Event.call (.lock timeout) ∈ t.trace.drop s.trace.length) :
    s.c.locked = 0 ∧ s.replyLen = 0 ∧ ∃ f, h.lock = some f ∧
      t.c.pendingError = (s.c.after (f s.clientData timeout).error).pendingError ∧
      (t.c.failed = true → t.c.locked = s.c.locked) := by
  cases he with
  | quiet hq => exact (hq.plain_of_mem hm).elim
  | lock hlock hcall hf hfree hreply herror hlocked =>
    rcases hcall.eq_of_mem hm with heq | hp
    · cases heq
      exact ⟨hfree, hreply, _, hlock, herror, fun hfail => by rw [hlocked, if_pos hfail, hfree]⟩
    · exact hp.elim
  | unlock hunlock hcall =>
    rcases hcall.eq_of_mem hm with heq | hp
    · cases heq
    · exact hp.elim

/-- A call of `unlock` that a step makes. -/
theorem LockEffect.of_unlock (he : LockEffect h s t) (hm : Event.call .unlock ∈ t.trace.drop s.trace.length) :
    ∃ f, h.unlock = some f ∧ t.c.pendingError = (s.c.after (f s.clientData).error).pendingError ∧
      (t.c.failed = true → t.c.locked = s.c.locked) := by
  cases he with
  | quiet hq => exact (hq.plain_of_mem hm).elim
  | lock hlock hcall =>
    rcases hcall.eq_of_mem hm with heq | hp
    · cases heq
    · exact hp.elim
  | unlock hunlock hcall hf hheld herror hlocked =>
    exact ⟨_, hunlock, herror, fun hfail => by rw [hlocked, if_pos hfail]⟩

theorem lockInv_of_run {a b : Audit σ} (hi : LockInv h a)
    (hrun : Relation.ReflTransGen (Audit.Step (protocol h)) a b) : LockInv h b := by
  induction hrun with
  | refl => exact hi
  | tail _ hstep ih => exact ih.step hstep

theorem lockInv_start (h : XvcServerHandlers σ) (rx : RxBuffer) (data : σ) (mem replyBuf : ByteMem)
    {log : List LockLog.Call} (hlog : LockLog.held false log = some false) :
    LockInv h ⟨Conn.start rx data mem replyBuf, log⟩ :=
  ⟨List.not_mem_nil, fun hne => absurd rfl hne, false, hlog, rfl⟩

/-- **The lock protocol.** Any handlers, any bytes from the client, any chunks, any results of `send`. No
NULL pointer is called; the option is only on with both callbacks there; the successful calls alternate,
and `locked` is 1 exactly while the last of them is a `lock`; a call that fails leaves it as it was; the
error of a call is the one that is pending after it; `lock` is only called with no reply pending; and
each `lock:` and `unlock:` calls its callback, or latches an error and leaves `locked`, or finds an error
pending and changes nothing. -/
theorem lock_protocol (h : XvcServerHandlers σ) (rx : RxBuffer) (data : σ) (mem replyBuf : ByteMem) (a : Audit σ)
    (hrun : Relation.ReflTransGen (Audit.Step (protocol h)) ⟨Conn.start rx data mem replyBuf, []⟩ a) :
    Event.nullCall ∉ a.conn.s.trace ∧
    (a.conn.s.c.enableLocking ≠ 0 → h.lock.isSome ∧ h.unlock.isSome) ∧
    (false :: LockLog.successes a.log).IsChain (· ≠ ·) ∧
    (∃ b, LockLog.held false a.log = some b ∧ a.conn.s.c.locked = if b then 1 else 0) ∧
    ∀ d, Conn.Step (protocol h) a.conn d →
      (∀ timeout, Event.call (.lock timeout) ∈ d.s.trace.drop a.conn.s.trace.length →
        a.conn.s.replyLen = 0 ∧ ∃ f, h.lock = some f ∧
          d.s.c.pendingError = (a.conn.s.c.after (f a.conn.s.clientData timeout).error).pendingError ∧
          (d.s.c.failed = true → d.s.c.locked = a.conn.s.c.locked)) ∧
      (Event.call .unlock ∈ d.s.trace.drop a.conn.s.trace.length →
        ∃ f, h.unlock = some f ∧
          d.s.c.pendingError = (a.conn.s.c.after (f a.conn.s.clientData).error).pendingError ∧
          (d.s.c.failed = true → d.s.c.locked = a.conn.s.c.locked)) ∧
      (∀ cbuf timeout q p, a.conn.phase = .parse cbuf →
        (dispatch h).Dispatched a.conn.s cbuf (.lock timeout) q p →
        LockAnswer a.conn.s d.s (.lock timeout) (a.conn.s.c.enableLocking ≠ 0 ∧ a.conn.s.c.locked = 0)
          (ascii (if a.conn.s.c.enableLocking = 0 then "locking is disabled" else "already locked"))) ∧
      ∀ cbuf q p, a.conn.phase = .parse cbuf → (dispatch h).Dispatched a.conn.s cbuf .unlock q p →
        LockAnswer a.conn.s d.s .unlock (a.conn.s.c.enableLocking ≠ 0 ∧ a.conn.s.c.locked ≠ 0)
          (ascii (if a.conn.s.c.enableLocking = 0 then "locking is disabled" else "already unlocked")) := by
  have hi := lockInv_of_run (lockInv_start h rx data mem replyBuf rfl) hrun
  obtain ⟨b, hlog, hlocked⟩ := hi.locked
  refine ⟨hi.noNull, fun hne => ?_, LockLog.alternates hlog, ⟨b, hlog, hlocked⟩, fun d hstep => ?_⟩
  · have hboth := hi.enabled hne
    simpa [lockingAvailable] using hboth
  · have he := (lockEffect_step hstep hi.enabled).1
    refine ⟨fun timeout hm => (he.of_lock hm).2, fun hm => he.of_unlock hm, ?_, ?_⟩
    · intro cbuf timeout q p hp hd
      rw [step_of_dispatched hstep hp hd]
      exact lockAnswer_lock hi.enabled timeout
    · intro cbuf q p hp hd
      rw [step_of_dispatched hstep hp hd]
      exact lockAnswer_unlock hi.enabled

/-- Handlers with a lock that can always be taken. -/
def lockHandlers : XvcServerHandlers Unit where
  setTck d nsperiod := ({ clientData := d }, nsperiod)
  shiftTmsTdi d _ _ _ _ _ := { clientData := d }
  lock := some fun d _ => { clientData := d }
  unlock := some fun d => { clientData := d }
  registerShift := none
  state := none
  flush := none
  mrd := none
  mwr := none

/-- `read_packet` goes on. -/
def Audit.advance (a : Audit Unit) : Audit Unit :=
  ⟨Conn.advance (protocol lockHandlers) Conn.sendAll a.conn,
    a.log ++ lockCalls a.conn.s (Conn.advance (protocol lockHandlers) Conn.sendAll a.conn).s⟩

theorem Audit.advance_step (a : Audit Unit) (cbuf : Nat) (hp : a.conn.phase = .parse cbuf) :
    Audit.Step (protocol lockHandlers) a a.advance :=
  .of_step a.log (.advance Conn.sendAll hp)

/-- `recv` returns. -/
def Audit.receive (a : Audit Unit) (chunk : List UInt8) : Audit Unit :=
  ⟨a.conn.receive chunk, a.log ++ lockCalls a.conn.s (a.conn.receive chunk).s⟩

/-- A client that turns the option on. -/
def enableLocking : List UInt8 := ascii "configure:" ++ [8] ++ ascii "locking+"

/-- A new connection that has received `bytes`. -/
def auditOf (bytes : List UInt8) : Audit Unit :=
  (Audit.advance ⟨Conn.start (Server.loaded () []).rx () zeroHub zeroHub, []⟩).receive bytes

theorem auditOf_run {bytes : List UInt8} (hne : bytes ≠ []) (hfit : bytes.length ≤ 10000) :
    Relation.ReflTransGen (Audit.Step (protocol lockHandlers))
      ⟨Conn.start (Server.loaded () []).rx () zeroHub zeroHub, []⟩ (auditOf bytes) :=
  .tail (.tail .refl (Audit.advance_step _ 0x1000 rfl)) (.of_step _ (.recv rfl hne hfit))

/-- The connection that has taken the lock and is asked for it again: the loop stops before each `lock:`, to send
the replies first. -/
def lockTaken : Audit Unit :=
  (auditOf (enableLocking ++ ascii "lock:" ++ [5] ++ ascii "lock:" ++ [6])).advance.advance.advance.advance

theorem lockTaken_run : Relation.ReflTransGen (Audit.Step (protocol lockHandlers))
    ⟨Conn.start (Server.loaded () []).rx () zeroHub zeroHub, []⟩ lockTaken :=
  .tail (.tail (.tail (.tail (auditOf_run (by decide) (by decide)) (Audit.advance_step _ 0x1000 rfl))
    (Audit.advance_step _ 0x1013 (by decide))) (Audit.advance_step _ 0x1000 (by decide)))
    (Audit.advance_step _ 0x1006 (by decide))

theorem lockTaken_dispatched : (dispatch lockHandlers).Dispatched lockTaken.conn.s 0x1000 (.lock 6) 0x1005 0x1006 :=
  ⟨⟨ascii "lock:", by decide +kernel, by decide +kernel⟩, fun hwait => absurd hwait.2 (by decide)⟩

theorem lock_protocol_taken :
    lockTaken.log = [.lock true] ∧ lockTaken.conn.s.c.locked = 1 ∧ Event.nullCall ∉ lockTaken.conn.s.trace ∧
      (false :: LockLog.successes lockTaken.log).IsChain (· ≠ ·) ∧
      LockAnswer lockTaken.conn.s lockTaken.advance.conn.s (.lock 6)
        (lockTaken.conn.s.c.enableLocking ≠ 0 ∧ lockTaken.conn.s.c.locked = 0) (ascii "already locked") ∧
      lockTaken.advance.conn.s.c.failed = true ∧ lockTaken.advance.conn.s.c.locked = 1 := by
  have hall := lock_protocol lockHandlers (Server.loaded () []).rx () zeroHub zeroHub lockTaken lockTaken_run
  have hphase : lockTaken.conn.phase = .parse 0x1000 := by decide
  have hlast := hall.2.2.2.2 lockTaken.advance.conn (.advance Conn.sendAll hphase)
  have hanswer := hlast.2.2.1 0x1000 6 0x1005 0x1006 hphase lockTaken_dispatched
  rw [if_neg (show ¬ lockTaken.conn.s.c.enableLocking = 0 by decide)] at hanswer
  exact ⟨by decide, by decide, hall.1, hall.2.2.1, hanswer, by decide, by decide⟩

end Versal
end Xvc
