import Xvc.Server.Messages

/-!
# What the branches do, without addresses

The branches of `read_packet` write their replies into a shared buffer at a running index. This
module abstracts from that: a server's `view` is its client record, the implementation's state, the
reply bytes that wait to be sent, and what an observer has seen so far. Each reply helper appends to
the pending bytes (`view_replyBytes`, `view_replyStatus`, `view_replyUleb128`), as long as they fit
the reply buffer.

* `Outcome`: what one message does to a view (`View.apply`).
* `Performs`: a callback's result against what the callback is meant to do: which state and error,
  and for a callback with a data buffer, which bytes it fills it with.
* `Outcome.withStatus`, `Outcome.ofCall`, `Outcome.ofData`: the common shapes of a branch.
-/

namespace Xvc

open ByteMem

variable {σ A B : Type}

/-- What the messages act on. -/
structure Core (σ : Type) where
  c : XvcClient
  data : σ

/-- What one message does: the state after it, its reply, and its handler calls. -/
structure Outcome (A : Type) where
  core : A
  reply : List UInt8 := []
  calls : List Call := []

/-- A server without addresses. -/
structure View (A : Type) where
  core : A
  pending : List UInt8
  calls : List Call
  sent : List UInt8

namespace View

/-- A message was executed. -/
def apply (v : View A) (o : Outcome A) : View A :=
  ⟨o.core, v.pending ++ o.reply, v.calls ++ o.calls, v.sent⟩

/-- Bytes were appended to the reply. -/
def reply (v : View A) (l : List UInt8) : View A := ⟨v.core, v.pending ++ l, v.calls, v.sent⟩

/-- The pending bytes were sent. -/
def flush (v : View A) : View A := ⟨v.core, [], v.calls, v.sent ++ v.pending⟩

def map (f : A → B) (v : View A) : View B := ⟨f v.core, v.pending, v.calls, v.sent⟩

@[simp] theorem reply_nil (v : View A) : v.reply [] = v := by simp [reply]

@[simp] theorem reply_reply (v : View A) (l l' : List UInt8) : (v.reply l).reply l' = v.reply (l ++ l') := by
  simp [reply]

theorem apply_reply (v : View A) (o : Outcome A) (l : List UInt8) :
    (v.apply o).reply l = v.apply { o with reply := o.reply ++ l } := by simp [reply, apply]

theorem reply_eq_apply (v : View A) (l : List UInt8) : v.reply l = v.apply { core := v.core, reply := l } := by
  simp [reply, apply]

end View

/-! ## Outcomes -/

/-- The status byte: whether an error is pending. -/
def XvcClient.status (c : XvcClient) : UInt8 := if c.failed then 1 else 0

theorem XvcClient.status_of_failed {c : XvcClient} (h : c.failed = true) : c.status = 1 := by simp [status, h]

theorem XvcClient.status_of_ok {c : XvcClient} (h : c.failed = false) : c.status = 0 := by simp [status, h]

/-- What a callback is meant to do: the new state, and the error it raises. -/
structure Result (σ : Type) where
  data : σ
  error : Option (List UInt8) := none

/-- The callback raises an error (an empty text is none). -/
def Result.fails (e : Result σ) : Bool :=
  match e.error with
  | some t => !(PendingError.ofText t).text.isEmpty
  | none => false

/-- The client record after a callback that raised `error`. -/
def XvcClient.after (c : XvcClient) (error : Option (List UInt8)) : XvcClient :=
  match error with
  | some t => c.setError t
  | none => c

@[simp] theorem XvcClient.after_enableLocking (c : XvcClient) (error : Option (List UInt8)) :
    (c.after error).enableLocking = c.enableLocking := by cases error <;> rfl

@[simp] theorem XvcClient.after_locked (c : XvcClient) (error : Option (List UInt8)) :
    (c.after error).locked = c.locked := by cases error <;> rfl

@[simp] theorem XvcClient.after_enableStatus (c : XvcClient) (error : Option (List UInt8)) :
    (c.after error).enableStatus = c.enableStatus := by cases error <;> rfl

/-- The core after a callback. -/
def Core.after (a : Core σ) (e : Result σ) : Core σ := ⟨a.c.after e.error, e.data⟩

theorem Core.failed_after {a : Core σ} (e : Result σ) (h : a.c.failed = false) :
    (a.after e).c.failed = e.fails := by
  unfold Core.after XvcClient.after Result.fails
  cases e.error with
  | none => exact h
  | some t => rfl

namespace Outcome

variable {o : Outcome (Core σ)}

/-- A status byte follows the reply. -/
def withStatus (o : Outcome (Core σ)) : Outcome (Core σ) :=
  { o with reply := o.reply ++ [o.core.c.status] }

/-- A status byte follows the reply when the client asked for it. -/
def withOptionalStatus (o : Outcome (Core σ)) : Outcome (Core σ) :=
  if o.core.c.enableStatus = 0 then o else o.withStatus

/-- A callback is called unless an error is pending. -/
def ofCall (a : Core σ) (c : Call) (e : Result σ) : Outcome (Core σ) :=
  if a.c.failed then { core := a } else { core := a.after e, calls := [c] }

/-- The same with a data buffer that the callback fills with `l`; with an error the reply is zeros. -/
def ofData (a : Core σ) (c : Call) (e : Result σ) (l : List UInt8) : Outcome (Core σ) :=
  let o := ofCall a c e
  { o with reply := if o.core.c.failed then List.replicate l.length 0 else l }

@[simp] theorem withStatus_core : o.withStatus.core = o.core := rfl
@[simp] theorem withStatus_calls : o.withStatus.calls = o.calls := rfl

@[simp] theorem withOptionalStatus_core : o.withOptionalStatus.core = o.core := by
  unfold withOptionalStatus; split <;> rfl

@[simp] theorem withOptionalStatus_calls : o.withOptionalStatus.calls = o.calls := by
  unfold withOptionalStatus; split <;> rfl

@[simp] theorem length_withStatus : o.withStatus.reply.length = o.reply.length + 1 := by
  simp [withStatus]

theorem withStatus_of_failed {a : Core σ} (h : a.c.failed = true) (l : List UInt8) :
    ({ core := a, reply := l } : Outcome (Core σ)).withStatus = { core := a, reply := l ++ [1] } := by
  simp [withStatus, XvcClient.status_of_failed h]

theorem length_withOptionalStatus : o.withOptionalStatus.reply.length =
    o.reply.length + if o.core.c.enableStatus = 0 then 0 else 1 := by
  unfold withOptionalStatus; split <;> simp

@[simp] theorem ofData_core (a : Core σ) (c : Call) (e : Result σ) (l : List UInt8) :
    (ofData a c e l).core = (ofCall a c e).core := rfl

@[simp] theorem length_ofData (a : Core σ) (c : Call) (e : Result σ) (l : List UInt8) :
    (ofData a c e l).reply.length = l.length := by
  unfold ofData; simp only; split <;> simp

theorem ofCall_of_failed {a : Core σ} (h : a.c.failed = true) (c : Call) (e : Result σ) :
    ofCall a c e = { core := a } := by
  unfold ofCall; rw [if_pos h]

theorem ofCall_of_ok {a : Core σ} (h : a.c.failed = false) (c : Call) (e : Result σ) :
    ofCall a c e = { core := a.after e, calls := [c] } := by
  unfold ofCall; rw [if_neg (by simp [h])]

theorem ofData_of_failed {a : Core σ} (h : a.c.failed = true) (c : Call) (e : Result σ) (l : List UInt8) :
    ofData a c e l = { core := a, reply := List.replicate l.length 0 } := by
  unfold ofData; simp only [ofCall_of_failed h, h, if_true]

theorem ofData_of_ok {a : Core σ} (h : a.c.failed = false) (c : Call) (e : Result σ) (l : List UInt8) :
    ofData a c e l =
      { core := a.after e, reply := if e.fails then List.replicate l.length 0 else l, calls := [c] } := by
  unfold ofData; simp only [ofCall_of_ok h, Core.failed_after e h]

@[simp] theorem ofCall_reply (a : Core σ) (c : Call) (e : Result σ) : (ofCall a c e).reply = [] := by
  unfold ofCall; split <;> rfl

end Outcome

/-! ## The stores of a callback -/

/-- The reply buffer after a callback's stores. -/
def applyStores (ws : List (Nat × List UInt8)) (m : ByteMem) : ByteMem :=
  ws.foldl (fun m w => write m w.1 w.2) m

/-- A callback that was given the buffer at index `i` did what `e` says: it stored nothing before
its buffer, and unless it failed it filled it with `l`. -/
structure Performs (r : CallResult σ) (e : Result σ) (i : Nat) (l : List UInt8) : Prop where
  data : r.clientData = e.data
  error : r.error = e.error
  above : ∀ w ∈ r.stores, i ≤ w.1
  fills : e.fails = false → ∀ m, slice (applyStores r.stores m) i l.length = l

theorem slice_applyStores_below {ws : List (Nat × List UInt8)} {i : Nat} (h : ∀ w ∈ ws, i ≤ w.1)
    (m : ByteMem) : slice (applyStores ws m) 0 i = slice m 0 i := by
  induction ws generalizing m with
  | nil => rfl
  | cons w ws ih =>
    rw [applyStores, List.foldl_cons]
    refine (ih (fun x hx => h x (by simp [hx])) _).trans ?_
    exact slice_write_of_disjoint m (.inl (by have := h w (by simp); omega))

/-- The bytes `l` of the reply buffer, with some stores over them. -/
def overlay (ws : List (Nat × List UInt8)) (l : List UInt8) : List UInt8 :=
  slice (applyStores ws (write (fun _ => 0) 0 l)) 0 l.length

theorem applyStores_congr {ws : List (Nat × List UInt8)} {m m' : ByteMem} {n : Nat} (h : ∀ i, i < n → m i = m' i) :
    ∀ i, i < n → applyStores ws m i = applyStores ws m' i := by
  induction ws generalizing m m' with
  | nil => exact h
  | cons w ws ih =>
    refine ih fun i hi => ?_
    show write m w.1 w.2 i = write m' w.1 w.2 i
    unfold write
    split
    · rfl
    · exact h i hi

theorem slice_applyStores (ws : List (Nat × List UInt8)) (m : ByteMem) (n : Nat) :
    slice (applyStores ws m) 0 n = overlay ws (slice m 0 n) := by
  unfold overlay
  rw [length_slice]
  refine slice_congr fun i hi => applyStores_congr (n := n) (fun j hj => ?_) (0 + i) (by omega)
  simp [write, hj]

@[simp] theorem overlay_nil (l : List UInt8) : overlay [] l = l := slice_write _ 0 l

/-- One store of all the bytes fills the buffer. -/
theorem Performs.of_write {e : Result σ} {i : Nat} {l : List UInt8} :
    Performs { clientData := e.data, error := e.error, stores := [(i, l)] } e i l where
  data := rfl
  error := rfl
  above := by simp
  fills _ m := slice_write m i l

/-- A callback without a buffer. -/
theorem Performs.of_noStores {e : Result σ} {i : Nat} :
    Performs { clientData := e.data, error := e.error } e i [] where
  data := rfl
  error := rfl
  above := by simp
  fills _ _ := rfl

namespace Server

variable {s : Server σ}

/-- The server without addresses. -/
def view (s : Server σ) : View (Core σ) where
  core := ⟨s.c, s.clientData⟩
  pending := slice s.replyBuf 0 s.replyLen
  calls := callsOf s.trace
  sent := sentOf s.trace

@[simp] theorem length_pending (s : Server σ) : s.view.pending.length = s.replyLen := by simp [view]

/-! ## Replies -/

/-- A reply of `l`, of which `extra` bytes more may have been stored. -/
theorem view_commit {l : List UInt8} (extra : List UInt8) (h : s.replyLen + l.length < 2 ^ 32) :
    ((s.store s.replyLen (l ++ extra)).extend l.length).view = s.view.reply l := by
  have hpend : slice (write s.replyBuf s.replyLen (l ++ extra)) 0 (s.replyLen + l.length) =
      slice s.replyBuf 0 s.replyLen ++ l := by
    rw [slice_append, slice_write_of_disjoint _ (.inl (by omega))]
    have hw := slice_write s.replyBuf s.replyLen (l ++ extra)
    rw [Nat.zero_add, (slice_eq_append hw).1]
  simp only [view, store, extend, u32_of_lt h, hpend, View.reply, callsOf_append, sentOf_append]
  simp [callsOf, sentOf]

theorem view_replyBytes {l : List UInt8} (h : s.replyLen + l.length < 2 ^ 32) :
    (s.replyBytes l).view = s.view.reply l := by
  have := view_commit [] h
  rwa [List.append_nil] at this

theorem maxPacketLen_lt : maxPacketLen < 2 ^ 31 := by decide

theorem view_replyStatus (h : s.replyLen < maxPacketLen) :
    s.replyStatus.view = s.view.reply [s.c.status] := by
  have hs : s.replyStatus = s.replyBytes [s.c.status] := by
    unfold replyStatus; rw [if_pos h]; rfl
  have := maxPacketLen_lt
  rw [hs]
  exact view_replyBytes (by simp only [List.length_singleton]; omega)

theorem replyLen_of_view {t : Server σ} {o : Outcome (Core σ)} (ht : t.view = s.view.apply o) :
    t.replyLen = s.replyLen + o.reply.length := by
  rw [← length_pending t, ht]; simp [View.apply]

theorem core_of_view {t : Server σ} {v : View (Core σ)} (ht : t.view = v) : t.c = v.core.c :=
  congrArg (fun v : View (Core σ) => v.core.c) ht

/-- A message with a status byte. -/
theorem view_withStatus {t : Server σ} {o : Outcome (Core σ)} (ht : t.view = s.view.apply o)
    (h : s.replyLen + o.withStatus.reply.length ≤ maxPacketLen) :
    t.replyStatus.view = s.view.apply o.withStatus := by
  rw [Outcome.length_withStatus] at h
  rw [view_replyStatus (by rw [replyLen_of_view ht]; omega), core_of_view ht, ht, View.apply_reply]
  rfl

theorem view_withOptionalStatus {t : Server σ} {o : Outcome (Core σ)} (ht : t.view = s.view.apply o)
    (h : s.replyLen + o.withOptionalStatus.reply.length ≤ maxPacketLen) :
    t.replyOptionalStatus.view = s.view.apply o.withOptionalStatus := by
  have hcore : t.c = o.core.c := core_of_view ht
  unfold replyOptionalStatus Outcome.withOptionalStatus at *
  rw [hcore]
  split at h
  · next he => rw [if_pos he, if_pos he]; exact ht
  · next he => rw [if_neg he, if_neg he]; exact view_withStatus ht h

theorem extend_extend (s : Server σ) (a b : Nat) : (s.extend a).extend b = s.extend (a + b) := by
  simp only [extend, u32, Nat.mod_add_mod, Nat.add_assoc]

/-- `reply_uleb128` appends the LEB128 number, one byte a round: `pos` of them are there already. -/
theorem view_replyUlebLoop (s : Server σ) (k value pos : Nat)
    (h : s.replyLen + pos + (Leb128.encode k value).length ≤ maxPacketLen) :
    let r := s.replyUlebLoop k value pos
    (r.1.extend r.2).view = (s.extend pos).view.reply (Leb128.encode k value) := by
  induction k generalizing s value pos with
  | zero => simp [replyUlebLoop, Leb128.encode]
  | succ k ih =>
    have hmax := maxPacketLen_lt
    obtain ⟨b, tl, hb, henc, hcont⟩ := Leb128.encode_succ k value
    rw [henc, List.length_cons] at h
    have hi : u32 (s.replyLen + pos) = s.replyLen + pos := u32_of_lt (by omega)
    -- The byte is appended to what `pos` counts already.
    have hbyte : ((s.store (s.replyLen + pos) [b]).extend (pos + 1)).view = (s.extend pos).view.reply [b] := by
      have hs : (s.store (s.replyLen + pos) [b]).extend (pos + 1) = (s.extend pos).replyBytes [b] := by
        rw [← extend_extend]
        simp only [replyBytes, extend, store, hi, List.length_singleton]
      rw [hs]
      refine view_replyBytes ?_
      have : (s.extend pos).replyLen = s.replyLen + pos := hi
      simp only [List.length_singleton]
      omega
    have hlt : s.replyLen + pos < maxPacketLen := by omega
    simp only [replyUlebLoop, hb, hi, henc, if_pos hlt]
    split
    · next hv =>
      rw [if_pos hv] at hcont
      have ih' := ih (s.store (s.replyLen + pos) [b]) (value >>> 7) (pos + 1)
        (by simp only [store]; rw [← hcont]; omega)
      simp only at ih'
      rw [ih', hbyte, View.reply_reply, ← hcont]
      rfl
    · next hv =>
      rw [if_neg hv] at hcont
      simp only [hcont]
      exact hbyte

theorem view_replyUleb128 {value : Nat}
    (h : s.replyLen + (Leb128.encode 10 value).length ≤ maxPacketLen) :
    (s.replyUleb128 value).view = s.view.reply (Leb128.encode 10 value) := by
  have hmax := maxPacketLen_lt
  have h0 : (s.extend 0).view = s.view := by
    have : u32 s.replyLen = s.replyLen := u32_of_lt (by omega)
    simp only [extend, Nat.add_zero, this]
  unfold replyUleb128
  rw [← h0]
  exact view_replyUlebLoop s 10 value 0 h

/-- A reply that is announced by its length. -/
theorem view_replyUlebBytes {value : Nat} {l : List UInt8}
    (h : s.replyLen + (Leb128.encode 10 value ++ l).length ≤ maxPacketLen) :
    ((s.replyUleb128 value).replyBytes l).view = s.view.reply (Leb128.encode 10 value ++ l) := by
  have hmax := maxPacketLen_lt
  rw [List.length_append] at h
  have hu : (s.replyUleb128 value).view = s.view.reply (Leb128.encode 10 value) :=
    view_replyUleb128 (by omega)
  have hlen : (s.replyUleb128 value).replyLen = s.replyLen + (Leb128.encode 10 value).length := by
    rw [← length_pending (s.replyUleb128 value), hu]; simp [View.reply]
  rw [view_replyBytes (by omega), hu, View.reply_reply]

/-! ## Callbacks -/

theorem stores_eq (s : Server σ) (ws : List (Nat × List UInt8)) :
    s.stores ws = { s with
      replyBuf := applyStores ws s.replyBuf
      trace := s.trace ++ ws.map fun w => .store w.1 w.2.length } := by
  induction ws generalizing s with
  | nil => simp [stores, applyStores]
  | cons w ws ih =>
    rw [stores, List.foldl_cons]
    refine (ih _).trans ?_
    simp [store, applyStores]

theorem callback_eq (s : Server σ) (c : Call) (r : CallResult σ) :
    s.callback c r = { s with
      clientData := r.clientData
      c := s.c.after r.error
      replyBuf := applyStores r.stores s.replyBuf
      trace := s.trace ++ [Event.call c] ++ r.stores.map fun w => .store w.1 w.2.length } := by
  unfold callback XvcClient.after
  cases hr : r.error <;> simp [stores_eq]

theorem callsOf_stores (ws : List (Nat × List UInt8)) :
    callsOf (ws.map fun w => Event.store w.1 w.2.length) = [] := by
  simp [callsOf]

theorem sentOf_stores (ws : List (Nat × List UInt8)) :
    sentOf (ws.map fun w => Event.store w.1 w.2.length) = [] := by
  induction ws with
  | nil => rfl
  | cons w ws ih => exact ih

/-- A callback leaves the pending bytes, and stores its data behind them. -/
theorem view_callback {c : Call} {r : CallResult σ} {e : Result σ} {l : List UInt8}
    (h : Performs r e s.replyLen l) :
    (s.callback c r).view = s.view.apply { core := s.view.core.after e, calls := [c] } := by
  rw [callback_eq]
  simp only [view, slice_applyStores_below h.above, View.apply, callsOf_append, sentOf_append,
    callsOf_stores, sentOf_stores, h.data, h.error, Core.after]
  simp [callsOf, sentOf]

/-- A callback without data, unless an error is pending. -/
theorem view_ofCall {c : Call} {r : CallResult σ} {e : Result σ} {l : List UInt8}
    (h : s.c.failed = false → Performs r e s.replyLen l) :
    (s.unlessFailed fun s => s.callback c r).view = s.view.apply (.ofCall s.view.core c e) := by
  have hf : s.view.core.c.failed = s.c.failed := rfl
  unfold unlessFailed Outcome.ofCall
  rw [hf]
  cases hfail : s.c.failed with
  | true => simp [View.apply]
  | false => exact view_callback (h hfail)

/-- A callback that fills a buffer of `l.length` bytes at `reply_buf + reply_len`. -/
theorem view_ofData {c : Call} {r : CallResult σ} {e : Result σ} {l : List UInt8}
    (h : s.c.failed = false → Performs r e s.replyLen l) (hlen : s.replyLen + l.length < 2 ^ 32) :
    ((s.unlessFailed fun s => s.callback c r).replyData l.length).view =
      s.view.apply (.ofData s.view.core c e l) := by
  have hcall := view_ofCall (c := c) h
  generalize ht : (s.unlessFailed fun s => s.callback c r) = t at hcall ⊢
  have hcore : t.c = (Outcome.ofCall s.view.core c e).core.c := core_of_view hcall
  have hrl : t.replyLen = s.replyLen := by rw [replyLen_of_view hcall]; simp
  unfold replyData Outcome.ofData
  simp only [← hcore]
  cases hfail : t.c.failed with
  | true =>
    have hz : t.clear t.replyLen l.length = t.store t.replyLen (List.replicate l.length 0) := by
      unfold clear store; rw [memset_eq_write, List.length_replicate]
    have := view_replyBytes (s := t) (l := List.replicate l.length 0)
      (by rw [List.length_replicate, hrl]; exact hlen)
    simp only [replyBytes, List.length_replicate] at this
    simp only [if_true, hz, this, hcall, View.apply_reply]
    simp
  | false =>
    -- Without an error the callback ran and filled the buffer.
    have hnot : s.c.failed = false := by
      cases hs : s.c.failed with
      | false => rfl
      | true =>
        rw [unlessFailed, if_pos hs] at ht
        rw [← ht, hs] at hfail; cases hfail
    have he : e.fails = false := by
      rw [← Core.failed_after (a := s.view.core) e hnot, ← hfail, hcore, Outcome.ofCall, if_neg]
      exact Bool.eq_false_iff.mp hnot
    have hfill := (h hnot).fills he s.replyBuf
    have hbuf : t.replyBuf = applyStores r.stores s.replyBuf := by
      rw [← ht, unlessFailed, if_neg (by simp [hnot]), callback_eq]
    have hpend : slice t.replyBuf 0 (t.replyLen + l.length) = slice t.replyBuf 0 t.replyLen ++ l := by
      rw [slice_append, Nat.zero_add, hrl, hbuf, hfill]
    have hv : (t.extend l.length).view = t.view.reply l := by
      simp only [view, extend, View.reply]
      rw [u32_of_lt (by omega), hpend]
    simp only [Bool.false_eq_true, if_false, hv, hcall, View.apply_reply]
    simp

end Server
end Xvc
