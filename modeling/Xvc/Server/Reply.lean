import Xvc.Server.View

/-!
# How far a reply reaches

`Stays limit s t`: between the two states nothing was stored to the reply buffer at or behind
`limit`, and no more than `limit` bytes were sent. There is one lemma for each reply helper, and one
for what it adds to `reply_len`. The status and LEB128 helpers check the bound themselves; the
others store wherever `reply_len` points.
-/

namespace Xvc

open ByteMem

variable {σ : Type}

/-- Whether a message is answered with a status byte. -/
inductive StatusKind where
  | never
  | always
  /-- When the client has asked for it. -/
  | optional

/-- The number of its bytes. -/
def StatusKind.bytes (c : XvcClient) : StatusKind → Nat
  | .never => 0
  | .always => 1
  | .optional => if c.enableStatus = 0 then 0 else 1

/-- The end of a branch. -/
def Server.endReply (s : Server σ) : StatusKind → Server σ
  | .never => s
  | .always => s.replyStatus
  | .optional => s.replyOptionalStatus

/-- The event stores below `limit`, or sends at most `limit` bytes. -/
def Event.Below (limit : Nat) : Event → Prop
  | .store i n => ∀ k, k < n → i + k < limit
  | .send bytes _ => bytes.length ≤ limit
  | _ => True

namespace Server

/-- What happened between `s` and `t` is below `limit`. -/
def Stays (limit : Nat) (s t : Server σ) : Prop :=
  ∃ es, t.trace = s.trace ++ es ∧ ∀ e ∈ es, e.Below limit

variable {limit : Nat} {s t u : Server σ}

theorem Stays.refl (s : Server σ) : Stays limit s s := ⟨[], by simp, by simp⟩

theorem Stays.trans (h : Stays limit s t) (h' : Stays limit t u) : Stays limit s u := by
  obtain ⟨es, he, hb⟩ := h
  obtain ⟨es', he', hb'⟩ := h'
  refine ⟨es ++ es', by rw [he', he, List.append_assoc], fun e hm => ?_⟩
  rcases List.mem_append.mp hm with hm | hm
  · exact hb e hm
  · exact hb' e hm

theorem Stays.of_trace (h : t.trace = s.trace) : Stays limit s t := ⟨[], by simp [h], by simp⟩

theorem Stays.of_event {e : Event} (h : t.trace = s.trace ++ [e]) (he : e.Below limit) : Stays limit s t :=
  ⟨[e], h, by simpa using he⟩

/-- The events of a state that stays below the limit, and of all that it comes from. -/
theorem Stays.below (h : Stays limit s t) (hs : ∀ e ∈ s.trace, e.Below limit) : ∀ e ∈ t.trace, e.Below limit := by
  obtain ⟨es, he, hb⟩ := h
  intro e hm
  rw [he] at hm
  rcases List.mem_append.mp hm with hm | hm
  · exact hs e hm
  · exact hb e hm

/-! ## The helpers -/

theorem stays_store {i : Nat} {bs : List UInt8} (h : i + bs.length ≤ limit) : Stays limit s (s.store i bs) :=
  .of_event rfl fun k hk => by omega

theorem stays_clear {i n : Nat} (h : i + n ≤ limit) : Stays limit s (s.clear i n) :=
  .of_event rfl fun k hk => by omega

theorem stays_extend (n : Nat) : Stays limit s (s.extend n) := .of_trace rfl

theorem stays_replyBytes {l : List UInt8} (h : s.replyLen + l.length ≤ limit) : Stays limit s (s.replyBytes l) :=
  (stays_store h).trans (stays_extend _)

theorem stays_replyStatus (h : maxPacketLen ≤ limit) : Stays limit s s.replyStatus := by
  unfold replyStatus
  refine .trans ?_ (stays_extend 1)
  split
  · exact stays_store (by simp only [List.length_singleton]; omega)
  · exact .refl s

theorem stays_replyOptionalStatus (h : maxPacketLen ≤ limit) : Stays limit s s.replyOptionalStatus := by
  unfold replyOptionalStatus
  split
  · exact .refl s
  · exact stays_replyStatus h

theorem stays_replyUlebLoop (h : maxPacketLen ≤ limit) (k value pos : Nat) :
    Stays limit s (s.replyUlebLoop k value pos).1 :=
  s.replyUlebLoop_keeps .refl .trans (fun _ _ _ hlt => stays_store (Nat.le_trans hlt h)) k value pos

theorem stays_replyUleb128 (h : maxPacketLen ≤ limit) (value : Nat) : Stays limit s (s.replyUleb128 value) :=
  (stays_replyUlebLoop h 10 value 0).trans (stays_extend _)

theorem stays_replyData {n : Nat} (h : s.replyLen + n ≤ limit) : Stays limit s (s.replyData n) := by
  unfold replyData
  refine .trans ?_ (stays_extend n)
  split
  · exact stays_clear h
  · exact .refl s

theorem stays_callback {c : Call} {r : CallResult σ} (h : ∀ w ∈ r.stores, w.1 + w.2.length ≤ limit) :
    Stays limit s (s.callback c r) := by
  rw [callback_eq]
  refine ⟨Event.call c :: r.stores.map fun w => .store w.1 w.2.length, by simp, fun e hm => ?_⟩
  rcases List.mem_cons.mp hm with rfl | hm
  · trivial
  · obtain ⟨w, hw, rfl⟩ := List.mem_map.mp hm
    intro k hk
    have := h w hw
    omega

theorem stays_callOrNull {c : Call} {f : Option (CallResult σ)}
    (h : ∀ r, f = some r → ∀ w ∈ r.stores, w.1 + w.2.length ≤ limit) : Stays limit s (callOrNull s f c) := by
  cases f with
  | none => exact .of_event rfl trivial
  | some r => exact stays_callback (h r rfl)

theorem stays_unlessFailed {f : Server σ → Server σ} (h : s.c.failed = false → Stays limit s (f s)) :
    Stays limit s (s.unlessFailed f) := by
  unfold unlessFailed
  split
  · exact .refl s
  · next hf => exact h (Bool.eq_false_iff.mpr hf)

/-! ## The length of a reply -/

/-- What the next reply depends on: how much there is, and whether the client wants a status. -/
def replyState (s : Server σ) : Nat × Int := (s.replyLen, s.c.enableStatus)

theorem replyState_callback (s : Server σ) (c : Call) (r : CallResult σ) :
    (s.callback c r).replyState = s.replyState := by
  rw [callback_eq]
  simp [replyState]

theorem replyState_callOrNull (s : Server σ) (f : Option (CallResult σ)) (c : Call) :
    (callOrNull s f c).replyState = s.replyState := by
  cases f with
  | none => rfl
  | some r => exact replyState_callback s c r

theorem replyState_unlessFailed {f : Server σ → Server σ} (h : (f s).replyState = s.replyState) :
    (s.unlessFailed f).replyState = s.replyState := by
  unfold unlessFailed
  split
  · rfl
  · exact h

theorem replyLen_of_replyState (h : t.replyState = s.replyState) : t.replyLen = s.replyLen :=
  (Prod.mk.inj h).1

/-- The data of a reply after a call. -/
theorem replyState_data {n : Nat} (ht : t.replyState = s.replyState) :
    (t.replyData n).replyState = (u32 (s.replyLen + n), s.c.enableStatus) := by
  obtain ⟨hlen, hstatus⟩ := Prod.mk.inj ht
  have hdata : (t.replyData n).replyState = (u32 (t.replyLen + n), t.c.enableStatus) := by
    unfold replyData
    split <;> rfl
  rw [hdata, hlen, hstatus]

theorem replyState_bytes {l : List UInt8} (ht : t.replyState = s.replyState) :
    (t.replyBytes l).replyState = (u32 (s.replyLen + l.length), s.c.enableStatus) := by
  obtain ⟨hlen, hstatus⟩ := Prod.mk.inj ht
  show (u32 (t.replyLen + l.length), t.c.enableStatus) = _
  rw [hlen, hstatus]

theorem replyUlebLoop_spec (s : Server σ) (k value pos : Nat) :
    (s.replyUlebLoop k value pos).1.replyLen = s.replyLen ∧
      (s.replyUlebLoop k value pos).2 = pos + (Leb128.encode k value).length := by
  induction k generalizing s value pos with
  | zero => exact ⟨rfl, rfl⟩
  | succ k ih =>
    rw [replyUlebLoop, Leb128.encode]
    generalize hb : (if 0x80 ≤ value then UInt8.ofNat ((value &&& 0x7f) ||| 0x80)
      else UInt8.ofNat (value &&& 0x7f)) = b
    generalize ht : (if u32 (s.replyLen + pos) < maxPacketLen then s.store (u32 (s.replyLen + pos)) [b]
      else s) = t
    have hlen : t.replyLen = s.replyLen := by rw [← ht]; split <;> rfl
    by_cases hv : value >>> 7 = 0
    · simp [hv, hlen]
    · obtain ⟨h1, h2⟩ := ih t (value >>> 7) (pos + 1)
      simp only [hv, ne_eq, not_false_eq_true, if_true, if_false, List.length_cons]
      exact ⟨h1.trans hlen, by rw [h2]; omega⟩

theorem replyLen_replyUleb128 (s : Server σ) (value : Nat) :
    (s.replyUleb128 value).replyLen = u32 (s.replyLen + (Leb128.encode 10 value).length) := by
  obtain ⟨h1, h2⟩ := replyUlebLoop_spec s 10 value 0
  unfold replyUleb128
  simp only [extend, h1, h2, Nat.zero_add]

/-- A reply that is announced by its length. -/
theorem replyLen_replyUlebBytes (s : Server σ) (value : Nat) (l : List UInt8) :
    ((s.replyUleb128 value).replyBytes l).replyLen =
      u32 (s.replyLen + ((Leb128.encode 10 value).length + l.length)) := by
  show u32 ((s.replyUleb128 value).replyLen + l.length) = _
  rw [replyLen_replyUleb128]
  unfold u32
  rw [Nat.mod_add_mod, Nat.add_assoc]

/-- `t` is `s` after a reply of `n` bytes, and then a status of the kind `k`. -/
def Answers (s : Server σ) (k : StatusKind) (n : Nat) (t : Server σ) : Prop :=
  ∃ u : Server σ, u.replyLen = u32 (s.replyLen + n) ∧ (k = .optional → u.c.enableStatus = s.c.enableStatus) ∧
    t = u.endReply k

variable {k : StatusKind} {n : Nat}

/-- A reply that is data. -/
theorem Answers.of_replyState (h : t.replyState = (u32 (s.replyLen + n), s.c.enableStatus)) :
    Answers s k n (t.endReply k) :=
  ⟨t, (Prod.mk.inj h).1, fun _ => (Prod.mk.inj h).2, rfl⟩

/-- A reply that is only a status. -/
theorem Answers.of_replyLen (hs : s.replyLen < 2 ^ 32) (h : t.replyLen = s.replyLen) :
    Answers s .always 0 t.replyStatus :=
  ⟨t, by rw [h, Nat.add_zero, u32_of_lt hs], nofun, rfl⟩

/-- A reply without a status. -/
theorem Answers.never (h : t.replyLen = u32 (s.replyLen + n)) : Answers s .never n t := ⟨t, h, nofun, rfl⟩

/-- The status is a byte of its own. -/
theorem endReply_spec {u : Server σ} (hk : 0 < k.bytes u.c) :
    u.endReply k = u.replyStatus ∧ k.bytes u.c = 1 := by
  cases k with
  | never => exact absurd hk (Nat.lt_irrefl 0)
  | always => exact ⟨rfl, rfl⟩
  | optional =>
    unfold StatusKind.bytes at hk ⊢
    by_cases he : u.c.enableStatus = 0
    · simp [he] at hk
    · simp [endReply, replyOptionalStatus, he]

theorem endReply_of_none {u : Server σ} (hk : k.bytes u.c = 0) : u.endReply k = u := by
  cases k with
  | never => rfl
  | always => cases hk
  | optional =>
    unfold StatusKind.bytes at hk
    by_cases he : u.c.enableStatus = 0
    · simp [endReply, replyOptionalStatus, he]
    · simp [he] at hk

theorem StatusKind.bytes_congr {c c' : XvcClient} (h : k = .optional → c'.enableStatus = c.enableStatus) :
    k.bytes c' = k.bytes c := by
  cases k with
  | optional => simp only [StatusKind.bytes, h rfl]
  | _ => rfl

theorem replyLen_replyStatus (s : Server σ) : s.replyStatus.replyLen = u32 (s.replyLen + 1) := by
  unfold replyStatus
  split <;> rfl

theorem Answers.replyLen (h : Answers s k n t) (hfit : s.replyLen + (n + k.bytes s.c) < 2 ^ 32) :
    t.replyLen = s.replyLen + (n + k.bytes s.c) := by
  obtain ⟨u, hlen, hst, rfl⟩ := h
  have hk := StatusKind.bytes_congr hst
  rw [u32_of_lt (by omega)] at hlen
  rcases Nat.eq_zero_or_pos (k.bytes u.c) with h0 | hpos
  · rw [endReply_of_none h0, hlen, ← hk, h0, Nat.add_zero]
  · obtain ⟨heq, h1⟩ := endReply_spec hpos
    rw [← hk, h1] at hfit ⊢
    rw [heq, replyLen_replyStatus, hlen, u32_of_lt (by omega), Nat.add_assoc]

/-- The last byte of a reply with a status says whether an error is pending. -/
theorem Answers.status (h : Answers s k n t) (hk : 0 < k.bytes s.c) (hpos : 0 < t.replyLen)
    (hfit : t.replyLen ≤ maxPacketLen) : t.replyBuf (t.replyLen - 1) = t.c.status := by
  obtain ⟨u, hlen, hst, rfl⟩ := h
  rw [← StatusKind.bytes_congr hst] at hk
  obtain ⟨heq, -⟩ := endReply_spec hk
  rw [heq, replyLen_replyStatus] at hpos hfit
  have hu : u.replyLen < 2 ^ 32 := by rw [hlen]; exact Nat.mod_lt _ (by decide)
  -- `reply_len` did not wrap to zero.
  have hlt : u.replyLen + 1 < 2 ^ 32 := by
    rcases Nat.lt_or_ge (u.replyLen + 1) (2 ^ 32) with hlt | hge
    · exact hlt
    · rw [show u.replyLen + 1 = 2 ^ 32 by omega] at hpos
      exact absurd hpos (by decide)
  rw [u32_of_lt hlt] at hfit
  rw [heq, replyLen_replyStatus, u32_of_lt hlt, Nat.add_sub_cancel, replyStatus, if_pos (by omega)]
  simp [store, extend, write, XvcClient.status]

theorem stays_replyUlebBytes {value : Nat} {l : List UInt8} (hmax : maxPacketLen ≤ limit) (hlimit : limit < 2 ^ 32)
    (h : s.replyLen + ((Leb128.encode 10 value).length + l.length) ≤ limit) :
    Stays limit s ((s.replyUleb128 value).replyBytes l) := by
  refine (stays_replyUleb128 hmax value).trans (stays_replyBytes ?_)
  rw [replyLen_replyUleb128, u32_of_lt (by omega)]
  omega

/-! ## What a reply leaves alone -/

/-- From `s` to `t` nothing happened but stores to the reply buffer. -/
structure Replied (s t : Server σ) : Prop where
  c : t.c = s.c
  clientData : t.clientData = s.clientData
  events : ∃ es, t.trace = s.trace ++ es ∧ ∀ e ∈ es, ∃ i n, e = .store i n

theorem Replied.refl (s : Server σ) : Replied s s := ⟨rfl, rfl, [], by simp, by simp⟩

theorem Replied.trans (h : Replied s t) (h' : Replied t u) : Replied s u := by
  obtain ⟨es, he, hs⟩ := h.events
  obtain ⟨es', he', hs'⟩ := h'.events
  refine ⟨h'.c.trans h.c, h'.clientData.trans h.clientData, es ++ es', by rw [he', he, List.append_assoc], ?_⟩
  intro e hm
  rcases List.mem_append.mp hm with hm | hm
  · exact hs e hm
  · exact hs' e hm

theorem replied_store (i : Nat) (bs : List UInt8) : Replied s (s.store i bs) :=
  ⟨rfl, rfl, [.store i bs.length], rfl, by simp⟩

theorem replied_clear (i n : Nat) : Replied s (s.clear i n) := ⟨rfl, rfl, [.store i n], rfl, by simp⟩

theorem replied_extend (n : Nat) : Replied s (s.extend n) := ⟨rfl, rfl, [], by simp [extend], by simp⟩

theorem replied_replyBytes (l : List UInt8) : Replied s (s.replyBytes l) :=
  (replied_store _ l).trans (replied_extend _)

theorem replied_replyStatus : Replied s s.replyStatus := by
  unfold replyStatus
  refine .trans ?_ (replied_extend 1)
  split
  · exact replied_store _ _
  · exact .refl s

theorem replied_replyOptionalStatus : Replied s s.replyOptionalStatus := by
  unfold replyOptionalStatus
  split
  · exact .refl s
  · exact replied_replyStatus

theorem replied_replyData (n : Nat) : Replied s (s.replyData n) := by
  unfold replyData
  refine .trans ?_ (replied_extend n)
  split
  · exact replied_clear _ n
  · exact .refl s

theorem replied_replyUlebLoop (k value pos : Nat) : Replied s (s.replyUlebLoop k value pos).1 :=
  s.replyUlebLoop_keeps .refl .trans (fun _ i b _ => replied_store i [b]) k value pos

theorem replied_replyUleb128 (value : Nat) : Replied s (s.replyUleb128 value) :=
  (replied_replyUlebLoop 10 value 0).trans (replied_extend _)

theorem Replied.clearError (h : Replied s t) : Replied s.clearError t.clearError :=
  ⟨by simp only [Server.clearError, h.c], h.clientData, h.events⟩

/-- The status byte goes behind a reply that there is. -/
theorem replied_status (h : Replied s t) : Replied s t.replyStatus := h.trans replied_replyStatus

theorem Replied.core (h : Replied s t) : t.view.core = s.view.core := by
  unfold view
  rw [h.c, h.clientData]

/-! ## After the loop -/

theorem stays_runFlush {P : Protocol σ} (hf : ∀ f, P.flush = some f → ∀ d mem, (f d mem).1.stores = []) :
    Stays limit s (s.runFlush P).1 ∧ (s.runFlush P).1.replyLen = s.replyLen := by
  unfold runFlush
  cases hP : P.flush with
  | none => exact ⟨.refl s, rfl⟩
  | some f =>
    simp only [hf f hP, stores, List.foldl_nil]
    split <;> exact ⟨.of_event rfl trivial, rfl⟩

/-- What is sent is what was appended. -/
theorem stays_finish {P : Protocol σ} (hf : ∀ f, P.flush = some f → ∀ d mem, (f d mem).1.stores = [])
    (snd : Nat → Int) (cbuf : Nat) (fill : Bool) (h : s.replyLen ≤ limit) :
    Stays limit s (Conn.finish P snd s cbuf fill).s ∧ (Conn.finish P snd s cbuf fill).s.replyLen ≤ limit := by
  have hrun : Stays limit s (s.runFlush P).1 ∧ (s.runFlush P).1.replyLen = s.replyLen := stays_runFlush hf
  obtain ⟨hst, hlen⟩ := hrun
  unfold Conn.finish
  split
  · generalize s.runFlush P = t at hst hlen
    obtain ⟨t, rval⟩ := t
    simp only at hst hlen ⊢
    have hsend : Stays limit s (t.logSend (snd t.replyLen)) :=
      hst.trans (.of_event rfl (by simp only [Event.Below, length_slice]; omega))
    have hle : t.replyLen ≤ limit := by omega
    split
    · exact ⟨hst, hle⟩
    split
    · exact ⟨hsend, hle⟩
    split
    · exact ⟨hsend, hle⟩
    split
    · exact ⟨hsend.trans (.of_trace rfl), Nat.zero_le _⟩
    · exact ⟨hsend.trans (.of_trace rfl), hle⟩
  · exact ⟨.refl s, h⟩

end Server
end Xvc
