import Xvc.Server.Messages

/-!
# Containment and progress of a dispatch

A handler is given the address of its operand bytes and arguments that say how many there are.
This module says what it means that these bytes are the client's: they lie, as unbounded integers,
between the end of the header and `cend`, and the next message begins where they end.

* `Layout`: for each request its fields and its operand. `Contained` is the property of one
  executed request, `Dispatch.Contains` of one iteration of the loop.
* `Replies`: a number of iterations in a row that reach `reply:`. When each is contained the cursor
  moves by at least one byte each time and stays within `cend` (`Replies.progress`), so the loop
  ends.
* `AgreeOn`: decoding depends on the received bytes only (`AgreeOn.getUleb128_eq` and the like).
* `configureFits_iff`: exactly when the `configure:` branch of either server is contained.
-/

namespace Xvc

open ByteMem

variable {σ R : Type}

/-- What lies between the `:` of a message and its operand. -/
inductive Fields where
  | ulebs (k : Nat)
  | bytes (n : Nat)

/-- The cursor after `k` calls of `get_uleb128`. -/
def ulebsEnd (mem : ByteMem) (cend : Nat) : Nat → Nat → Nat
  | 0, p => p
  | k + 1, p => ulebsEnd mem cend k (getUleb128 mem p cend).2

/-- Where the fields that begin at `p` end. -/
def Fields.endFrom (mem : ByteMem) (cend p : Nat) : Fields → Nat
  | .ulebs k => ulebsEnd mem cend k p
  | .bytes n => p + n

/-- The shape of the messages of a server: the fields of each request, and for one with an operand
the address that its handler is given and the number of bytes that its arguments entitle it to. -/
structure Layout (R : Type) where
  fields : R → Fields
  operand : R → Option (Nat × Nat)

/-- The number of operand bytes. -/
def Layout.operandBytes (L : Layout R) (r : R) : Nat := (L.operand r).elim 0 Prod.snd

/-- The request `r` with its header in `[cbuf, q)` is what was received up to the new cursor `p`. -/
structure Contained (L : Layout R) (s : Server σ) (cbuf : Nat) (r : R) (q p : Nat) : Prop where
  operand : ∀ a n, L.operand r = some (a, n) →
    a = (L.fields r).endFrom s.mem s.cend q ∧ q ≤ a ∧ a + n ≤ s.cend
  ends : p = (L.fields r).endFrom s.mem s.cend q + L.operandBytes r
  progress : cbuf < p
  inside : p ≤ s.cend

/-- A request that is executed at `cbuf` is contained. -/
def Dispatch.Contains (D : Dispatch σ R) (L : Layout R) (s : Server σ) (cbuf : Nat) : Prop :=
  ∀ r q p, D.Dispatched s cbuf r q p → Contained L s cbuf r q p

/-- `n` iterations in a row reach `reply:`, each from a state that satisfies `ok`. -/
inductive Replies (D : Dispatch σ R) (ok : Server σ → Nat → Prop) :
    Nat → Server σ → Nat → Server σ → Nat → Prop
  | refl (s : Server σ) (cbuf : Nat) : Replies D ok 0 s cbuf s cbuf
  | step {n : Nat} {s t u : Server σ} {cbuf p p' : Nat} (hok : ok s cbuf)
      (h : D.iter s cbuf = .reply t p) (hrest : Replies D ok n t p u p') :
      Replies D ok (n + 1) s cbuf u p'

/-- The requests of `D` leave the receive buffer where it is. -/
def Dispatch.KeepsBuffer (D : Dispatch σ R) : Prop :=
  ∀ s r, (D.exec s r).rx = s.rx ∧ (D.exec s r).bufLen = s.bufLen

/-- Contained iterations move the cursor on, and never past `cend`. -/
theorem Replies.progress {D : Dispatch σ R} {L : Layout R} {ok : Server σ → Nat → Prop} {n : Nat}
    {s t : Server σ} {cbuf p : Nat} (hkeep : D.KeepsBuffer)
    (hok : ∀ s cbuf, ok s cbuf → s.bufLen ≤ s.rx.bufMax → cbuf ≤ s.cend → D.Contains L s cbuf)
    (h : Replies D ok n s cbuf t p) (hlen : s.bufLen ≤ s.rx.bufMax) (hc : cbuf ≤ s.cend) :
    cbuf + n ≤ p ∧ p ≤ s.cend ∧ t.cend = s.cend := by
  induction h with
  | refl s cbuf => exact ⟨Nat.le_refl _, hc, rfl⟩
  | step hs hiter _ ih =>
    obtain ⟨r, q, hd, rfl⟩ := Dispatch.iter_eq_reply.mp hiter
    have hcon := hok _ _ hs hlen hc r q _ hd
    obtain ⟨hrx, hbl⟩ := hkeep _ r
    have hcend : ∀ s, (D.exec s r).cend = s.cend := fun s => by
      unfold Server.cend; rw [(hkeep s r).1, (hkeep s r).2]
    obtain ⟨h1, h2, h3⟩ := ih (by rw [hrx, hbl]; exact hlen) (by rw [hcend]; exact hcon.inside)
    rw [hcend] at h2 h3
    have := hcon.progress
    exact ⟨by omega, h2, h3⟩

/-! ## The header -/

theorem scanColon_bounds (mem : ByteMem) (k p : Nat) :
    p ≤ scanColon mem k p ∧ scanColon mem k p ≤ p + k := by
  induction k generalizing p with
  | zero => exact ⟨Nat.le_refl _, Nat.le_refl _⟩
  | succ k ih =>
    unfold scanColon
    split
    · omega
    · have := ih (p + 1); omega

/-- A header has at least its `:`, and lies in what was received. -/
theorem scanHeader_bounds {s : Server σ} {cbuf q : Nat} {hdr : List UInt8}
    (h : scanHeader s cbuf = .header hdr q) : cbuf < q ∧ q ≤ s.cend := by
  unfold scanHeader at h
  simp only at h
  generalize he : (if cbuf + 30 < s.cend then cbuf + 30 else s.cend) = e at h
  have hle : e ≤ s.cend := by rw [← he]; split <;> omega
  have hb := scanColon_bounds s.mem (e - cbuf) cbuf
  split at h
  · split at h <;> cases h
  · next hlt =>
    obtain ⟨-, rfl⟩ := Scan.header.inj h
    omega

/-! ## Decoding reads what was received -/

/-- The memories hold the same bytes in `[a, b)`. -/
def AgreeOn (m m' : ByteMem) (a b : Nat) : Prop := ∀ x, a ≤ x → x < b → m' x = m x

theorem AgreeOn.slice_eq {m m' : ByteMem} {a b p n : Nat} (h : AgreeOn m m' a b) (hp : a ≤ p)
    (hn : p + n ≤ b) : slice m' p n = slice m p n :=
  slice_congr fun i hi => h (p + i) (by omega) (by omega)

theorem AgreeOn.scanColon_eq {m m' : ByteMem} {a b p k : Nat} (h : AgreeOn m m' a b) (hp : a ≤ p)
    (hk : p + k ≤ b) : scanColon m' k p = scanColon m k p := by
  induction k generalizing p with
  | zero => rfl
  | succ k ih => rw [scanColon, scanColon, h p hp (by omega), ih (by omega) (by omega)]

theorem AgreeOn.getUleb128_eq {m m' : ByteMem} {a b p : Nat} (h : AgreeOn m m' a b) (hp : a ≤ p) :
    getUleb128 m' p b = getUleb128 m p b := by
  have hs : slice m' p (b - p) = slice m p (b - p) := by
    by_cases hb : p ≤ b
    · exact h.slice_eq hp (by omega)
    · rw [show b - p = 0 by omega]; rfl
  rw [Xvc.getUleb128_eq, Xvc.getUleb128_eq, hs]

theorem AgreeOn.scanHeader_eq {s : Server σ} {m' : ByteMem} {cbuf : Nat}
    (h : AgreeOn s.mem m' cbuf s.cend) (hc : cbuf ≤ s.cend) :
    scanHeader { s with mem := m' } cbuf = scanHeader s cbuf := by
  unfold scanHeader
  have hcend : Server.cend { s with mem := m' } = s.cend := rfl
  simp only [hcend]
  generalize he : (if cbuf + 30 < s.cend then cbuf + 30 else s.cend) = e
  have hle : cbuf ≤ e ∧ e ≤ s.cend := by rw [← he]; split <;> omega
  have hscan : scanColon m' (e - cbuf) cbuf = scanColon s.mem (e - cbuf) cbuf :=
    h.scanColon_eq (Nat.le_refl _) (by omega)
  rw [hscan]
  split
  · rfl
  · next hlt =>
    have hb := scanColon_bounds s.mem (e - cbuf) cbuf
    rw [h.slice_eq (Nat.le_refl _) (by omega)]

theorem AgreeOn.parseConfigure_eq {mk : Nat → Nat → R} {s : Server σ} {m' : ByteMem} {cbuf q : Nat}
    (h : AgreeOn s.mem m' cbuf s.cend) (hq : cbuf ≤ q) :
    parseConfigure mk { s with mem := m' } cbuf q = parseConfigure mk s cbuf q := by
  have hcend : Server.cend { s with mem := m' } = s.cend := rfl
  have hv : getUleb128 m' q s.cend = getUleb128 s.mem q s.cend := h.getUleb128_eq hq
  unfold parseConfigure
  simp only [hcend, hv]

/-! ## The common branches -/

theorem incomplete_ne_msg {s : Server σ} {cbuf pend p : Nat} {r : R} :
    incomplete s cbuf pend ≠ Parsed.msg r p := by
  unfold incomplete; split <;> exact nofun

/-- The completeness check at the end of a first half. -/
theorem check_eq_msg {s : Server σ} {cbuf pend p : Nat} {r r' : R} :
    (if s.cend < pend then incomplete s cbuf pend else Parsed.msg r pend) = .msg r' p ↔
      pend ≤ s.cend ∧ r = r' ∧ pend = p := by
  split
  · next h =>
    exact ⟨fun hi => absurd hi incomplete_ne_msg, fun hi => absurd hi.1 (by omega)⟩
  · next h => simp [Nat.le_of_not_lt h]

theorem parseConfigure_eq_msg {mk : Nat → Nat → R} {s : Server σ} {cbuf q p : Nat} {r : R} :
    parseConfigure mk s cbuf q = .msg r p ↔
      let v := getUleb128 s.mem q s.cend
      u64 (v.2 + u32 v.1) ≤ s.cend ∧ mk v.1 v.2 = r ∧ u64 (v.2 + u32 v.1) = p := by
  unfold parseConfigure
  simp only
  split
  · next h => split <;> simp [Nat.not_le_of_lt h]
  · next h => simp [Nat.le_of_not_lt h]

/-- The declared length of `configure:` fits the 32 bits that the code keeps of it, or what is
left of it does not fit what was received. -/
def configureFits (s : Server σ) (q : Nat) : Prop :=
  let v := getUleb128 s.mem q s.cend
  v.1 < 2 ^ 32 ∨ s.cend < v.2 + u32 v.1

/-- `configure:` is contained exactly when its length fits. -/
theorem configureFits_iff {L : Layout R} {mk : Nat → Nat → R}
    (hf : ∀ n p, L.fields (mk n p) = .ulebs 1) (ho : ∀ n p, L.operand (mk n p) = some (p, n))
    {s : Server σ} {cbuf q : Nat} (hlen : s.bufLen ≤ s.rx.bufMax) (hq : cbuf < q) (hqe : q ≤ s.cend) :
    (∀ r p, parseConfigure mk s cbuf q = .msg r p → Contained L s cbuf r q p) ↔ configureFits s q := by
  have hcur := getUleb128_cursor s.mem q s.cend
  have hce := s.cend_le hlen
  have hu := Nat.mod_lt (getUleb128 s.mem q s.cend).1 (show 0 < 2 ^ 32 by decide)
  have hpend : u64 ((getUleb128 s.mem q s.cend).2 + u32 (getUleb128 s.mem q s.cend).1) =
      (getUleb128 s.mem q s.cend).2 + u32 (getUleb128 s.mem q s.cend).1 :=
    u64_of_lt (by unfold u32; omega)
  simp only [parseConfigure_eq_msg, hpend]
  constructor
  · intro h
    unfold configureFits
    by_cases hle : (getUleb128 s.mem q s.cend).2 + u32 (getUleb128 s.mem q s.cend).1 ≤ s.cend
    · have hends := (h _ _ ⟨hle, rfl, rfl⟩).ends
      simp only [Layout.operandBytes, ho, hf, Fields.endFrom, ulebsEnd, Option.elim] at hends
      refine .inl ?_
      have : (getUleb128 s.mem q s.cend).1 = u32 (getUleb128 s.mem q s.cend).1 := by omega
      rw [this]; exact hu
    · exact .inr (by omega)
  · rintro hfit r p ⟨hle, rfl, rfl⟩
    have heq : u32 (getUleb128 s.mem q s.cend).1 = (getUleb128 s.mem q s.cend).1 := by
      rcases hfit with h | h
      · exact u32_of_lt h
      · omega
    refine ⟨?_, ?_, by omega, hle⟩
    · intro a n hop
      rw [ho] at hop
      cases hop
      simp only [hf, Fields.endFrom, ulebsEnd, true_and]
      omega
    · simp only [Layout.operandBytes, ho, hf, Fields.endFrom, ulebsEnd, Option.elim, heq]

/-- A request without operand is contained when its fields end at the new cursor, inside. -/
theorem Contained.of_fields {L : Layout R} {s : Server σ} {cbuf q p : Nat} {r : R}
    (ho : L.operand r = none) (hp : p = (L.fields r).endFrom s.mem s.cend q) (hlt : cbuf < p)
    (hle : p ≤ s.cend) : Contained L s cbuf r q p where
  operand := by simp [ho]
  ends := by simp [Layout.operandBytes, ho, hp]
  progress := hlt
  inside := hle

/-- A server that has received `bytes`, in a buffer as `xvcserver_start` allocates it, before its
first iteration. -/
def Server.loaded (clientData : σ) (bytes : List UInt8) : Server σ where
  rx := ⟨0x1000, maxPacketLen, by decide, by decide⟩
  bufLen := bytes.length
  mem := write (fun _ => 0) 0x1000 bytes
  c := {}
  clientData := clientData
  replyBuf := fun _ => 0
  replyLen := 0
  trace := []

end Xvc
