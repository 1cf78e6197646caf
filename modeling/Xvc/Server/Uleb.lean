import Xvc.Server.Contain
import Xvc.Server.Reply
import Xvc.Server.View

/-!
# `get_uleb128` and `reply_uleb128`

The loop of `get_uleb128` goes on for as long as the client's bytes say so, and shifts each group by seven
bits more than the one before.

* `getUleb128_decodes_iff`: what it returns is the number, whatever follows, and every shift is defined, exactly
  for numbers of at most ten bytes.
* `getUlebRounds`: the loop round by round, with the bytes that it reads; it ends without reading behind `bufend`.
* `uleb128_round_trip`: it reads what `reply_uleb128` has appended, and sees when a part of that is missing.
-/

namespace Xvc

open ByteMem

/-- The shift amounts that the loop of `get_uleb128` evaluates; past `bufend` the zero byte is shifted too. -/
def getUlebShiftLoop (mem : ByteMem) : Nat → Nat → Nat → List Nat
  | 0, _, i => [i]
  | k + 1, p, i => i :: if (mem p).toNat &&& 0x80 = 0 then [] else getUlebShiftLoop mem k (p + 1) (i + 7)

/-- The shift amounts in `get_uleb128`. -/
def getUleb128Shifts (mem : ByteMem) (p bufend : Nat) : List Nat := getUlebShiftLoop mem (bufend - p) p 0

variable {mem : ByteMem} {p bufend : Nat} {f : List UInt8}

theorem getUlebShiftLoop_eq (mem : ByteMem) (k p i : Nat) :
    getUlebShiftLoop mem k p i = Leb128.shifts (slice mem p k) i := by
  induction k generalizing p i with
  | zero => rfl
  | succ k ih => rw [getUlebShiftLoop, ih, slice_succ, Leb128.shifts]

/-- The bytes up to `bufend` begin with the number. -/
theorem slice_of_field (hmem : slice mem p f.length = f) (hend : p + f.length ≤ bufend) :
    slice mem p (bufend - p) = f ++ slice mem (p + f.length) (bufend - p - f.length) := by
  obtain ⟨k, hk⟩ : ∃ k, bufend - p = f.length + k := ⟨bufend - p - f.length, by omega⟩
  rw [hk, Nat.add_sub_cancel_left, slice_append, hmem]

/-- **`get_uleb128`** returns the number modulo `2 ^ 64`, stops behind it, and evaluates no shift by 64 bits
or more, if and only if the number has at most ten bytes. -/
theorem getUleb128_decodes_iff (mem : ByteMem) (p bufend : Nat) (f : List UInt8) (hf : Leb128.IsField f)
    (hmem : slice mem p f.length = f) (hend : p + f.length ≤ bufend) :
    (getUleb128 mem p bufend = (Leb128.payload f % 2 ^ 64, p + f.length) ∧
        ∀ n ∈ getUleb128Shifts mem p bufend, n < 64) ↔
      f.length ≤ 10 := by
  unfold getUleb128Shifts
  rw [getUleb128_eq, getUlebShiftLoop_eq, slice_of_field hmem hend, Leb128.shifts_lt_iff hf, Leb128.read_field hf]
  constructor
  · rintro ⟨-, hshift⟩
    omega
  · intro hlen
    have hvalue := Leb128.read_eq_payload (w := 64) (i := 0) (v := 0) hf (by decide) (by omega)
    rw [hvalue, Nat.zero_add, Nat.pow_zero, Nat.mul_one]
    exact ⟨rfl, by omega⟩

/-- 300, in three bytes. -/
theorem getUleb128_decodes_padded :
    getUleb128 (write (fun _ => 0xff) 5 [0xac, 0x82, 0x00]) 5 100 = (300, 8) :=
  ((getUleb128_decodes_iff _ 5 100 [0xac, 0x82, 0x00] (by decide) (by decide) (by decide)).mpr (by decide)).1

/-- Zero in eleven bytes: the last of them is shifted by 70. -/
theorem getUleb128_shifts_too_far :
    Leb128.IsField (List.replicate 10 0x80 ++ [0]) ∧
      70 ∈ getUleb128Shifts (write (fun _ => 0) 0 (List.replicate 10 0x80 ++ [0])) 0 100 := by
  decide

/-! ## The loop, round by round -/

/-- At most so many rounds of the loop of `get_uleb128`: the value, the new cursor, and the addresses that are read. -/
def getUlebRounds (mem : ByteMem) (bufend : Nat) : (rounds p i value : Nat) → Option (Nat × Nat × List Nat)
  | 0, _, _, _ => none
  | rounds + 1, p, i, value =>
    let n := if p < bufend then (mem p).toNat else 0
    let read := if p < bufend then [p] else []
    let value := Leb128.addGroup 64 value i n
    if n &&& 0x80 ≠ 0 then
      (getUlebRounds mem bufend rounds (p + 1) (i + 7) value).map fun r => (r.1, r.2.1, read ++ r.2.2)
    else some (value, p + 1, read)

/-- The loop of `get_uleb128` ends with `r`, and reads nothing outside `[p, bufend)`. -/
def UlebEnds (mem : ByteMem) (p bufend : Nat) (r : Nat × Nat) : Prop :=
  ∃ reads, (∀ rounds, bufend - p < rounds → getUlebRounds mem bufend rounds p 0 0 = some (r.1, r.2, reads)) ∧
    ∀ a ∈ reads, p ≤ a ∧ a < bufend

/-- The induction is on the bytes up to `bufend`; behind them one round with a zero byte is left. -/
theorem getUlebRounds_eq (mem : ByteMem) {p bufend k : Nat} (hk : bufend - p = k) (i value : Nat) :
    ∃ reads, (∀ rounds, k < rounds →
        getUlebRounds mem bufend rounds p i value =
          some ((getUlebLoop mem k p i value).1, (getUlebLoop mem k p i value).2, reads)) ∧
      ∀ a ∈ reads, p ≤ a ∧ a < bufend := by
  induction k generalizing p i value with
  | zero =>
    have hend : ¬ p < bufend := by omega
    refine ⟨[], fun rounds hr => ?_, by simp⟩
    obtain ⟨n, rfl⟩ := Nat.exists_eq_succ_of_ne_zero (Nat.ne_of_gt hr)
    simp [getUlebRounds, getUlebLoop, Leb128.addGroup, hend]
  | succ k ih =>
    have hin : p < bufend := by omega
    rw [getUlebLoop]
    by_cases hcont : (mem p).toNat &&& 0x80 = 0
    · refine ⟨[p], fun rounds hr => ?_, by simp [hin]⟩
      obtain ⟨n, rfl⟩ := Nat.exists_eq_succ_of_ne_zero (Nat.ne_of_gt (Nat.lt_of_le_of_lt (Nat.zero_le _) hr))
      simp [getUlebRounds, hin, hcont]
    · obtain ⟨reads, hrun, hreads⟩ := ih (p := p + 1) (by omega) (i + 7) (Leb128.addGroup 64 value i (mem p).toNat)
      refine ⟨p :: reads, fun rounds hr => ?_, ?_⟩
      · obtain ⟨n, rfl⟩ := Nat.exists_eq_succ_of_ne_zero (Nat.ne_of_gt (Nat.lt_of_le_of_lt (Nat.zero_le _) hr))
        simp [getUlebRounds, hin, hcont, hrun n (Nat.lt_of_succ_lt_succ hr)]
      · intro a ha
        rcases List.mem_cons.mp ha with rfl | ha
        · exact ⟨Nat.le_refl _, hin⟩
        · have := hreads a ha
          omega

theorem getUleb128_ends (mem : ByteMem) (p bufend : Nat) : UlebEnds mem p bufend (getUleb128 mem p bufend) :=
  getUlebRounds_eq mem rfl 0 0

/-! ## The round trip -/

/-- What has been appended to the reply between `s` and `t`. -/
def Server.appended {σ : Type} (s t : Server σ) : List UInt8 := slice t.replyBuf s.replyLen (t.replyLen - s.replyLen)

section RoundTrip

variable {σ τ : Type} {s : Server σ} {v : Nat}

theorem appended_replyUleb128 (hfit : s.replyLen + (s.replyUlebLoop 10 v 0).2 ≤ maxPacketLen) :
    s.appended (s.replyUleb128 v) = Leb128.encode 10 v := by
  rw [(Server.replyUlebLoop_spec s 10 v 0).2, Nat.zero_add] at hfit
  have hview := congrArg View.pending (Server.view_replyUleb128 hfit)
  have happend := (slice_eq_append hview).2.1
  rw [Nat.zero_add, Server.length_pending] at happend
  exact happend

theorem isField_appended (hv : v < 2 ^ 64) : Leb128.IsField (Leb128.encode 10 v) :=
  Leb128.isField_encode (by decide) (Nat.lt_trans hv (by decide))

theorem value_appended (hv : v < 2 ^ 64) : (Leb128.read 64 (Leb128.encode 10 v) 0 0).1 = v :=
  Leb128.value_encode (by decide) hv (by decide) (by decide)

/-- **The round trip.** What `get_uleb128` reads from the bytes that `reply_uleb128` has appended, whatever follows;
encodings of distinct values are no prefixes of one another; and what it reads from a part of the bytes. -/
theorem uleb128_round_trip (s : Server σ) (hv : v < 2 ^ 64)
    (hfit : s.replyLen + (s.replyUlebLoop 10 v 0).2 ≤ maxPacketLen) :
    let f := s.appended (s.replyUleb128 v)
    (∀ mem p bufend, slice mem p f.length = f → p + f.length ≤ bufend →
        getUleb128 mem p bufend = (v, p + f.length) ∧ UlebEnds mem p bufend (v, p + f.length)) ∧
      (∀ (t : Server τ) v', v' < 2 ^ 64 → t.replyLen + (t.replyUlebLoop 10 v' 0).2 ≤ maxPacketLen → v ≠ v' →
        ¬ f <+: t.appended (t.replyUleb128 v')) ∧
      ∀ mem p q, Stream.Proper q f → slice mem p q.length = q →
        let r := getUleb128 mem p (p + q.length)
        UlebEnds mem p (p + q.length) r ∧ p + q.length < r.2 ∧ r.1 ≤ v := by
  have hfield := isField_appended hv
  have hvalue := value_appended hv
  simp only [appended_replyUleb128 hfit]
  refine ⟨fun mem p bufend hmem hend => ?_, fun t v' hv' hfit' hne hpre => ?_, fun mem p q hq hmem => ?_⟩
  · have hread : getUleb128 mem p bufend = (v, p + (Leb128.encode 10 v).length) := by
      rw [getUleb128_eq, slice_of_field hmem hend, Leb128.read_field hfield, hvalue]
    exact ⟨hread, hread ▸ getUleb128_ends mem p bufend⟩
  · rw [appended_replyUleb128 hfit'] at hpre
    have heq := hfield.eq_of_prefix (isField_appended hv') hpre
    have hvalue' := value_appended hv'
    rw [← heq, hvalue] at hvalue'
    exact hne hvalue'
  · obtain ⟨hused, x, hbits⟩ := Leb128.read_truncated hfield hq 64 0 0
    refine ⟨getUleb128_ends _ _ _, ?_, ?_⟩
    · rw [getUleb128_eq, Nat.add_sub_cancel_left, hmem, hused]
      omega
    · rw [getUleb128_eq, Nat.add_sub_cancel_left, hmem, ← hvalue, hbits]
      exact Nat.left_le_or

/-- 300, in a new connection. -/
theorem uleb128_round_trip_300 :
    let s := Server.loaded () []
    let f := s.appended (s.replyUleb128 300)
    (∀ mem p bufend, slice mem p f.length = f → p + f.length ≤ bufend →
        getUleb128 mem p bufend = (300, p + f.length) ∧ UlebEnds mem p bufend (300, p + f.length)) ∧
      (∀ (t : Server Unit) v', v' < 2 ^ 64 → t.replyLen + (t.replyUlebLoop 10 v' 0).2 ≤ maxPacketLen → 300 ≠ v' →
        ¬ f <+: t.appended (t.replyUleb128 v')) ∧
      ∀ mem p q, Stream.Proper q f → slice mem p q.length = q →
        let r := getUleb128 mem p (p + q.length)
        UlebEnds mem p (p + q.length) r ∧ p + q.length < r.2 ∧ r.1 ≤ 300 :=
  uleb128_round_trip _ (by decide) (by decide)

end RoundTrip

end Xvc
