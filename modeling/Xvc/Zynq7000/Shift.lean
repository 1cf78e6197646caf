import Xvc.Lib.BitSerial

/-!
# The `shift:` branch of `zynq7000`

`handle_data` of `jtag/zynq7000/XAPP1251/src/xvcServer.c` splits the vectors of a shift into words of the
JTAG IP. It goes by the bytes that are left: four or more are a word of 32 clocks, even when fewer bits
are left. `shift_iff` says for which lengths the device sees the vectors as they are.

`Board` is the IP's device, the result array, and the triggers with their registers up to now.
-/

namespace Xvc
namespace Zynq7000

open ByteMem BitSerial

variable {S : Type}

/-! ## The code -/

/-- The value of an `int`. -/
def int32 (x : Int) : Int := x.bmod (2 ^ 32)

/-- What an `int` becomes in an unsigned register. -/
def u32OfInt (x : Int) : Nat := (x % 2 ^ 32).toNat

/-- The registers that a trigger takes its word from. -/
structure Trigger where
  length : Nat
  tms : Nat
  tdi : Nat
  deriving DecidableEq

/-- The device behind the IP, `result`, and the triggers up to now. -/
structure Board (S : Type) where
  state : S
  result : ByteMem
  triggers : List Trigger

/-- The registers are written, `ctrl_offset` is set, and the IP completes: the board after that, and
`tdo_offset`. -/
def Board.trigger (engine : Engine S) (b : Board S) (length tms tdi : Nat) : Board S × Nat :=
  let r := engine.trigger b.state length tms tdi
  ({ b with state := r.1, triggers := b.triggers ++ [⟨length, tms, tdi⟩] }, r.2)

/-- The `while (bytesLeft > 0)` loop; its last branch leaves it. -/
def shiftLoop (engine : Engine S) (buffer : ByteMem) (nrBytes : Nat) :
    (bytesLeft : Nat) → (bitsLeft : Int) → (byteIndex : Nat) → Board S → Board S
  | 0, _, _, b => b
  | bytesLeft + 4, bitsLeft, byteIndex, b =>
    let tms := ofLe (slice buffer byteIndex 4)
    let tdi := ofLe (slice buffer (byteIndex + nrBytes) 4)
    let r := b.trigger engine 32 tms tdi
    shiftLoop engine buffer nrBytes bytesLeft (bitsLeft - 32) (byteIndex + 4)
      { r.1 with result := write r.1.result byteIndex (leBytes 4 r.2) }
  | bytesLeft, bitsLeft, byteIndex, b =>
    let tms := ofLe (slice buffer byteIndex bytesLeft)
    let tdi := ofLe (slice buffer (byteIndex + nrBytes) bytesLeft)
    let r := b.trigger engine (u32OfInt bitsLeft) tms tdi
    { r.1 with result := write r.1.result byteIndex ((leBytes 4 r.2).take bytesLeft) }

/-- `nr_bytes`. -/
def nrBytes (len : Int) : Int := (int32 (len + 7)).tdiv 8

/-- The check `nr_bytes * 2 > sizeof(buffer)`, in `size_t`. -/
def exceeds (len : Int) : Bool := 8192 < u32OfInt (int32 (nrBytes len * 2))

/-- The branch, once `len` has been read; `input` are the `nr_bytes * 2` bytes that follow, and `buffer` and
`result` what the arrays held before. The reply is `result[0 .. nr_bytes)`; none with `buffer size exceeded`. -/
def shift (engine : Engine S) (len : Int) (input : List UInt8) (buffer result : ByteMem) (s : S) :
    Option (Board S × List UInt8) :=
  if exceeds len then none
  else
    let n := (nrBytes len).toNat
    let b := shiftLoop engine (write buffer 0 input) n n len 0 ⟨s, memset result 0 0 n, []⟩
    some (b, slice b.result 0 n)

/-! ## What the device sees -/

/-- The clocks of the triggers: the TMS and TDI bits that the device is given. -/
def clocks (l : List Trigger) : List (Bool × Bool) :=
  l.flatMap fun t => (wordBits t.length t.tms).zip (wordBits t.length t.tdi)

variable {step : S → Bool → Bool → S × Bool} {engine : Engine S}

theorem clocks_append (l : List Trigger) (t : Trigger) :
    clocks (l ++ [t]) = clocks l ++ (wordBits t.length t.tms).zip (wordBits t.length t.tdi) := by
  simp [clocks]

/-- The clocks for `t` bits: the last word has 32 of them when its bits take four bytes. -/
def driven (t : Nat) : Nat := if 24 < t % 32 then (t / 32 + 1) * 32 else t

/-- The bits of the two vectors from byte `k` on; the TDI vector is `n` bytes behind the other. -/
def vectors (buffer : ByteMem) (n k t : Nat) : List (Bool × Bool) := (bits buffer k t).zip (bits buffer (k + n) t)

theorem vectors_add (buffer : ByteMem) (n k t : Nat) :
    vectors buffer n k (32 + t) = vectors buffer n k 32 ++ vectors buffer n (k + 4) t := by
  have h := bits_add buffer k 4 t
  have h' := bits_add buffer (k + n) 4 t
  simp only [vectors]
  rw [show k + 4 + n = k + n + 4 by omega, ← List.zip_append (by simp), ← h, ← h']

/-- A trigger of `m` bits of the vectors, of which `w` bytes are loaded. -/
theorem trigger_spec (hs : engine.Serial step) (buffer : ByteMem) (n k : Nat) (b : Board S) {m w : Nat} (hpos : 0 < m)
    (hm : m ≤ 8 * w) (hw : w ≤ 4) :
    let r := b.trigger engine m (ofLe (slice buffer k w)) (ofLe (slice buffer (k + n) w))
    r.1.state = (run step b.state (vectors buffer n k m)).1 ∧
      clocks r.1.triggers = clocks b.triggers ++ vectors buffer n k m ∧
      bits (write r.1.result k ((leBytes 4 r.2).take w)) k m = (run step b.state (vectors buffer n k m)).2 := by
  have h1 := wordBits_ofLe buffer k hm
  have h2 := wordBits_ofLe buffer (k + n) hm
  have hv : (wordBits m (ofLe (slice buffer k w))).zip (wordBits m (ofLe (slice buffer (k + n) w))) =
      vectors buffer n k m := by rw [h1, h2]; rfl
  refine ⟨?_, ?_, ?_⟩
  · rw [← hv]
    exact hs.state _ _ _ _ hpos (by omega)
  · rw [← hv]
    exact clocks_append _ _
  · rw [bits_write_word _ _ _ hw hm, ← hv]
    exact hs.tdo _ _ _ _ hpos (by omega)

/-- The last branch: fewer than four bytes are left. -/
theorem shiftLoop_last (engine : Engine S) (buffer : ByteMem) (n : Nat) {w : Nat} (hpos : 0 < w) (hw : w < 4)
    (bitsLeft : Int) (k : Nat) (b : Board S) :
    shiftLoop engine buffer n w bitsLeft k b =
      let r := b.trigger engine (u32OfInt bitsLeft) (ofLe (slice buffer k w)) (ofLe (slice buffer (k + n) w))
      { r.1 with result := write r.1.result k ((leBytes 4 r.2).take w) } := by
  match w, hpos, hw with
  | 1, _, _ => rfl
  | 2, _, _ => rfl
  | 3, _, _ => rfl

/-- The loop on `t` bits from byte `k` on, by induction on `t`: a whole word, then the rest. -/
theorem shiftLoop_spec (hs : engine.Serial step) (buffer : ByteMem) (n t k : Nat) (b : Board S) :
    let r := shiftLoop engine buffer n ((t + 7) / 8) t k b
    r.state = (run step b.state (vectors buffer n k (driven t))).1 ∧
      clocks r.triggers = clocks b.triggers ++ vectors buffer n k (driven t) ∧
      bits r.result k (driven t) = (run step b.state (vectors buffer n k (driven t))).2 ∧
      ∀ j, j < k → r.result j = b.result j := by
  induction t using Nat.strongRecOn generalizing k b with
  | ind t ih =>
    -- The word at `k`, when its bytes are all there.
    have hword := trigger_spec hs buffer n k b (m := 32) (w := 4) (by decide) (by decide) (by decide)
    have htake : ∀ v, (leBytes 4 v).take 4 = leBytes 4 v := fun v => List.take_of_length_le (by simp)
    simp only [htake] at hword
    generalize hr : b.trigger engine 32 (ofLe (slice buffer k 4)) (ofLe (slice buffer (k + n) 4)) = r at hword
    have hkeep : r.1.result = b.result := by rw [← hr]; rfl
    obtain ⟨h1, h2, h3⟩ := hword
    have hbelow : ∀ j, j < k → write r.1.result k (leBytes 4 r.2) j = b.result j := fun j hj => by
      rw [write_of_disjoint _ _ (.inl hj), hkeep]
    by_cases h24 : t ≤ 24
    · rcases Nat.eq_zero_or_pos t with rfl | hpos
      · exact ⟨rfl, (List.append_nil _).symm, rfl, fun _ _ => rfl⟩
      · -- The last bytes.
        have hd : driven t = t := by unfold driven; rw [if_neg (by omega)]
        have hlen : u32OfInt (t : Int) = t := by unfold u32OfInt; omega
        obtain ⟨p1, p2, p3⟩ := trigger_spec hs buffer n k b (m := t) (w := (t + 7) / 8) hpos
          (by omega) (by omega)
        rw [hd, shiftLoop_last engine buffer n (by omega) (by omega), hlen]
        exact ⟨p1, p2, p3, fun j hj => write_of_disjoint _ _ (.inl hj)⟩
    · obtain ⟨x, hx⟩ : ∃ x, (t + 7) / 8 = x + 4 := ⟨(t + 7) / 8 - 4, by omega⟩
      rw [hx, shiftLoop, hr]
      simp only
      by_cases h32 : t < 32
      · -- The word is the last, and takes all of its 32 clocks.
        obtain rfl : x = 0 := by omega
        have hd : driven t = 32 := by unfold driven; rw [if_pos (by omega)]; omega
        rw [hd, shiftLoop]
        exact ⟨h1, h2, h3, hbelow⟩
      · obtain ⟨u, rfl⟩ : ∃ u, t = 32 + u := ⟨t - 32, by omega⟩
        obtain rfl : x = (u + 7) / 8 := by omega
        have hd : driven (32 + u) = 32 + driven u := by unfold driven; split <;> split <;> omega
        have hleft : ((32 + u : Nat) : Int) - 32 = (u : Int) := by omega
        rw [hleft, hd, vectors_add, run_append]
        obtain ⟨i1, i2, i3, i4⟩ := ih u (by omega) (k + 4) { r.1 with result := write r.1.result k (leBytes 4 r.2) }
        generalize shiftLoop engine buffer n ((u + 7) / 8) u (k + 4)
          { r.1 with result := write r.1.result k (leBytes 4 r.2) } = q at i1 i2 i3 i4
        simp only at i1 i2 i3 i4
        rw [h1] at i1 i3
        refine ⟨i1, by rw [i2, h2, List.append_assoc], ?_, fun j hj => (i4 j (by omega)).trans (hbelow j hj)⟩
        have hsplit := bits_add q.result k 4 (driven u)
        have hfirst : bits q.result k (8 * 4) = bits (write r.1.result k (leBytes 4 r.2)) k (8 * 4) :=
          bits_congr fun i hi => i4 (k + i) (by omega)
        rw [show 32 + driven u = 8 * 4 + driven u from rfl, hsplit, hfirst, i3]
        exact congrArg (· ++ _) h3

theorem driven_eq_iff {t : Nat} : driven t = t ↔ t % 32 ≤ 24 := by
  unfold driven
  split <;> omega

theorem int32_of_range {x : Int} (hlo : -2 ^ 31 ≤ x) (hhi : x < 2 ^ 31) : int32 x = x :=
  Int.bmod_eq_of_le (by omega) (by omega)

theorem nrBytes_natCast {len : Nat} (h : len ≤ 8192) : nrBytes len = ((len + 7) / 8 : Nat) := by
  rw [nrBytes, int32_of_range (by omega) (by omega)]
  rfl

theorem exceeds_natCast {len : Nat} (h : len ≤ 8192) : exceeds len = false := by
  have hint : int32 (((len + 7) / 8 : Nat) * 2 : Int) = (((len + 7) / 8 * 2 : Nat) : Int) :=
    int32_of_range (by omega) (by omega)
  have hsmall : ¬ 8192 < u32OfInt (((len + 7) / 8 * 2 : Nat) : Int) := by unfold u32OfInt; omega
  rw [exceeds, nrBytes_natCast h, hint]
  exact decide_eq_false hsmall

/-- The two vectors, as they lie in the buffer once they have been read. -/
theorem vectors_write {len : Nat} {tms tdi : List UInt8} (htms : tms.length = (len + 7) / 8)
    (htdi : tdi.length = (len + 7) / 8) (buffer : ByteMem) :
    vectors (write buffer 0 (tms ++ tdi)) ((len + 7) / 8) 0 len = (vectorBits tms len).zip (vectorBits tdi len) := by
  have hbits : len ≤ 8 * ((len + 7) / 8) := by omega
  have hwrite : slice (write buffer 0 (tms ++ tdi)) 0 (tms ++ tdi).length = tms ++ tdi := slice_write _ _ _
  obtain ⟨h1, h2, -⟩ := slice_eq_append hwrite
  rw [List.length_append, Nat.add_sub_cancel_left, htms, htdi] at h2
  rw [htms] at h1
  rw [vectors, bits_eq_vectorBits hbits, bits_eq_vectorBits hbits, h1, h2]

/-- The branch does as `len` single steps of the device on the bits of the vectors would. -/
def Serially (engine : Engine S) (step : S → Bool → Bool → S × Bool) (len : Nat) (tms tdi : List UInt8)
    (buffer result : ByteMem) (s : S) : Prop :=
  let expected := (vectorBits tms len).zip (vectorBits tdi len)
  ∃ b reply, shift engine len (tms ++ tdi) buffer result s = some (b, reply) ∧ reply.length = (len + 7) / 8 ∧
    clocks b.triggers = expected ∧ b.state = (run step s expected).1 ∧
    vectorBits reply len = (run step s expected).2

/-- **A shift.** With any device, from any state, for any vectors of at most 1024 bytes: the device gets
exactly the `len` clocks of the vectors, in order, comes to the state after them, and the reply holds its
answers, if and only if the bits behind the last whole word are not 25 to 31. -/
theorem shift_iff (hs : engine.Serial step) (len : Nat) (hlen : (len + 7) / 8 ≤ 1024) (tms tdi : List UInt8)
    (htms : tms.length = (len + 7) / 8) (htdi : tdi.length = (len + 7) / 8) (buffer result : ByteMem) (s : S) :
    Serially engine step len tms tdi buffer result s ↔ len % 32 ≤ 24 := by
  have h8192 : len ≤ 8192 := by omega
  have hn : (nrBytes len).toNat = (len + 7) / 8 := by rw [nrBytes_natCast h8192]; rfl
  unfold Serially shift
  rw [exceeds_natCast h8192]
  simp only [Bool.false_eq_true, if_false, hn]
  have hexp := vectors_write htms htdi buffer
  generalize write buffer 0 (tms ++ tdi) = m at hexp
  obtain ⟨hstate, hclocks, hout, -⟩ := shiftLoop_spec hs m ((len + 7) / 8) len 0
    ⟨s, memset result 0 0 ((len + 7) / 8), []⟩
  generalize shiftLoop engine m ((len + 7) / 8) ((len + 7) / 8) len 0
    ⟨s, memset result 0 0 ((len + 7) / 8), []⟩ = r at hstate hclocks hout
  constructor
  · -- The clocks are as many as the bits.
    rintro ⟨b, reply, hb, -, hgot, -⟩
    obtain ⟨rfl, -⟩ : r = b ∧ _ := by simpa using hb
    have hlength := congrArg List.length (hclocks.symm.trans hgot)
    simp only [clocks, vectors, List.flatMap_nil, List.nil_append, List.length_zip, length_bits, length_vectorBits,
      Nat.min_self] at hlength
    exact driven_eq_iff.mp hlength
  · intro h24
    rw [driven_eq_iff.mpr h24, hexp] at hstate hclocks hout
    refine ⟨r, slice r.result 0 ((len + 7) / 8), rfl, length_slice _ _ _, hclocks, hstate, ?_⟩
    rw [← bits_eq_vectorBits (by omega), hout]

/-- A device that counts its clocks and answers with TDI. -/
def counting (s : Nat) (_ tdi : Bool) : Nat × Bool := (s + 1, tdi)

/-- 56 bits are a whole word and three bytes. -/
theorem shift_iff_56 :
    Serially (Engine.of counting) counting 56 [1, 2, 3, 4, 5, 6, 7] [7, 6, 5, 4, 3, 2, 1] (fun _ => 0) (fun _ => 0) 0 ↔
      56 % 32 ≤ 24 :=
  shift_iff (Engine.of_serial counting) 56 (by decide) _ _ rfl rfl _ _ _

/-- 25 bits, from the start: the device counts 32 clocks. -/
theorem shift_25_not_serially :
    ¬ Serially (Engine.of counting) counting 25 [0, 0, 0, 0] [1, 2, 3, 1] (fun _ => 0) (fun _ => 0) 0 := by
  rintro ⟨b, reply, hshift, -, -, hstate, -⟩
  have hrun : (shift (Engine.of counting) (25 : Nat) ([0, 0, 0, 0] ++ [1, 2, 3, 1]) (fun _ => 0) (fun _ => 0) 0).map
      (fun r => r.1.state) = some 32 := by decide
  rw [hshift, Option.map_some, hstate] at hrun
  exact absurd hrun (by decide)

end Zynq7000
end Xvc
