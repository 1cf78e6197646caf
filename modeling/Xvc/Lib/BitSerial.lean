import Mathlib.Data.List.Range
import Xvc.Lib.ByteMem

/-!
# Bit-serial devices

A device that takes one TMS and one TDI bit a clock and answers with one TDO bit, and an engine that
clocks it a word at a time.

* `run`: a device through a list of clocks; `run_append` splits it.
* `bits`: the bits of a vector in memory, the lowest of each byte first; `wordBits`: those of a word.
  `wordBits_ofLe` and `bits_write_word` say what a word that is loaded or stored makes of them.
* `Engine.Serial`: an engine whose words are runs of the device.
-/

namespace BitSerial

open ByteMem

variable {S : Type}

/-! ## Runs -/

/-- The device through the clocks `l`: its state after them, and its answers. -/
def run (step : S → Bool → Bool → S × Bool) : S → List (Bool × Bool) → S × List Bool
  | s, [] => (s, [])
  | s, c :: l => ((run step (step s c.1 c.2).1 l).1, (step s c.1 c.2).2 :: (run step (step s c.1 c.2).1 l).2)

variable {step : S → Bool → Bool → S × Bool}

theorem run_append (s : S) (l l' : List (Bool × Bool)) :
    run step s (l ++ l') =
      ((run step (run step s l).1 l').1, (run step s l).2 ++ (run step (run step s l).1 l').2) := by
  induction l generalizing s with
  | nil => rfl
  | cons c l ih => simp only [List.cons_append, run, ih]

theorem length_run (s : S) (l : List (Bool × Bool)) : (run step s l).2.length = l.length := by
  induction l generalizing s with
  | nil => rfl
  | cons c l ih => simp only [run, List.length_cons, ih]

/-! ## Bits in memory -/

/-- Bit `i` of the vector at 0: bit `i % 8` of byte `i / 8`. -/
def bitAt (m : ByteMem) (i : Nat) : Bool := (m (i / 8)).toNat.testBit (i % 8)

/-- The first `n` bits of the vector at `a`. -/
def bits (m : ByteMem) (a n : Nat) : List Bool := (List.range n).map fun i => bitAt m (8 * a + i)

/-- The lowest `n` bits of a word. -/
def wordBits (n w : Nat) : List Bool := (List.range n).map w.testBit

@[simp] theorem length_bits (m : ByteMem) (a n : Nat) : (bits m a n).length = n := by simp [bits]

@[simp] theorem length_wordBits (n w : Nat) : (wordBits n w).length = n := by simp [wordBits]

/-- A vector in two parts, the first of whole bytes. -/
theorem bits_add (m : ByteMem) (a k n : Nat) : bits m a (8 * k + n) = bits m a (8 * k) ++ bits m (a + k) n := by
  unfold bits
  rw [List.range_add, List.map_append, List.map_map]
  congr 1
  refine List.map_congr_left fun i _ => ?_
  show bitAt m (8 * a + (8 * k + i)) = bitAt m (8 * (a + k) + i)
  congr 1
  omega

/-- Bits only depend on the bytes that they are in. -/
theorem bits_congr {m m' : ByteMem} {a n : Nat} (h : ∀ i, i < (n + 7) / 8 → m (a + i) = m' (a + i)) :
    bits m a n = bits m' a n := by
  unfold bits
  refine List.map_congr_left fun i hi => ?_
  rw [List.mem_range] at hi
  unfold bitAt
  rw [show (8 * a + i) / 8 = a + i / 8 by omega, h (i / 8) (by omega)]

/-- The bits of a word that is loaded byte by byte, the lowest first. -/
theorem testBit_ofLe (l : List UInt8) (i : Nat) : (ofLe l).testBit i = (l.getD (i / 8) 0).toNat.testBit (i % 8) := by
  induction l generalizing i with
  | nil => simp [ofLe]
  | cons b l ih =>
    have hcons : ofLe (b :: l) = 2 ^ 8 * ofLe l + b.toNat := by simp only [ofLe, List.foldr_cons]; omega
    rw [hcons, Nat.testBit_two_pow_mul_add _ (show b.toNat < 2 ^ 8 from b.toNat_lt)]
    by_cases hi : i < 8
    · rw [if_pos hi, show i / 8 = 0 by omega, Nat.mod_eq_of_lt hi]
      rfl
    · rw [if_neg hi, ih, show i / 8 = (i - 8) / 8 + 1 by omega, show (i - 8) % 8 = i % 8 by omega,
        List.getD_cons_succ]

/-- The first `n` bits of the bytes `l`: bit `i` is bit `i % 8` of byte `i / 8`. -/
def vectorBits (l : List UInt8) (n : Nat) : List Bool :=
  (List.range n).map fun i => (l.getD (i / 8) 0).toNat.testBit (i % 8)

@[simp] theorem length_vectorBits (l : List UInt8) (n : Nat) : (vectorBits l n).length = n := by simp [vectorBits]

theorem bits_eq_vectorBits {m : ByteMem} {a k n : Nat} (h : n ≤ 8 * k) : bits m a n = vectorBits (slice m a k) n := by
  unfold bits vectorBits
  refine List.map_congr_left fun i hi => ?_
  rw [List.mem_range] at hi
  rw [getD_slice m a (by omega)]
  unfold bitAt
  rw [show (8 * a + i) / 8 = a + i / 8 by omega, show (8 * a + i) % 8 = i % 8 by omega]

theorem wordBits_ofLe (m : ByteMem) (a : Nat) {k n : Nat} (h : n ≤ 8 * k) :
    wordBits n (ofLe (slice m a k)) = bits m a n := by
  rw [bits_eq_vectorBits h]
  exact List.map_congr_left fun i _ => testBit_ofLe _ i

/-- The bytes of a word hold its bits. -/
theorem getD_leBytes (n v j : Nat) (h : j < n) : (leBytes n v).getD j 0 = UInt8.ofNat (v >>> (8 * j)) := by
  induction n generalizing v j with
  | zero => omega
  | succ n ih =>
    cases j with
    | zero => rfl
    | succ j =>
      rw [leBytes, List.getD_cons_succ, ih _ _ (by omega), ← Nat.shiftRight_add, show 8 + 8 * j = 8 * (j + 1) by omega]

theorem bitAt_write_word (m : ByteMem) (a v : Nat) {w k i : Nat} (hk : k ≤ w) (hi : i < 8 * k) :
    bitAt (write m a ((leBytes w v).take k)) (8 * a + i) = v.testBit i := by
  have hbyte : write m a ((leBytes w v).take k) (a + i / 8) = UInt8.ofNat (v >>> (8 * (i / 8))) := by
    have hlen : ((leBytes w v).take k).length = k := by simp [hk]
    have hslice := slice_write m a ((leBytes w v).take k)
    rw [hlen] at hslice
    have hget := getD_slice (write m a ((leBytes w v).take k)) a (i := i / 8) (n := k) (by omega)
    rw [← hget, hslice, ← getD_leBytes w v (i / 8) (by omega)]
    simp [List.getD_eq_getElem?_getD, show i / 8 < k by omega]
  unfold bitAt
  rw [show (8 * a + i) / 8 = a + i / 8 by omega, show (8 * a + i) % 8 = i % 8 by omega, hbyte]
  have hmod : i % 8 < 8 := Nat.mod_lt _ (by decide)
  rw [UInt8.toNat_ofNat', Nat.testBit_mod_two_pow, Nat.testBit_shiftRight, show 8 * (i / 8) + i % 8 = i by omega]
  simp [hmod]

/-- The lowest `k` bytes of a word, stored at `a`. -/
theorem bits_write_word (m : ByteMem) (a v : Nat) {w k n : Nat} (hk : k ≤ w) (hn : n ≤ 8 * k) :
    bits (write m a ((leBytes w v).take k)) a n = wordBits n v := by
  unfold bits wordBits
  refine List.map_congr_left fun i hi => ?_
  rw [List.mem_range] at hi
  exact bitAt_write_word m a v hk (by omega)

/-- Two vectors behind each other, the first of whole bytes. -/
theorem vectorBits_append (l l' : List UInt8) (n : Nat) :
    vectorBits (l ++ l') (8 * l.length + n) = vectorBits l (8 * l.length) ++ vectorBits l' n := by
  unfold vectorBits
  rw [List.range_add, List.map_append, List.map_map]
  congr 1
  · refine List.map_congr_left fun i hi => ?_
    rw [List.mem_range] at hi
    have hlt : i / 8 < l.length := by omega
    simp [List.getD_eq_getElem?_getD, List.getElem?_append_left hlt]
  · refine List.map_congr_left fun i _ => ?_
    have hle : l.length ≤ (8 * l.length + i) / 8 := by omega
    simp only [Function.comp_apply, List.getD_eq_getElem?_getD]
    rw [List.getElem?_append_right hle, show (8 * l.length + i) / 8 - l.length = i / 8 by omega,
      show (8 * l.length + i) % 8 = i % 8 by omega]

/-- The lowest bytes of a word are a vector of its bits. -/
theorem vectorBits_leBytes (v : Nat) {w k n : Nat} (hk : k ≤ w) (hn : n ≤ 8 * k) :
    vectorBits ((leBytes w v).take k) n = wordBits n v := by
  have hlen : ((leBytes w v).take k).length = k := by simp [hk]
  have hslice := slice_write (fun _ => 0) 0 ((leBytes w v).take k)
  rw [hlen] at hslice
  have hbits := bits_write_word (fun _ => 0) 0 v hk hn
  rwa [bits_eq_vectorBits hn, hslice] at hbits

/-! ## Engines -/

/-- An engine with TMS and TDI registers: a trigger clocks `length` bits and leaves a word in TDO. -/
structure Engine (S : Type) where
  trigger : S → (length tms tdi : Nat) → S × Nat

/-- A trigger of up to 32 bits is that many clocks of the device, the lowest bit first. What is above
them in TDO is not said. -/
structure Engine.Serial (engine : Engine S) (step : S → Bool → Bool → S × Bool) : Prop where
  state : ∀ s n tms tdi, 0 < n → n ≤ 32 →
    (engine.trigger s n tms tdi).1 = (run step s ((wordBits n tms).zip (wordBits n tdi))).1
  tdo : ∀ s n tms tdi, 0 < n → n ≤ 32 →
    wordBits n (engine.trigger s n tms tdi).2 = (run step s ((wordBits n tms).zip (wordBits n tdi))).2

/-- A word from its bits, the lowest first. -/
def ofBits : List Bool → Nat
  | [] => 0
  | b :: l => b.toNat + 2 * ofBits l

theorem testBit_ofBits (l : List Bool) (i : Nat) : (ofBits l).testBit i = l.getD i false := by
  induction l generalizing i with
  | nil => simp [ofBits]
  | cons b l ih =>
    have hcons : ofBits (b :: l) = 2 ^ 1 * ofBits l + b.toNat := by simp only [ofBits]; omega
    rw [hcons, Nat.testBit_two_pow_mul_add _ (show b.toNat < 2 ^ 1 by cases b <;> decide)]
    cases i with
    | zero => cases b <;> rfl
    | succ i => rw [if_neg (by omega), Nat.add_sub_cancel, ih, List.getD_cons_succ]

theorem wordBits_ofBits (l : List Bool) : wordBits l.length (ofBits l) = l := by
  refine List.ext_getElem (by simp) fun i h1 h2 => ?_
  simp [wordBits, testBit_ofBits, List.getD_eq_getElem?_getD, h2]

/-- The engine that clocks a device. -/
def Engine.of (step : S → Bool → Bool → S × Bool) : Engine S where
  trigger s n tms tdi :=
    let r := run step s ((wordBits n tms).zip (wordBits n tdi))
    (r.1, ofBits r.2)

theorem Engine.of_serial (step : S → Bool → Bool → S × Bool) : (Engine.of step).Serial step where
  state _ _ _ _ _ _ := rfl
  tdo s n tms tdi _ _ := by
    have hlen : (run step s ((wordBits n tms).zip (wordBits n tdi))).2.length = n := by rw [length_run]; simp
    have hbits := wordBits_ofBits (run step s ((wordBits n tms).zip (wordBits n tdi))).2
    rwa [hlen] at hbits

end BitSerial
