import Xvc.Lib.While
import Xvc.ZynqMP.XilXvcIoctl

/-!
# The self-test of the driver

`jtag/zynqMP/src/user/verify_xilinx_xvc_driver.c`: a pattern is sent through the driver, and comes back as
TDO. The answer of the driver is any `Ioctl`; `vb`, which `testXVC` does not initialise, is a parameter.

* `testXVC`: the test, with its two loops. `returns_iff` says what it is when both end.
* `Filled`: what the first loop has copied; `verify_ends`: which bits the second one compares.
* `mainTests_testOk_iff`: the tests of `main`, whose pattern is rotated from one to the next.
* `testXVC_relied_iff`: for which tests, patterns and values of `vb` the test can be relied on.
-/

namespace Xvc
namespace ZynqMP
namespace SelfTest

open ByteMem BitSerial While

/-! ## The code -/

/-- `BYTE_ALIGN`, of an `unsigned`. -/
def byteAlign (a : Nat) : Nat := (a + 7) % 2 ^ 32 / 8

/-- A C string. -/
structure Pattern where
  text : List UInt8
  noNul : ∀ b ∈ text, b ≠ 0

/-- `pat_nbytes`: `strlen`, as an `unsigned`. -/
def Pattern.nbytes (pattern : Pattern) : Nat := pattern.text.length % 2 ^ 32

inductive Buf where
  | tms
  | tdi
  | tdo
  deriving DecidableEq

/-- The bytes `index .. index + length` of a buffer were written. -/
structure Store where
  buf : Buf
  index : Nat
  length : Nat

/-- The three buffers, and what was written to them. -/
structure Buffers where
  mem : Buf → ByteMem
  stores : List Store

def Buffers.store (b : Buffers) (x : Buf) (index : Nat) (l : List UInt8) : Buffers where
  mem y := if y = x then write (b.mem y) index l else b.mem y
  stores := b.stores ++ [⟨x, index, l.length⟩]

def Buffers.memset (b : Buffers) (x : Buf) (c : UInt8) (n : Nat) : Buffers := b.store x 0 (List.replicate n c)

/-- The variables of the loop that copies the pattern. -/
structure Filling where
  fillNbytes : Nat
  bufs : Buffers

def fillTest (cmdNbytes : Nat) (w : Filling) : Bool := w.fillNbytes < cmdNbytes

/-- `MIN(pat_nbytes, cmd_nbytes)`. -/
def fillStep (pattern : Pattern) (cmdNbytes : Nat) : Nat :=
  if pattern.nbytes < cmdNbytes then pattern.nbytes else cmdNbytes

def fillTurn (pattern : Pattern) (cmdNbytes : Nat) (w : Filling) : Filling :=
  let nbytes := fillStep pattern cmdNbytes
  ⟨(w.fillNbytes + nbytes) % 2 ^ 32, w.bufs.store .tdi w.fillNbytes (pattern.text.take nbytes)⟩

/-- `ioctl`: its result and what is in `tdo_buf` then, for a request and what was in `tdo_buf`. -/
abbrev Ioctl := XilXvcIoc → ByteMem → Int × ByteMem

/-- The `ioctl` has returned. -/
structure Called where
  request : XilXvcIoc
  ret : Int
  bufs : Buffers

/-- From the reset of `tdo_buf` to the `ioctl`. -/
def call (ioctl : Ioctl) (cmdNbits : Nat) (b : Buffers) : Called :=
  let b := b.memset .tdo 0 (byteAlign cmdNbits)
  let request : XilXvcIoc := ⟨2, cmdNbits, b.mem .tms, b.mem .tdi⟩
  let r := ioctl request (b.mem .tdo)
  ⟨request, r.1, { b with mem := fun y => if y = .tdo then r.2 else b.mem y }⟩

/-- The variables of the loop that verifies TDO, and what it has returned. -/
structure Verifying where
  vb : Nat
  ret : Option Int

def verifyTest (cmdNbits : Nat) (v : Verifying) : Bool := v.ret.isNone && v.vb < cmdNbits

def verifyTurn (cmdNbits : Nat) (tdi tdo : ByteMem) (v : Verifying) : Verifying :=
  let nbits := if cmdNbits - v.vb < 8 then cmdNbits - v.vb else 8
  let mask := 0xFF >>> (8 - nbits)
  let index := v.vb / 8
  if (tdi index).toNat &&& mask ≠ (tdo index).toNat &&& mask then { v with ret := some (-1) }
  else { v with vb := v.vb + nbits }

structure Outcome where
  called : Called
  ret : Int

/-- `testXVC`, with at most `fuel` rounds of each loop. -/
def testXVC (ioctl : Ioctl) (cmdNbits : Nat) (pattern : Pattern) (vb : Nat) (b : Buffers) (fuel : Nat) :
    Option Outcome :=
  let cmdNbytes := byteAlign cmdNbits
  match While.run (fillTest cmdNbytes) (fillTurn pattern cmdNbytes) fuel ⟨0, b.memset .tms 0xff cmdNbytes⟩ with
  | none => none
  | some w =>
    let called := call ioctl cmdNbits w.bufs
    if called.ret < 0 then some ⟨called, -1⟩
    else
      match While.run (verifyTest cmdNbits) (verifyTurn cmdNbits (called.bufs.mem .tdi) (called.bufs.mem .tdo)) fuel
          ⟨vb, none⟩ with
      | none => none
      | some v => some ⟨called, v.ret.getD 0⟩

/-- `testXVC` returns. -/
def Returns (ioctl : Ioctl) (cmdNbits : Nat) (pattern : Pattern) (vb : Nat) (b : Buffers) (o : Outcome) : Prop :=
  ∃ fuel, testXVC ioctl cmdNbits pattern vb b fuel = some o

/-- `findMaxBytes`: `main` allocates as many for each buffer. The list ends at its 0. -/
def findMaxBytes (nbitsList : List Nat) : Nat := byteAlign ((nbitsList.takeWhile (· ≠ 0)).foldl max 0)

/-- `rotatePattern`, of a string that is not empty. -/
def rotatePattern (pattern : Pattern) : Pattern where
  text := pattern.text.drop 1 ++ pattern.text.take 1
  noNul b hb := pattern.noNul b ((List.mem_append.mp hb).elim List.mem_of_mem_drop List.mem_of_mem_take)

theorem length_rotatePattern (pattern : Pattern) : (rotatePattern pattern).text.length = pattern.text.length := by
  unfold rotatePattern
  simp only [List.length_append, List.length_drop, List.length_take]
  omega

/-- The tests that `main` runs, as long as they succeed. -/
def mainTests : List Nat → Pattern → List (Nat × Pattern)
  | [], _ => []
  | n :: l, pattern => if n = 0 then [] else (n, pattern) :: mainTests l (rotatePattern pattern)

/-! ## The statement -/

/-- What the test is to do, and to find out. -/
structure Tested (cmdNbits : Nat) (pattern : Pattern) (o : Outcome) : Prop where
  /-- The buffers are only written where the test has its bytes. -/
  inside : ∀ s ∈ o.called.bufs.stores, ∀ i, s.index ≤ i → i < s.index + s.length → i < (cmdNbits + 7) / 8
  /-- TDI is the pattern, repeated. -/
  sent : ∀ i, i < (cmdNbits + 7) / 8 →
    o.called.request.tdiBuf i = pattern.text.getD (i % pattern.text.length) 0
  verdict : o.ret = 0 ↔
    0 ≤ o.called.ret ∧ bits (o.called.bufs.mem .tdo) 0 cmdNbits = bits (o.called.bufs.mem .tdi) 0 cmdNbits

/-- The test returns and is right, for every answer of the driver and all contents of the buffers. -/
def Relied (cmdNbits : Nat) (pattern : Pattern) (vb : Nat) : Prop :=
  ∀ ioctl b, b.stores = [] → ∃ o, Returns ioctl cmdNbits pattern vb b o ∧ Tested cmdNbits pattern o

/-- The test starts to verify at the first bit; its number of bytes does not wrap; and the pattern is long enough, or
fits into it a whole number of times. A pattern of 4 GiB or more has to repeat with the length that is left of its
own. -/
structure TestOk (cmdNbits : Nat) (pattern : Pattern) (vb : Nat) : Prop where
  vb : vb = 0
  nbytes : cmdNbits + 7 < 2 ^ 32
  pattern : byteAlign cmdNbits ≤ pattern.nbytes ∨
    0 < pattern.nbytes ∧ pattern.nbytes ∣ byteAlign cmdNbits ∧
      (2 ^ 32 ≤ pattern.text.length →
        ∀ i, i < byteAlign cmdNbits → pattern.text.getD (i % pattern.nbytes) 0 = pattern.text.getD i 0)

/-! ## The loops -/

variable {ioctl : Ioctl} {cmdNbits vb n m t : Nat} {pattern : Pattern} {b : Buffers} {o : Outcome} {w : Filling}

theorem returns_iff : Returns ioctl cmdNbits pattern vb b o ↔
    ∃ w, While.Ends (fillTest (byteAlign cmdNbits)) (fillTurn pattern (byteAlign cmdNbits))
        ⟨0, b.memset .tms 0xff (byteAlign cmdNbits)⟩ w ∧
      o.called = call ioctl cmdNbits w.bufs ∧
      (o.called.ret < 0 ∧ o.ret = -1 ∨ 0 ≤ o.called.ret ∧
        ∃ v, While.Ends (verifyTest cmdNbits) (verifyTurn cmdNbits (o.called.bufs.mem .tdi) (o.called.bufs.mem .tdo))
          ⟨vb, none⟩ v ∧ o.ret = v.ret.getD 0) := by
  constructor
  · rintro ⟨fuel, h⟩
    unfold testXVC at h
    dsimp only at h
    split at h
    · cases h
    · next w hfill =>
      refine ⟨w, ⟨fuel, hfill⟩, ?_⟩
      split at h
      · next hneg =>
        obtain rfl := Option.some.inj h
        exact ⟨rfl, .inl ⟨hneg, rfl⟩⟩
      · next hnonneg =>
        split at h
        · cases h
        · next v hverify =>
          obtain rfl := Option.some.inj h
          exact ⟨rfl, .inr ⟨Int.not_lt.mp hnonneg, v, ⟨fuel, hverify⟩, rfl⟩⟩
  · rintro ⟨w, ⟨k, hfill⟩, hcalled, h⟩
    obtain ⟨called, ret⟩ := o
    dsimp only at hcalled h
    subst hcalled
    rcases h with ⟨hneg, rfl⟩ | ⟨hnonneg, v, ⟨l, hverify⟩, rfl⟩
    · refine ⟨k, ?_⟩
      unfold testXVC
      simp only [hfill, if_pos hneg]
    · refine ⟨max k l, ?_⟩
      unfold testXVC
      simp only [run_mono (Nat.le_max_left k l) hfill, if_neg (Int.not_lt.mpr hnonneg),
        run_mono (Nat.le_max_right k l) hverify]

/-! ### The pattern -/

/-- After `t` copies of `m` bytes each. -/
structure Filled (b : Buffers) (pattern : Pattern) (n m t : Nat) (w : Filling) : Prop where
  fillNbytes : w.fillNbytes = m * t
  starts : ∀ j, j < t → m * j < n
  stores : w.bufs.stores = b.stores ++ (List.range t).map fun j => ⟨.tdi, m * j, m⟩
  tdi : ∀ i, w.bufs.mem .tdi i = if i < m * t then pattern.text.getD (i % m) 0 else b.mem .tdi i

theorem filled_zero (b : Buffers) (pattern : Pattern) (n m : Nat) : Filled b pattern n m 0 ⟨0, b⟩ where
  fillNbytes := rfl
  starts j hj := absurd hj (Nat.not_lt_zero j)
  stores := (List.append_nil _).symm
  tdi i := (if_neg (Nat.not_lt_zero i)).symm

theorem length_take_fillStep (pattern : Pattern) (n : Nat) :
    (pattern.text.take (fillStep pattern n)).length = fillStep pattern n := by
  have hle : pattern.nbytes ≤ pattern.text.length := Nat.mod_le _ _
  rw [List.length_take]
  unfold fillStep
  split <;> omega

/-- **One round** copies one more. -/
theorem Filled.turn (hn : n ≤ 2 ^ 29) (hf : Filled b pattern n (fillStep pattern n) t w) (ht : fillTest n w = true) :
    Filled b pattern n (fillStep pattern n) (t + 1) (fillTurn pattern n w) := by
  have hlt : w.fillNbytes < n := of_decide_eq_true ht
  have hstep : fillStep pattern n ≤ n := by
    unfold fillStep
    split <;> omega
  have hlen := length_take_fillStep pattern n
  generalize hm : fillStep pattern n = m at hf hstep hlen
  have hfill := hf.fillNbytes
  have hmul : m * (t + 1) = m * t + m := Nat.mul_succ m t
  constructor
  · show (w.fillNbytes + fillStep pattern n) % 2 ^ 32 = m * (t + 1)
    rw [hm, Nat.mod_eq_of_lt (by omega), hfill, hmul]
  · intro j hj
    rcases Nat.lt_succ_iff_lt_or_eq.mp hj with hj | rfl
    · exact hf.starts j hj
    · rw [← hfill]
      exact hlt
  · show w.bufs.stores ++ [⟨.tdi, w.fillNbytes, (pattern.text.take (fillStep pattern n)).length⟩] = _
    rw [hf.stores, hm, hlen, hfill, List.range_succ, List.map_append, List.append_assoc]
    rfl
  · intro i
    show write (w.bufs.mem .tdi) w.fillNbytes (pattern.text.take (fillStep pattern n)) i = _
    rw [hm, write, hlen, hfill, hmul, hf.tdi]
    by_cases hin : m * t ≤ i ∧ i < m * t + m
    · obtain ⟨r, rfl⟩ := Nat.exists_eq_add_of_le hin.1
      have hr : r < m := by omega
      rw [if_pos hin, if_pos hin.2, Nat.add_sub_cancel_left, Nat.mul_add_mod, Nat.mod_eq_of_lt hr]
      simp [List.getD_eq_getElem?_getD, hr]
    · rw [if_neg hin]
      by_cases hi : i < m * t
      · rw [if_pos hi, if_pos (by omega)]
      · rw [if_neg hi, if_neg (by omega)]

/-- The copies go on until they cover the test. -/
theorem fill_ends (b : Buffers) (pattern : Pattern) (hn : n ≤ 2 ^ 29) (hpos : 0 < fillStep pattern n) :
    ∃ w t, While.Ends (fillTest n) (fillTurn pattern n) ⟨0, b⟩ w ∧ Filled b pattern n (fillStep pattern n) t w ∧
      n ≤ fillStep pattern n * t := by
  have keep : ∀ w, (∃ t, Filled b pattern n (fillStep pattern n) t w) → fillTest n w = true →
      ∃ t, Filled b pattern n (fillStep pattern n) t (fillTurn pattern n w) :=
    fun w ⟨t, hf⟩ ht => ⟨t + 1, hf.turn hn ht⟩
  obtain ⟨w, hw⟩ : ∃ w, While.Ends (fillTest n) (fillTurn pattern n) ⟨0, b⟩ w := by
    refine exists_ends (I := fun w => ∃ t, Filled b pattern n (fillStep pattern n) t w) (fun w => n - w.fillNbytes)
      ⟨0, filled_zero b pattern n _⟩ ?_
    rintro w ⟨t, hf⟩ ht
    have hlt : w.fillNbytes < n := of_decide_eq_true ht
    have hf' := hf.turn hn ht
    refine ⟨⟨t + 1, hf'⟩, ?_⟩
    rw [hf'.fillNbytes, Nat.mul_succ, ← hf.fillNbytes]
    omega
  obtain ⟨⟨t, hf⟩, hend⟩ := hw.invariant (I := fun w => ∃ t, Filled b pattern n (fillStep pattern n) t w)
    ⟨0, filled_zero b pattern n _⟩ keep
  have hge : ¬ w.fillNbytes < n := of_decide_eq_false hend
  rw [hf.fillNbytes] at hge
  exact ⟨w, t, hw, hf, Nat.not_lt.mp hge⟩

/-- Copies of nothing go on for ever. -/
theorem fill_not_ends (hn : 0 < n) (h0 : fillStep pattern n = 0) (w : Filling) :
    ¬ While.Ends (fillTest n) (fillTurn pattern n) ⟨0, b⟩ w := by
  refine not_ends (I := fun w => w.fillNbytes = 0) rfl fun w hw => ⟨decide_eq_true (by omega), ?_⟩
  show (w.fillNbytes + fillStep pattern n) % 2 ^ 32 = 0
  rw [hw, h0, Nat.zero_mod]

/-! ### The comparison -/

theorem mod_two_pow_eq_iff (a b k : Nat) : a % 2 ^ k = b % 2 ^ k ↔ ∀ j, j < k → a.testBit j = b.testBit j := by
  constructor
  · intro h j hj
    have hbit := congrArg (Nat.testBit · j) h
    simpa [Nat.testBit_mod_two_pow, hj] using hbit
  · intro h
    refine Nat.eq_of_testBit_eq fun j => ?_
    rw [Nat.testBit_mod_two_pow, Nat.testBit_mod_two_pow]
    by_cases hj : j < k
    · rw [h j hj]
    · simp [hj]

/-- The bytes agree under the mask of the lowest `k` bits. -/
theorem masked_eq_iff (tdi tdo : ByteMem) (index : Nat) {k : Nat} (hk : k ≤ 8) :
    (tdi index).toNat &&& 0xFF >>> (8 - k) = (tdo index).toNat &&& 0xFF >>> (8 - k) ↔
      ∀ j, j < k → bitAt tdi (8 * index + j) = bitAt tdo (8 * index + j) := by
  have hmask : ∀ k, k < 9 → 0xFF >>> (8 - k) = 2 ^ k - 1 := by decide
  rw [hmask k (by omega), Nat.and_two_pow_sub_one_eq_mod, Nat.and_two_pow_sub_one_eq_mod, mod_two_pow_eq_iff]
  refine forall₂_congr fun j hj => ?_
  unfold bitAt
  rw [Nat.mul_add_div (by decide), Nat.mul_add_mod, Nat.div_eq_of_lt (by omega), Nat.mod_eq_of_lt (by omega),
    Nat.add_zero]

/-- The bits that are compared from `vb` on. -/
def Compared (cmdNbits vb k : Nat) : Prop := 8 * (vb / 8) ≤ k ∧ k + vb % 8 < cmdNbits

/-- **One round** compares up to eight bits of one byte. -/
theorem verifyTurn_spec (tdi tdo : ByteMem) (hlt : vb < cmdNbits) :
    ∃ k, 0 < k ∧ k ≤ 8 ∧ vb + k ≤ cmdNbits ∧ (k = 8 ∨ vb + k = cmdNbits) ∧
      ((∀ j, j < k → bitAt tdi (8 * (vb / 8) + j) = bitAt tdo (8 * (vb / 8) + j)) ∧
          verifyTurn cmdNbits tdi tdo ⟨vb, none⟩ = ⟨vb + k, none⟩ ∨
        (∃ j, j < k ∧ bitAt tdi (8 * (vb / 8) + j) ≠ bitAt tdo (8 * (vb / 8) + j)) ∧
          verifyTurn cmdNbits tdi tdo ⟨vb, none⟩ = ⟨vb, some (-1)⟩) := by
  obtain ⟨k, hk⟩ : ∃ k, (if cmdNbits - vb < 8 then cmdNbits - vb else 8) = k := ⟨_, rfl⟩
  have hbounds : 0 < k ∧ k ≤ 8 ∧ vb + k ≤ cmdNbits ∧ (k = 8 ∨ vb + k = cmdNbits) := by
    rw [← hk]
    split <;> omega
  refine ⟨k, hbounds.1, hbounds.2.1, hbounds.2.2.1, hbounds.2.2.2, ?_⟩
  have hiff := masked_eq_iff tdi tdo (vb / 8) hbounds.2.1
  unfold verifyTurn
  dsimp only
  rw [hk]
  by_cases heq : (tdi (vb / 8)).toNat &&& 0xFF >>> (8 - k) = (tdo (vb / 8)).toNat &&& 0xFF >>> (8 - k)
  · rw [if_neg (not_not.mpr heq)]
    exact .inl ⟨hiff.mp heq, rfl⟩
  · rw [if_pos heq]
    rw [hiff] at heq
    simp only [not_forall] at heq
    obtain ⟨j, hj, hne⟩ := heq
    exact .inr ⟨⟨j, hj, hne⟩, rfl⟩

/-- The loop ends, and returns nothing if and only if the bits that it compares agree. -/
theorem verify_ends (cmdNbits : Nat) (tdi tdo : ByteMem) (vb : Nat) :
    ∃ v, While.Ends (verifyTest cmdNbits) (verifyTurn cmdNbits tdi tdo) ⟨vb, none⟩ v ∧
      (v.ret = none ∧ (∀ k, Compared cmdNbits vb k → bitAt tdi k = bitAt tdo k) ∨
        v.ret = some (-1) ∧ ∃ k, Compared cmdNbits vb k ∧ bitAt tdi k ≠ bitAt tdo k) := by
  unfold Compared
  induction hd : cmdNbits - vb using Nat.strongRecOn generalizing vb with
  | ind d ih =>
    by_cases hlt : vb < cmdNbits
    · have ht : verifyTest cmdNbits ⟨vb, none⟩ = true := by simp [verifyTest, hlt]
      obtain ⟨k, hpos, hk8, hle, hlast, ⟨hsame, hturn⟩ | ⟨⟨j, hj, hne⟩, hturn⟩⟩ := verifyTurn_spec tdi tdo hlt
      · obtain ⟨v, hv, hcases⟩ := ih (cmdNbits - (vb + k)) (by omega) (vb + k) rfl
        refine ⟨v, (ends_of_true ht).mpr (hturn ▸ hv), ?_⟩
        rcases hcases with ⟨hret, hall⟩ | ⟨hret, i, ⟨hlo, hhi⟩, hne⟩
        · refine .inl ⟨hret, fun i ⟨hlo, hhi⟩ => ?_⟩
          -- A bit of this byte, or of those behind it.
          by_cases hi : i < 8 * (vb / 8) + k
          · obtain ⟨j, rfl⟩ := Nat.exists_eq_add_of_le hlo
            exact hsame j (by omega)
          · exact hall i ⟨by omega, by omega⟩
        · exact .inr ⟨hret, i, ⟨by omega, by omega⟩, hne⟩
      · have hend : While.Ends (verifyTest cmdNbits) (verifyTurn cmdNbits tdi tdo) ⟨vb, some (-1)⟩ ⟨vb, some (-1)⟩ :=
          (ends_of_false rfl).mpr rfl
        refine ⟨⟨vb, some (-1)⟩, (ends_of_true ht).mpr (hturn ▸ hend), .inr ⟨rfl, _, ?_, hne⟩⟩
        exact ⟨by omega, by omega⟩
    · have ht : verifyTest cmdNbits ⟨vb, none⟩ = false := by simp [verifyTest, hlt]
      refine ⟨⟨vb, none⟩, (ends_of_false ht).mpr rfl, .inl ⟨rfl, fun k ⟨hlo, hhi⟩ => ?_⟩⟩
      omega

/-- The result of a test that comes to verify. -/
theorem ret_eq_zero_iff (hret : Returns ioctl cmdNbits pattern vb b o) : o.ret = 0 ↔ 0 ≤ o.called.ret ∧
    ∀ k, Compared cmdNbits vb k → bitAt (o.called.bufs.mem .tdi) k = bitAt (o.called.bufs.mem .tdo) k := by
  obtain ⟨w, -, -, h⟩ := returns_iff.mp hret
  rcases h with ⟨hneg, hr⟩ | ⟨hnonneg, v, hv, hr⟩
  · rw [hr]
    refine ⟨nofun, fun h => ?_⟩
    omega
  · obtain ⟨v', hv', hcases⟩ := verify_ends cmdNbits (o.called.bufs.mem .tdi) (o.called.bufs.mem .tdo) vb
    obtain rfl := hv.unique hv'
    rw [hr]
    rcases hcases with ⟨hnone, hall⟩ | ⟨hsome, k, hk, hne⟩
    · rw [hnone]
      exact ⟨fun _ => ⟨hnonneg, hall⟩, fun _ => rfl⟩
    · rw [hsome]
      exact ⟨nofun, fun h => absurd (h.2 k hk) hne⟩

theorem bits_eq_iff (m m' : ByteMem) (n : Nat) : bits m 0 n = bits m' 0 n ↔ ∀ k, k < n → bitAt m k = bitAt m' k := by
  unfold bits
  rw [List.map_inj_left]
  simp only [List.mem_range, Nat.mul_zero, Nat.zero_add]

/-! ## The test -/

theorem byteAlign_eq (h : cmdNbits + 7 < 2 ^ 32) : byteAlign cmdNbits = (cmdNbits + 7) / 8 := by
  unfold byteAlign
  rw [Nat.mod_eq_of_lt h]

theorem byteAlign_le (cmdNbits : Nat) : byteAlign cmdNbits ≤ 2 ^ 29 := by
  unfold byteAlign
  omega

/-- What is written, and what is sent. -/
theorem returns_stores (hret : Returns ioctl cmdNbits pattern vb b o)
    (hpos : 0 < fillStep pattern (byteAlign cmdNbits)) :
    ∃ w t, Filled (b.memset .tms 0xff (byteAlign cmdNbits)) pattern (byteAlign cmdNbits)
        (fillStep pattern (byteAlign cmdNbits)) t w ∧
      byteAlign cmdNbits ≤ fillStep pattern (byteAlign cmdNbits) * t ∧
      o.called.bufs.stores = w.bufs.stores ++ [⟨.tdo, 0, byteAlign cmdNbits⟩] ∧
      o.called.request.tdiBuf = w.bufs.mem .tdi := by
  obtain ⟨w, hw, hcalled, -⟩ := returns_iff.mp hret
  obtain ⟨w', t, hw', hf, hle⟩ :=
    fill_ends (b.memset .tms 0xff (byteAlign cmdNbits)) pattern (byteAlign_le cmdNbits) hpos
  obtain rfl := hw.unique hw'
  refine ⟨w, t, hf, hle, ?_, ?_⟩
  · rw [hcalled]
    simp [call, Buffers.memset, Buffers.store]
  · rw [hcalled]
    rfl

/-- The buffer that is compared is the one that was sent. -/
theorem returns_tdi (hret : Returns ioctl cmdNbits pattern vb b o) :
    o.called.bufs.mem .tdi = o.called.request.tdiBuf := by
  obtain ⟨w, -, hcalled, -⟩ := returns_iff.mp hret
  rw [hcalled]
  rfl

theorem exists_returns (ioctl : Ioctl) (vb : Nat) (b : Buffers) (hpos : 0 < fillStep pattern (byteAlign cmdNbits)) :
    ∃ o, Returns ioctl cmdNbits pattern vb b o := by
  obtain ⟨w, t, hw, -, -⟩ := fill_ends (b.memset .tms 0xff (byteAlign cmdNbits)) pattern (byteAlign_le cmdNbits) hpos
  generalize hcalled : call ioctl cmdNbits w.bufs = called
  by_cases hneg : called.ret < 0
  · exact ⟨⟨called, -1⟩, returns_iff.mpr ⟨w, hw, hcalled.symm, .inl ⟨hneg, rfl⟩⟩⟩
  · obtain ⟨v, hv, -⟩ := verify_ends cmdNbits (called.bufs.mem .tdi) (called.bufs.mem .tdo) vb
    exact ⟨⟨called, v.ret.getD 0⟩,
      returns_iff.mpr ⟨w, hw, hcalled.symm, .inr ⟨Int.not_lt.mp hneg, v, hv, rfl⟩⟩⟩

/-- The step of the copy, for a test that may be relied on. -/
theorem TestOk.step (h : TestOk cmdNbits pattern vb) (hpos : 1 ≤ cmdNbits) :
    0 < fillStep pattern (byteAlign cmdNbits) ∧ fillStep pattern (byteAlign cmdNbits) ∣ byteAlign cmdNbits ∧
      ∀ i, i < byteAlign cmdNbits → pattern.text.getD (i % fillStep pattern (byteAlign cmdNbits)) 0 =
        pattern.text.getD (i % pattern.text.length) 0 := by
  have hn : 0 < byteAlign cmdNbits := by
    rw [byteAlign_eq h.nbytes]
    omega
  have hle : byteAlign cmdNbits ≤ 2 ^ 29 := byteAlign_le cmdNbits
  have hmod : pattern.nbytes ≤ pattern.text.length := Nat.mod_le _ _
  unfold fillStep
  rcases h.pattern with hlong | ⟨hp, hdvd, hrep⟩
  · rw [if_neg (Nat.not_lt.mpr hlong)]
    refine ⟨hn, Nat.dvd_refl _, fun i hi => ?_⟩
    rw [Nat.mod_eq_of_lt hi, Nat.mod_eq_of_lt (by omega)]
  · have hstep :
        (if pattern.nbytes < byteAlign cmdNbits then pattern.nbytes else byteAlign cmdNbits) = pattern.nbytes := by
      split
      · rfl
      · exact Nat.le_antisymm (Nat.not_lt.mp ‹_›) (Nat.le_of_dvd hn hdvd)
    rw [hstep]
    refine ⟨hp, hdvd, fun i hi => ?_⟩
    by_cases hbig : 2 ^ 32 ≤ pattern.text.length
    · rw [hrep hbig i hi, Nat.mod_eq_of_lt (by omega)]
    · rw [show pattern.nbytes = pattern.text.length from Nat.mod_eq_of_lt (Nat.not_le.mp hbig)]

theorem compared_zero (cmdNbits k : Nat) : Compared cmdNbits 0 k ↔ k < cmdNbits := by
  unfold Compared
  omega

theorem TestOk.tested (h : TestOk cmdNbits pattern vb) (hpos : 1 ≤ cmdNbits) (hb : b.stores = [])
    (hret : Returns ioctl cmdNbits pattern vb b o) : Tested cmdNbits pattern o := by
  obtain ⟨hstep, hdvd, hrep⟩ := h.step hpos
  obtain ⟨w, t, hf, hle, hstores, hsent⟩ := returns_stores hret hstep
  have hn := byteAlign_eq h.nbytes
  constructor
  · intro s hs i hlo hhi
    rw [hstores, hf.stores] at hs
    rw [← hn]
    simp only [Buffers.memset, Buffers.store, hb, List.nil_append, List.length_replicate, List.mem_append,
      List.mem_singleton, List.mem_map, List.mem_range] at hs
    rcases hs with (rfl | ⟨j, hj, rfl⟩) | rfl
    · exact Nat.lt_of_lt_of_eq hhi (Nat.zero_add _)
    · -- A copy that begins inside ends inside.
      obtain ⟨q, hq⟩ := hdvd
      have hjq : j < q := Nat.lt_of_mul_lt_mul_left (Nat.lt_of_lt_of_eq (hf.starts j hj) hq)
      have hend := Nat.mul_le_mul_left (fillStep pattern (byteAlign cmdNbits)) hjq
      rw [Nat.mul_succ, ← hq] at hend
      exact Nat.lt_of_lt_of_le hhi hend
    · exact Nat.lt_of_lt_of_eq hhi (Nat.zero_add _)
  · intro i hi
    rw [← hn] at hi
    rw [hsent, hf.tdi, if_pos (Nat.lt_of_lt_of_le hi hle)]
    exact hrep i hi
  · rw [ret_eq_zero_iff hret, h.vb, bits_eq_iff]
    simp only [compared_zero]
    exact and_congr_right fun _ => forall₂_congr fun _ _ => eq_comm

/-! ### The tests of `main` -/

theorem mem_mainTests {lens : List Nat} {x : Nat × Pattern} (h : x ∈ mainTests lens pattern) :
    x.1 ∈ lens.takeWhile (· ≠ 0) ∧ x.2.text.length = pattern.text.length := by
  induction lens generalizing pattern with
  | nil => cases h
  | cons n lens ih =>
    unfold mainTests at h
    split at h
    · cases h
    · next hn =>
      rw [List.takeWhile_cons_of_pos (by simpa using hn)]
      rcases List.mem_cons.mp h with rfl | h
      · exact ⟨List.mem_cons_self, rfl⟩
      · obtain ⟨hmem, hlen⟩ := ih h
        exact ⟨List.mem_cons_of_mem _ hmem, hlen.trans (length_rotatePattern pattern)⟩

theorem le_foldl_max (l : List Nat) (a : Nat) : a ≤ l.foldl max a ∧ ∀ n ∈ l, n ≤ l.foldl max a := by
  induction l generalizing a with
  | nil => exact ⟨Nat.le_refl a, nofun⟩
  | cons n l ih =>
    obtain ⟨h1, h2⟩ := ih (max a n)
    refine ⟨Nat.le_trans (Nat.le_max_left a n) h1, fun k hk => ?_⟩
    rcases List.mem_cons.mp hk with rfl | hk
    · exact Nat.le_trans (Nat.le_max_right a k) h1
    · exact h2 k hk

/-- Every test of `main` fits the buffers that it allocates, and is right, with `vb` at 0, if and only if the bytes of
the test are at most those of the pattern, or a multiple of them. -/
theorem mainTests_testOk_iff {lens : List Nat} {x : Nat × Pattern} (h : x ∈ mainTests lens pattern)
    (hmax : (lens.takeWhile (· ≠ 0)).foldl max 0 + 7 < 2 ^ 32) (hne : pattern.text ≠ [])
    (hlen : pattern.text.length < 2 ^ 32) :
    (x.1 + 7) / 8 ≤ findMaxBytes lens ∧
      (TestOk x.1 x.2 0 ↔ (x.1 + 7) / 8 ≤ pattern.text.length ∨ pattern.text.length ∣ (x.1 + 7) / 8) := by
  obtain ⟨hmem, hsame⟩ := mem_mainTests h
  have hle := (le_foldl_max _ 0).2 _ hmem
  have hn : byteAlign x.1 = (x.1 + 7) / 8 := byteAlign_eq (by omega)
  have hp : x.2.nbytes = pattern.text.length := by
    unfold Pattern.nbytes
    rw [hsame, Nat.mod_eq_of_lt hlen]
  have hpos : 0 < pattern.text.length := List.length_pos_iff.mpr hne
  constructor
  · unfold findMaxBytes
    rw [byteAlign_eq hmax]
    exact Nat.div_le_div_right (by omega)
  · rw [← hn, ← hp]
    constructor
    · exact fun hok => hok.pattern.imp_right fun h => h.2.1
    · intro hfit
      refine ⟨rfl, by omega, hfit.imp_right fun hdvd => ⟨by omega, hdvd, fun hbig => ?_⟩⟩
      omega

/-! ### The other direction -/

/-- Bit `k` of the vector is inverted. -/
def invertBit (m : ByteMem) (k : Nat) : ByteMem := fun i => if i = k / 8 then m i ^^^ UInt8.ofNat (2 ^ (k % 8)) else m i

theorem bitAt_invertBit (m : ByteMem) (k i : Nat) : bitAt (invertBit m k) i = (bitAt m i ^^ decide (i = k)) := by
  unfold bitAt invertBit
  by_cases hbyte : i / 8 = k / 8
  · have hpow : 2 ^ (k % 8) < 2 ^ 8 := Nat.pow_lt_pow_right (by decide) (Nat.mod_lt k (by decide))
    rw [if_pos hbyte, UInt8.toNat_xor, UInt8.toNat_ofNat_of_lt' hpow, Nat.testBit_xor, Nat.testBit_two_pow]
    congr 2
    exact propext ⟨fun h => by omega, fun h => by omega⟩
  · rw [if_neg hbyte]
    have hne : i ≠ k := fun h => hbyte (by rw [h])
    simp [hne]

/-- A bit that is not compared when the loop does not start at 0. -/
theorem exists_not_compared (hpos : 1 ≤ cmdNbits) (hvb : vb ≠ 0) : ∃ k, k < cmdNbits ∧ ¬ Compared cmdNbits vb k := by
  unfold Compared
  by_cases h8 : vb < 8
  · exact ⟨cmdNbits - 1, by omega, by omega⟩
  · exact ⟨0, by omega, by omega⟩

theorem Relied.vb_eq (h : Relied cmdNbits pattern vb) (hpos : 1 ≤ cmdNbits) : vb = 0 := by
  by_contra hvb
  obtain ⟨k, hk, hnot⟩ := exists_not_compared hpos hvb
  -- A device that gets this one bit wrong.
  obtain ⟨o, hret, ht⟩ := h (fun arg _ => (0, invertBit arg.tdiBuf k)) ⟨fun _ _ => 0, []⟩ rfl
  have htdi := returns_tdi hret
  obtain ⟨w, -, hcalled, -⟩ := returns_iff.mp hret
  have htdo : o.called.bufs.mem .tdo = invertBit o.called.request.tdiBuf k := by
    rw [hcalled]
    rfl
  have hzero : o.called.ret = 0 := by
    rw [hcalled]
    rfl
  have hpass : o.ret = 0 := by
    refine (ret_eq_zero_iff hret).mpr ⟨Int.le_of_eq hzero.symm, fun i hi => ?_⟩
    have hne : i ≠ k := fun heq => hnot (heq ▸ hi)
    rw [htdi, htdo, bitAt_invertBit]
    simp [hne]
  have hbit := (bits_eq_iff _ _ _).mp (ht.verdict.mp hpass).2 k hk
  rw [htdi, htdo, bitAt_invertBit] at hbit
  simp at hbit

theorem Relied.nbytes_lt (h : Relied cmdNbits pattern vb) (hpos : 1 ≤ cmdNbits) (hmax : cmdNbits < 2 ^ 32) :
    cmdNbits + 7 < 2 ^ 32 := by
  by_contra hge
  have hn : byteAlign cmdNbits = 0 := by
    unfold byteAlign
    omega
  -- Nothing is copied, so whatever was in the buffer is sent.
  obtain ⟨o, hret, ht⟩ := h (fun _ tdo => (0, tdo)) ⟨fun _ _ => pattern.text.getD 0 0 + 1, []⟩ rfl
  obtain ⟨w, hw, hcalled, -⟩ := returns_iff.mp hret
  rw [hn] at hw
  obtain rfl := (ends_of_false rfl).mp hw
  have hsent := ht.sent 0 (by omega)
  rw [hcalled, Nat.zero_mod] at hsent
  have hcontent : (call (fun _ tdo => (0, tdo)) cmdNbits
      (Buffers.memset ⟨fun _ _ => pattern.text.getD 0 0 + 1, []⟩ .tms 0xff 0)).request.tdiBuf 0 =
        pattern.text.getD 0 0 + 1 := rfl
  rw [hcontent] at hsent
  simp at hsent

theorem Relied.pattern_fits (h : Relied cmdNbits pattern vb) (hpos : 1 ≤ cmdNbits) (hmax : cmdNbits < 2 ^ 32) :
    byteAlign cmdNbits ≤ pattern.nbytes ∨ 0 < pattern.nbytes ∧ pattern.nbytes ∣ byteAlign cmdNbits ∧
      (2 ^ 32 ≤ pattern.text.length →
        ∀ i, i < byteAlign cmdNbits → pattern.text.getD (i % pattern.nbytes) 0 = pattern.text.getD i 0) := by
  have hn := byteAlign_eq (h.nbytes_lt hpos hmax)
  have hn0 : 0 < byteAlign cmdNbits := by omega
  obtain ⟨o, hret, ht⟩ := h (fun _ tdo => (0, tdo)) ⟨fun _ _ => 0, []⟩ rfl
  by_cases hlong : byteAlign cmdNbits ≤ pattern.nbytes
  · exact .inl hlong
  have hstep : fillStep pattern (byteAlign cmdNbits) = pattern.nbytes := if_pos (Nat.not_le.mp hlong)
  have hp : 0 < pattern.nbytes := by
    by_contra h0
    obtain ⟨w, hw, -⟩ := returns_iff.mp hret
    exact fill_not_ends hn0 (hstep.trans (Nat.eq_zero_of_not_pos h0)) w hw
  obtain ⟨w, t, hf, hle, hstores, hsent⟩ := returns_stores hret (by rw [hstep]; exact hp)
  rw [hstep] at hf hle
  -- The last copy ends where the test does.
  obtain ⟨t, rfl⟩ : ∃ k, t = k + 1 := by
    cases t with
    | zero => omega
    | succ k => exact ⟨k, rfl⟩
  have hlast : pattern.nbytes * (t + 1) = byteAlign cmdNbits := by
    refine Nat.le_antisymm ?_ hle
    have hmem : (⟨.tdi, pattern.nbytes * t, pattern.nbytes⟩ : Store) ∈ o.called.bufs.stores := by
      rw [hstores, hf.stores]
      refine List.mem_append_left _ (List.mem_append_right _ ?_)
      exact List.mem_map.mpr ⟨t, List.mem_range.mpr (Nat.lt_succ_self t), rfl⟩
    have hin := ht.inside _ hmem (pattern.nbytes * t + (pattern.nbytes - 1)) (Nat.le_add_right _ _)
      (Nat.add_lt_add_left (Nat.sub_lt hp Nat.one_pos) _)
    rw [Nat.mul_succ]
    omega
  refine .inr ⟨hp, ⟨t + 1, hlast.symm⟩, fun hbig i hi => ?_⟩
  have hbyte := ht.sent i (hn ▸ hi)
  rw [hsent, hf.tdi, if_pos (Nat.lt_of_lt_of_eq hi hlast.symm)] at hbyte
  have hsmall := byteAlign_le cmdNbits
  rwa [Nat.mod_eq_of_lt (show i < pattern.text.length by omega)] at hbyte

/-- **The self-test.** For any number of bits and any pattern, and whatever `vb` holds: with every answer of the
driver and all contents of the buffers the test is right if and only if `TestOk`. -/
theorem testXVC_relied_iff (cmdNbits : Nat) (pattern : Pattern) (vb : Nat) (hpos : 1 ≤ cmdNbits)
    (hmax : cmdNbits < 2 ^ 32) : Relied cmdNbits pattern vb ↔ TestOk cmdNbits pattern vb := by
  constructor
  · exact fun h => ⟨h.vb_eq hpos, h.nbytes_lt hpos hmax, h.pattern_fits hpos hmax⟩
  · intro h ioctl b hb
    obtain ⟨o, hret⟩ := exists_returns ioctl vb b (h.step hpos).1
    exact ⟨o, hret, h.tested hpos hb hret⟩

/-- The pattern of `main`, before it is rotated. -/
def mainPattern : Pattern where
  text := "abcdefgHIJKLMOP".toList.map fun c => UInt8.ofNat c.toNat
  noNul := List.forall_iff_forall_mem.mp (by decide)

theorem testXVC_relied_iff_32 : Relied 32 mainPattern 0 :=
  (testXVC_relied_iff 32 mainPattern 0 (by decide) (by decide)).mpr ⟨rfl, by decide, .inl (by decide)⟩

/-- Where `vb` holds 32 already, nothing is compared: a device that answers with zeros passes. -/
theorem testXVC_compares_nothing :
    ¬ ∀ (cmdNbits : Nat) (pattern : Pattern) (vb : Nat), 1 ≤ cmdNbits → cmdNbits < 2 ^ 32 → pattern.text ≠ [] →
      ∀ ioctl b, b.stores = [] → ∃ o, Returns ioctl cmdNbits pattern vb b o ∧ Tested cmdNbits pattern o := by
  intro hall
  obtain ⟨o, hret, ht⟩ := hall 32 mainPattern 32 (by decide) (by decide) (by decide) (fun _ _ => (0, fun _ => 0))
    ⟨fun _ _ => 0, []⟩ rfl
  obtain ⟨w, -, hcalled, -⟩ := returns_iff.mp hret
  have htdo : o.called.bufs.mem .tdo = fun _ => 0 := by
    rw [hcalled]
    rfl
  have hzero : o.called.ret = 0 := by
    rw [hcalled]
    rfl
  have hpass : o.ret = 0 := by
    refine (ret_eq_zero_iff hret).mpr ⟨Int.le_of_eq hzero.symm, fun k hk => ?_⟩
    unfold Compared at hk
    omega
  have hbit := (bits_eq_iff _ _ _).mp (ht.verdict.mp hpass).2 0 (by decide)
  rw [returns_tdi hret, htdo, bitAt, bitAt, ht.sent 0 (by decide)] at hbit
  exact absurd hbit (by decide)

end SelfTest
end ZynqMP
end Xvc
