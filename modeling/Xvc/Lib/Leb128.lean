import Mathlib.Algebra.BigOperators.Ring.Finset
import Mathlib.Algebra.Ring.Int.Defs
import Mathlib.Algebra.Ring.Nat
import Mathlib.Data.Nat.Bitwise
import Mathlib.Tactic.Ring
import Xvc.Lib.Stream

/-!
# LEB128 numbers in a byte stream

An unsigned LEB128 number is a sequence of bytes of seven bits each, the lowest first; every byte
but the last has its high bit set. `read` is a reader that may be given a truncated number: past
the end of its input it sees a zero byte, so it always returns, and the number of bytes it claims
to have used then exceeds the input by one. That excess is how a caller notices the truncation.

* `IsField f`: `f` is one whole number. `read_field`: the reader uses exactly its bytes.
* `read_truncated`: on a proper prefix `q` of a field the reader claims `q.length + 1` bytes, and
  the number it returns has only bits that the whole number has.
* `reads`: several numbers in a row. `reads_truncated` is what is left of them when the input is cut.
* `encode k v`: the encoding of `v` in at most `k` groups.
* `payload f`: the sum that `f` stands for, of any length. `read_eq_payload`: what the reader returns, as
  long as its `shifts` are below the width.
* `value_encode`: reading what was encoded. `IsField.eq_of_prefix`: no whole number begins with another one.
-/

namespace Leb128

open Stream

/-- The accumulator `v` of `w` bits with the group of byte `b` at bit `i`. A shift amount past the
width is taken modulo the width, as shift instructions do. -/
def addGroup (w v i b : Nat) : Nat := v ||| ((b &&& 0x7f) <<< (i % w)) % 2 ^ w

/-- The value read from `l` on top of `v` (first group at bit `i`), and the number of bytes used;
past the end of `l` a zero byte is read. -/
def read (w : Nat) : List UInt8 → Nat → Nat → Nat × Nat
  | [], _, v => (v, 1)
  | b :: l, i, v =>
    if b.toNat &&& 0x80 = 0 then (addGroup w v i b.toNat, 1)
    else
      let r := read w l (i + 7) (addGroup w v i b.toNat)
      (r.1, r.2 + 1)

/-- `f` is one whole number: continuation bytes, then a final byte. -/
def IsField : List UInt8 → Prop
  | [] => False
  | [b] => b.toNat &&& 0x80 = 0
  | b :: c :: l => b.toNat &&& 0x80 ≠ 0 ∧ IsField (c :: l)

instance : DecidablePred IsField := fun f => go f
where
  go : (f : List UInt8) → Decidable (IsField f)
    | [] => .isFalse id
    | [b] => inferInstanceAs (Decidable (b.toNat &&& 0x80 = 0))
    | b :: c :: l => @instDecidableAnd _ _ (inferInstanceAs (Decidable (b.toNat &&& 0x80 ≠ 0))) (go (c :: l))

/-- The encoding of `v`, in at most `k` groups. -/
def encode : Nat → Nat → List UInt8
  | 0, _ => []
  | k + 1, v =>
    if v >>> 7 = 0 then [UInt8.ofNat (v &&& 0x7f)]
    else UInt8.ofNat ((v &&& 0x7f) ||| 0x80) :: encode k (v >>> 7)

variable {w i v : Nat} {l f q rest : List UInt8}

/-- One round of writing a number: its low group, and what is written behind it. -/
theorem encode_succ (k v : Nat) : ∃ b tl,
    (if 0x80 ≤ v then UInt8.ofNat ((v &&& 0x7f) ||| 0x80) else UInt8.ofNat (v &&& 0x7f)) = b ∧
      encode (k + 1) v = b :: tl ∧ tl = if v >>> 7 ≠ 0 then encode k (v >>> 7) else [] := by
  refine ⟨_, _, rfl, ?_, rfl⟩
  have hiff : 0x80 ≤ v ↔ v >>> 7 ≠ 0 := by
    rw [Nat.shiftRight_eq_div_pow, Nat.ne_zero_iff_zero_lt, Nat.div_pos_iff]; omega
  by_cases hv : v >>> 7 = 0
  · have hsmall : ¬ 0x80 ≤ v := fun hle => hiff.mp hle hv
    simp [encode, hv, hsmall]
  · simp [encode, hv, hiff.mpr hv]

theorem length_encode_le (k v : Nat) : (encode k v).length ≤ k := by
  induction k generalizing v with
  | zero => exact Nat.le_refl 0
  | succ k ih =>
    rw [encode]
    split
    · rw [List.length_singleton]; omega
    · rw [List.length_cons]
      exact Nat.succ_le_succ (ih _)

theorem read_used (w : Nat) (l : List UInt8) (i v : Nat) :
    1 ≤ (read w l i v).2 ∧ (read w l i v).2 ≤ l.length + 1 := by
  induction l generalizing i v with
  | nil => simp [read]
  | cons b l ih =>
    unfold read
    split
    · simp
    · have := ih (i + 7) (addGroup w v i b.toNat)
      simp only [List.length_cons]
      omega

/-- The reader only ever adds bits to the accumulator. -/
theorem read_bits (w : Nat) (l : List UInt8) (i v : Nat) : ∃ x, (read w l i v).1 = v ||| x := by
  induction l generalizing i v with
  | nil => exact ⟨0, by simp [read]⟩
  | cons b l ih =>
    unfold read
    split
    · exact ⟨_, rfl⟩
    · obtain ⟨x, hx⟩ := ih (i + 7) (addGroup w v i b.toNat)
      refine ⟨((b.toNat &&& 0x7f) <<< (i % w)) % 2 ^ w ||| x, ?_⟩
      simp only [hx]
      rw [addGroup, Nat.or_assoc]

theorem ne_nil_of_isField (h : IsField f) : f ≠ [] := by
  rintro rfl; exact h

/-- A whole number in front of anything is read exactly. -/
theorem read_field (hf : IsField f) (w i v : Nat) (rest : List UInt8) :
    read w (f ++ rest) i v = ((read w f i v).1, f.length) := by
  induction f generalizing i v with
  | nil => exact hf.elim
  | cons b f ih =>
    cases f with
    | nil =>
      have hb : b.toNat &&& 0x80 = 0 := hf
      simp [read, hb]
    | cons c f =>
      obtain ⟨hb, hf⟩ := hf
      have h := ih hf (i + 7) (addGroup w v i b.toNat)
      simp only [List.cons_append] at h ⊢
      rw [read, if_neg hb, h]
      conv => rhs; rw [read, if_neg hb]
      simp

/-- A proper prefix of a number: the reader runs one byte past it, and every bit of what it
returns is a bit of the whole number. -/
theorem read_truncated (hf : IsField f) (h : Proper q f) (w i v : Nat) :
    (read w q i v).2 = q.length + 1 ∧ ∃ x, (read w f i v).1 = (read w q i v).1 ||| x := by
  induction q generalizing f i v with
  | nil =>
    obtain ⟨x, hx⟩ := read_bits w f i v
    exact ⟨rfl, x, by simpa [read] using hx⟩
  | cons b q ih =>
    cases f with
    | nil => exact hf.elim
    | cons b' f =>
      obtain ⟨rfl, htl⟩ := List.cons_prefix_cons.mp h.1
      have hne : q ≠ f := fun he => h.2 (by rw [he])
      cases f with
      | nil => exact absurd (List.prefix_nil.mp htl) hne
      | cons c f =>
        obtain ⟨hb, hf⟩ := hf
        obtain ⟨h1, x, h2⟩ := ih hf ⟨htl, hne⟩ (i + 7) (addGroup w v i b.toNat)
        simp only [read, if_neg hb]
        exact ⟨by simp [h1], x, h2⟩

theorem addGroup_lt (hv : v < 2 ^ w) (i b : Nat) : addGroup w v i b < 2 ^ w :=
  Nat.or_lt_two_pow hv (Nat.mod_lt _ (Nat.two_pow_pos w))

/-- The value always fits the accumulator. -/
theorem read_lt (hv : v < 2 ^ w) (l : List UInt8) (i : Nat) : (read w l i v).1 < 2 ^ w := by
  induction l generalizing i v with
  | nil => exact hv
  | cons b l ih =>
    unfold read
    split
    · exact addGroup_lt hv i b.toNat
    · exact ih (addGroup_lt hv i b.toNat) (i + 7)

/-! ## Several numbers in a row -/

/-- The value of a whole number. -/
def value (w : Nat) (f : List UInt8) : Nat := (read w f 0 0).1

/-- `k` numbers from `l`: their values, and the number of bytes used. -/
def reads (w : Nat) : Nat → List UInt8 → List Nat × Nat
  | 0, _ => ([], 0)
  | k + 1, l =>
    let r := read w l 0 0
    let rs := reads w k (l.drop r.2)
    (r.1 :: rs.1, r.2 + rs.2)

theorem reads_nil (w k : Nat) : reads w k [] = (List.replicate k 0, k) := by
  induction k with
  | zero => rfl
  | succ k ih => simp [reads, read, ih, List.replicate_succ, Nat.add_comm]

variable {fs : List (List UInt8)}

/-- Whole numbers in front of anything are read exactly. -/
theorem reads_fields (h : ∀ f ∈ fs, IsField f) (w : Nat) (rest : List UInt8) :
    reads w fs.length (fs.flatten ++ rest) = (fs.map (value w), fs.flatten.length) := by
  induction fs with
  | nil => rfl
  | cons f fs ih =>
    have hf := read_field (h f (by simp)) w 0 0 (fs.flatten ++ rest)
    have ih := ih fun g hg => h g (by simp [hg])
    simp only [List.length_cons, List.flatten_cons, List.append_assoc, reads, hf, List.drop_left, ih]
    simp [value]

/-- The values `vs` with one of them cut short and nothing read of those after it. -/
inductive Cut : List Nat → List Nat → Prop
  /-- Only bits of the number read in part are there. -/
  | here {v x : Nat} (vs : List Nat) : Cut ((v ||| x) :: vs) (v :: List.replicate vs.length 0)
  | there {vs us : List Nat} (v : Nat) (h : Cut vs us) : Cut (v :: vs) (v :: us)

theorem length_le_flatten (h : ∀ f ∈ fs, IsField f) : fs.length ≤ fs.flatten.length := by
  induction fs with
  | nil => simp
  | cons f fs ih =>
    have h1 := ih fun g hg => h g (by simp [hg])
    have h2 := List.length_pos_iff.mpr (ne_nil_of_isField (h f (by simp)))
    simp only [List.length_cons, List.flatten_cons, List.length_append]
    omega

/-- The cut is in the first number, or behind it. -/
theorem Cut.cons_cases {v : Nat} {vs us : List Nat} (h : Cut (v :: vs) us) :
    (∃ a x, v = a ||| x ∧ us = a :: List.replicate vs.length 0) ∨ ∃ us', us = v :: us' ∧ Cut vs us' := by
  generalize hl : v :: vs = l at h
  cases h with
  | here ws =>
    obtain ⟨rfl, rfl⟩ := List.cons.inj hl
    exact .inl ⟨_, _, rfl, rfl⟩
  | there w h =>
    obtain ⟨rfl, rfl⟩ := List.cons.inj hl
    exact .inr ⟨_, rfl, h⟩

theorem not_cut_nil {us : List Nat} : ¬ Cut [] us := nofun

/-- **Truncation.** On a proper prefix of `k` numbers the reader runs past the end, but not past the
end of the numbers, and reads of them what is there. -/
theorem reads_truncated (h : ∀ f ∈ fs, IsField f) (hq : Proper q fs.flatten) (w : Nat) :
    q.length < (reads w fs.length q).2 ∧ (reads w fs.length q).2 ≤ fs.flatten.length ∧
      Cut (fs.map (value w)) (reads w fs.length q).1 := by
  induction fs generalizing q with
  | nil => exact absurd hq not_proper_nil
  | cons f fs ih =>
    have hf := h f (by simp)
    have hfs : ∀ g ∈ fs, IsField g := fun g hg => h g (by simp [hg])
    rw [List.flatten_cons] at hq
    rcases hq.append_cases with hpre | ⟨q', rfl, hq'⟩
    · -- Cut in the first number: the others are read from nothing.
      obtain ⟨h1, x, h2⟩ := read_truncated hf hpre w 0 0
      have hlen := length_le_flatten hfs
      have hlt := hpre.length_lt
      have hdrop : q.drop (read w q 0 0).2 = [] := List.drop_eq_nil_of_le (by omega)
      simp only [List.length_cons, reads, hdrop, reads_nil, List.map_cons, List.flatten_cons,
        List.length_append]
      refine ⟨by omega, by omega, ?_⟩
      have hcut := Cut.here (v := (read w q 0 0).1) (x := x) (fs.map (value w))
      rw [← h2, List.length_map] at hcut
      exact hcut
    · obtain ⟨h1, h2, h3⟩ := ih hfs hq'
      have hr := read_field hf w 0 0 q'
      simp only [List.length_cons, reads, hr, List.drop_left, List.length_append, List.flatten_cons]
      exact ⟨by omega, by omega, .there _ h3⟩

/-! ## The sum -/

/-- What the bytes of `f` say: seven bits each, the lowest first. -/
def payload (f : List UInt8) : Nat := ∑ i ∈ Finset.range f.length, (f.getD i 0).toNat % 128 * 2 ^ (7 * i)

/-- The shift amounts of `read`. -/
def shifts : List UInt8 → Nat → List Nat
  | [], i => [i]
  | b :: l, i => i :: if b.toNat &&& 0x80 = 0 then [] else shifts l (i + 7)

theorem payload_cons (b : UInt8) (f : List UInt8) : payload (b :: f) = b.toNat % 128 + 2 ^ 7 * payload f := by
  unfold payload
  rw [List.length_cons, Finset.sum_range_succ', Finset.mul_sum, Nat.add_comm]
  congr 1
  · simp
  · refine Finset.sum_congr rfl fun i _ => ?_
    rw [List.getD_cons_succ, Nat.mul_add, Nat.pow_add]
    ring

/-- A group above the bits that are there is added. -/
theorem addGroup_eq_add (hv : v < 2 ^ i) (hi : i < w) (b : Nat) :
    addGroup w v i b = (v + b % 128 * 2 ^ i) % 2 ^ w := by
  have hor : v ||| (b % 128) <<< i = v + b % 128 * 2 ^ i := by
    rw [Nat.or_comm, ← Nat.shiftLeft_add_eq_or_of_lt hv, Nat.shiftLeft_eq, Nat.add_comm]
  have hvw : v % 2 ^ w = v := Nat.mod_eq_of_lt (Nat.lt_trans hv (Nat.pow_lt_pow_right (by decide) hi))
  have hmask : b &&& 0x7f = b % 128 := Nat.and_two_pow_sub_one_eq_mod b 7
  rw [← hor, Nat.or_mod_two_pow, hvw, addGroup, Nat.mod_eq_of_lt hi, hmask]

/-- **The value.** While the last group still starts below the width, the reader returns the sum modulo `2 ^ w`. -/
theorem read_eq_payload (hf : IsField f) (hv : v < 2 ^ i) (hi : i + 7 * (f.length - 1) < w) :
    (read w f i v).1 = (v + payload f * 2 ^ i) % 2 ^ w := by
  induction f generalizing i v with
  | nil => exact hf.elim
  | cons b f ih =>
    rw [payload_cons]
    cases f with
    | nil =>
      have hb : b.toNat &&& 0x80 = 0 := hf
      rw [read, if_pos hb, addGroup_eq_add hv (by omega)]
      simp [payload]
    | cons c f =>
      obtain ⟨hb, hf⟩ := hf
      simp only [List.length_cons, Nat.add_sub_cancel] at hi ih
      -- Nothing is cut off before the last group.
      have hgroup : v + b.toNat % 128 * 2 ^ i < 2 ^ (i + 7) := by
        have hb128 : b.toNat % 128 + 1 ≤ 128 := Nat.mod_lt _ (by decide)
        calc v + b.toNat % 128 * 2 ^ i < (b.toNat % 128 + 1) * 2 ^ i := by rw [Nat.succ_mul]; omega
          _ ≤ 128 * 2 ^ i := Nat.mul_le_mul_right _ hb128
          _ = 2 ^ (i + 7) := by rw [Nat.pow_add, Nat.mul_comm]
      have hw : 2 ^ (i + 7) ≤ 2 ^ w := Nat.pow_le_pow_right (by decide) (by omega)
      have hadd : addGroup w v i b.toNat = v + b.toNat % 128 * 2 ^ i := by
        rw [addGroup_eq_add hv (by omega), Nat.mod_eq_of_lt (by omega)]
      rw [read, if_neg hb, hadd, ih hf hgroup (by omega), Nat.pow_add]
      congr 1
      ring

/-- A whole number has one shift a byte. -/
theorem shifts_field (hf : IsField f) (i : Nat) (rest : List UInt8) :
    shifts (f ++ rest) i = (List.range f.length).map fun j => i + 7 * j := by
  induction f generalizing i with
  | nil => exact hf.elim
  | cons b f ih =>
    rw [List.cons_append, shifts, List.length_cons, List.range_succ_eq_map, List.map_cons, List.map_map]
    cases f with
    | nil =>
      have hb : b.toNat &&& 0x80 = 0 := hf
      rw [if_pos hb]
      rfl
    | cons c f =>
      obtain ⟨hb, hf⟩ := hf
      rw [if_neg hb, ih hf]
      congr 2
      funext j
      show i + 7 + 7 * j = i + 7 * (j + 1)
      omega

/-- Its shifts are below the width exactly when its last one is. -/
theorem shifts_lt_iff (hf : IsField f) (i : Nat) (rest : List UInt8) :
    (∀ n ∈ shifts (f ++ rest) i, n < w) ↔ i + 7 * (f.length - 1) < w := by
  have hpos : 0 < f.length := List.length_pos_iff.mpr (ne_nil_of_isField hf)
  rw [shifts_field hf]
  constructor
  · intro h
    exact h _ (List.mem_map.mpr ⟨f.length - 1, List.mem_range.mpr (by omega), rfl⟩)
  · intro h n hn
    obtain ⟨j, hj, rfl⟩ := List.mem_map.mp hn
    have := List.mem_range.mp hj
    show i + 7 * j < w
    omega

/-! ## The encoding -/

theorem and_high (n : Nat) : n &&& 0x80 = (n.testBit 7).toNat * 0x80 := Nat.and_two_pow n 7

/-- The last byte of an encoding. -/
theorem last_group (v : Nat) :
    (UInt8.ofNat (v &&& 0x7f)).toNat = v % 128 ∧ (UInt8.ofNat (v &&& 0x7f)).toNat &&& 0x80 = 0 := by
  have hmod : (UInt8.ofNat (v &&& 0x7f)).toNat = v % 128 := by
    rw [show v &&& 0x7f = v % 128 from Nat.and_two_pow_sub_one_eq_mod v 7, UInt8.toNat_ofNat']
    omega
  refine ⟨hmod, ?_⟩
  have hlt : v % 128 < 2 ^ 7 := Nat.mod_lt _ (by decide)
  rw [hmod, and_high, Nat.testBit_lt_two_pow hlt]
  rfl

/-- Any other byte. -/
theorem next_group (v : Nat) :
    (UInt8.ofNat ((v &&& 0x7f) ||| 0x80)).toNat % 128 = v % 128 ∧
      (UInt8.ofNat ((v &&& 0x7f) ||| 0x80)).toNat &&& 0x80 ≠ 0 := by
  have hlt : v % 128 < 2 ^ 7 := Nat.mod_lt _ (by decide)
  have hbyte : (UInt8.ofNat ((v &&& 0x7f) ||| 0x80)).toNat = 2 ^ 7 + v % 128 := by
    have hor : v % 128 ||| 0x80 = 2 ^ 7 + v % 128 := by
      rw [Nat.or_comm]
      exact (Nat.two_pow_add_eq_or_of_lt hlt 1).symm
    rw [show v &&& 0x7f = v % 128 from Nat.and_two_pow_sub_one_eq_mod v 7, hor, UInt8.toNat_ofNat']
    omega
  refine ⟨by rw [hbyte]; omega, ?_⟩
  have hbit : (2 ^ 7 + v % 128).testBit 7 = true := by
    rw [Nat.testBit_two_pow_add_eq, Nat.testBit_lt_two_pow hlt]
    rfl
  rw [hbyte, and_high, hbit]
  decide

/-- The groups behind the first hold the number without its low bits. -/
theorem shift_lt {k v : Nat} (hv : v < 2 ^ (7 * (k + 1))) : v >>> 7 < 2 ^ (7 * k) := by
  rw [Nat.shiftRight_eq_div_pow, Nat.div_lt_iff_lt_mul (by decide), ← Nat.pow_add]
  exact hv

theorem isField_encode {k v : Nat} (hk : 0 < k) (hv : v < 2 ^ (7 * k)) : IsField (encode k v) := by
  induction k generalizing v with
  | zero => exact absurd hk (Nat.lt_irrefl 0)
  | succ k ih =>
    have hrest := shift_lt hv
    rw [encode]
    split
    · exact (last_group v).2
    · next hne =>
      cases k with
      | zero => exact absurd (Nat.lt_one_iff.mp hrest) hne
      | succ k =>
        have hfield := ih (Nat.succ_pos k) hrest
        cases henc : encode (k + 1) (v >>> 7) with
        | nil => exact absurd henc (ne_nil_of_isField hfield)
        | cons c l => exact ⟨(next_group v).2, henc ▸ hfield⟩

theorem payload_encode {k v : Nat} (hv : v < 2 ^ (7 * k)) : payload (encode k v) = v := by
  induction k generalizing v with
  | zero =>
    obtain rfl : v = 0 := Nat.lt_one_iff.mp hv
    rfl
  | succ k ih =>
    have hsplit : v = v % 128 + 2 ^ 7 * (v >>> 7) := by
      rw [Nat.shiftRight_eq_div_pow]
      omega
    rw [encode]
    split
    · next hzero =>
      have hlast := (last_group v).1
      rw [payload_cons, hlast, show payload [] = 0 from rfl]
      omega
    · rw [payload_cons, (next_group v).1, ih (shift_lt hv)]
      exact hsplit.symm

/-- **The round trip**, for any width of at most as many bits as the groups have. -/
theorem value_encode {k v : Nat} (hk : 0 < k) (hv : v < 2 ^ w) (hw : w ≤ 7 * k) (hlast : 7 * (k - 1) < w) :
    value w (encode k v) = v := by
  have hfit : v < 2 ^ (7 * k) := Nat.lt_of_lt_of_le hv (Nat.pow_le_pow_right (by decide) hw)
  have hlen := length_encode_le k v
  have hread := read_eq_payload (w := w) (i := 0) (v := 0) (isField_encode hk hfit) (by decide) (by omega)
  rw [payload_encode hfit, Nat.zero_add, Nat.pow_zero, Nat.mul_one, Nat.mod_eq_of_lt hv] at hread
  exact hread

/-- No whole number begins with another one. -/
theorem IsField.eq_of_prefix {g : List UInt8} (hf : IsField f) (hg : IsField g) (h : f <+: g) : f = g := by
  by_contra hne
  have hcut := (read_truncated hg ⟨h, hne⟩ 0 0 0).1
  have hwhole := read_field hf 0 0 0 []
  rw [List.append_nil] at hwhole
  rw [hwhole] at hcut
  omega

end Leb128
