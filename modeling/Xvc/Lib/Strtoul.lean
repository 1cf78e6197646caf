import Mathlib.Tactic

/-!
# `strtoul`

`strtoul (s, NULL, 0)` of the C library, where `unsigned long` has 64 bits: white space, a sign, `0x` or `0` for a base,
and then all the digits there are.

* `strtoul`: the value of a text.
* `strtoul_decimal`, `strtoul_hex`: what `%lu` and `0x%0lX` print is read back.
-/

namespace Xvc
namespace Strtoul

/-- `isspace`. -/
def isSpace (c : UInt8) : Bool := c = 32 ∨ 9 ≤ c ∧ c ≤ 13

/-- The value of a digit; 36, which no base has, for any other byte. -/
def digitOf (c : UInt8) : Nat :=
  if 48 ≤ c ∧ c ≤ 57 then c.toNat - 48
  else if 65 ≤ c ∧ c ≤ 90 then c.toNat - 55
  else if 97 ≤ c ∧ c ≤ 122 then c.toNat - 87
  else 36

/-- The digits at the front, behind those that make `acc`. -/
def digits (base : Nat) : List UInt8 → Nat → Nat
  | [], acc => acc
  | c :: s, acc => if digitOf c < base then digits base s (base * acc + digitOf c) else acc

/-- The sign, if there is one; true for `-`. -/
def sign : List UInt8 → Bool × List UInt8
  | [] => (false, [])
  | c :: s => if c = 45 then (true, s) else if c = 43 then (false, s) else (false, c :: s)

/-- The base, and the digits in it. -/
def radix : List UInt8 → Nat × List UInt8
  | [] => (10, [])
  | c :: s =>
    if c = 48 then
      match s with
      | [] => (8, [])
      | x :: s => if x = 120 ∨ x = 88 then (16, s) else (8, x :: s)
    else (10, c :: s)

/-- `ULONG_MAX` if the number is too large, else it or its negation as an `unsigned long`. -/
def unsigned (minus : Bool) (n : Nat) : Nat :=
  if 2 ^ 64 ≤ n then 2 ^ 64 - 1 else if minus then (2 ^ 64 - n) % 2 ^ 64 else n

end Strtoul

open Strtoul

/-- `strtoul (s, NULL, 0)`. -/
def strtoul (s : List UInt8) : Nat :=
  let signed := sign (s.dropWhile isSpace)
  let based := radix signed.2
  unsigned signed.1 (digits based.1 based.2 0)

namespace Strtoul

/-! ## Numbers as text -/

variable {base n : Nat} {f : Char → UInt8}

/-- `f` shows the digits of the base. -/
def Shows (f : Char → UInt8) (base : Nat) : Prop := ∀ d < base, digitOf (f d.digitChar) = d

instance (f : Char → UInt8) (base : Nat) : Decidable (Shows f base) :=
  inferInstanceAs (Decidable (∀ d < base, digitOf (f d.digitChar) = d))

theorem digits_append {s : List UInt8} (h : ∀ c ∈ s, digitOf c < base) (t : List UInt8) (acc : Nat) :
    digits base (s ++ t) acc = digits base t (digits base s acc) := by
  induction s generalizing acc with
  | nil => rfl
  | cons c s ih =>
    obtain ⟨hc, hs⟩ := List.forall_mem_cons.mp h
    rw [List.cons_append, digits, if_pos hc, ih hs, digits, if_pos hc]

theorem digits_digit (hf : Shows f base) {d : Nat} (hd : d < base) (acc : Nat) :
    digits base [f d.digitChar] acc = base * acc + d := by
  rw [digits, hf d hd, if_pos hd, digits]

theorem digitOf_toDigits (hb : 1 < base) (hf : Shows f base) (n : Nat) :
    ∀ c ∈ (Nat.toDigits base n).map f, digitOf c < base := by
  induction n using Nat.base_induction base hb with
  | single m hm =>
    rw [Nat.toDigits_of_lt_base hm, List.map_singleton, List.forall_mem_singleton, hf m hm]
    exact hm
  | digit m k hk hm ih =>
    rw [← Nat.toDigits_append_toDigits hb hm hk, Nat.toDigits_of_lt_base hk, List.map_append,
      List.map_singleton]
    intro c hc
    rcases List.mem_append.mp hc with hc | hc
    · exact ih c hc
    · rw [List.mem_singleton.mp hc, hf k hk]
      exact hk

/-- **The digits of a number** are those of its text. -/
theorem digits_toDigits (hb : 1 < base) (hf : Shows f base) (n : Nat) :
    digits base ((Nat.toDigits base n).map f) 0 = n := by
  induction n using Nat.base_induction base hb with
  | single m hm =>
    rw [Nat.toDigits_of_lt_base hm, List.map_singleton, digits_digit hf hm]
    omega
  | digit m k hk hm ih =>
    rw [← Nat.toDigits_append_toDigits hb hm hk, Nat.toDigits_of_lt_base hk, List.map_append,
      digits_append (digitOf_toDigits hb hf m), ih, List.map_singleton, digits_digit hf hk]

/-- Zeros in front change nothing. -/
theorem digits_zeros (hb : 1 < base) (k : Nat) (s : List UInt8) :
    digits base (List.replicate k 48 ++ s) 0 = digits base s 0 := by
  induction k with
  | zero => rfl
  | succ k ih =>
    have h0 : digitOf 48 = 0 := rfl
    rw [List.replicate_succ, List.cons_append, digits, h0, if_pos (by omega), Nat.mul_zero, ih]

theorem toDigits_head (hb : 1 < base) (n : Nat) (hn : 0 < n) :
    ∃ d s, 0 < d ∧ d < base ∧ Nat.toDigits base n = d.digitChar :: s := by
  induction n using Nat.base_induction base hb with
  | single m hm => exact ⟨m, [], hn, hm, Nat.toDigits_of_lt_base hm⟩
  | digit m k hk hm ih =>
    obtain ⟨d, s, hd, hdb, heq⟩ := ih hm
    exact ⟨d, s ++ Nat.toDigits base k, hd, hdb, by rw [← Nat.toDigits_append_toDigits hb hm hk, heq]; rfl⟩

/-- A text that begins with a digit has no sign. -/
theorem strtoul_of_digit {c : UInt8} (hc : 48 ≤ c ∧ c ≤ 57) (s : List UInt8) :
    strtoul (c :: s) = unsigned false (digits (radix (c :: s)).1 (radix (c :: s)).2 0) := by
  have hspace : isSpace c = false := by
    simp only [isSpace, decide_eq_false_iff_not]
    rintro (rfl | ⟨-, h13⟩)
    · exact absurd hc.1 (by decide)
    · exact absurd (UInt8.le_trans hc.1 h13) (by decide)
  have hminus : c ≠ 45 ∧ c ≠ 43 := by
    constructor <;>
    · rintro rfl
      exact absurd hc.1 (by decide)
  rw [strtoul, List.dropWhile_cons_of_neg (by simp [hspace]), sign, if_neg hminus.1, if_neg hminus.2]

theorem unsigned_of_lt (h : n < 2 ^ 64) : unsigned false n = n := by
  rw [unsigned, if_neg (by omega)]
  rfl

/-- **`%lu`.** -/
theorem strtoul_decimal (h : n < 2 ^ 64) :
    strtoul ((Nat.toDigits 10 n).map fun c => UInt8.ofNat c.toNat) = n := by
  have hf : Shows (fun c => UInt8.ofNat c.toNat) 10 := by decide
  rcases Nat.eq_zero_or_pos n with rfl | hn
  · rw [Nat.toDigits_zero]
    decide
  · obtain ⟨d, s, hd, hdb, heq⟩ := toDigits_head (show 1 < 10 by decide) n hn
    have hfirst : ∀ d < 10, 0 < d → 48 < UInt8.ofNat (Nat.digitChar d).toNat ∧
        UInt8.ofNat (Nat.digitChar d).toNat ≤ 57 := by decide
    obtain ⟨hlow, hhigh⟩ := hfirst d hdb hd
    have hradix : ∀ s, radix (UInt8.ofNat d.digitChar.toNat :: s) = (10, UInt8.ofNat d.digitChar.toNat :: s) :=
      fun s => if_neg (UInt8.ne_of_lt hlow).symm
    have hdigits := digits_toDigits (show 1 < 10 by decide) hf n
    rw [heq, List.map_cons] at hdigits ⊢
    rw [strtoul_of_digit ⟨UInt8.le_of_lt hlow, hhigh⟩, hradix, hdigits, unsigned_of_lt h]

/-- **`0x%0lX`**, with any number of zeros. -/
theorem strtoul_hex (hf : Shows f 16) (h : n < 2 ^ 64) (k : Nat) :
    strtoul (48 :: 120 :: (List.replicate k 48 ++ (Nat.toDigits 16 n).map f)) = n := by
  rw [strtoul_of_digit (by decide)]
  show unsigned false (digits 16 (List.replicate k 48 ++ (Nat.toDigits 16 n).map f) 0) = n
  rw [digits_zeros (by decide), digits_toDigits (by decide) hf, unsigned_of_lt h]

end Strtoul
end Xvc
