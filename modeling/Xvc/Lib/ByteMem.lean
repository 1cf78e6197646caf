import Mathlib.Algebra.Ring.Int.Defs
import Mathlib.Algebra.Ring.Nat

/-!
# Byte memory

A memory is a total function from addresses to bytes: what lies outside every object is left
unspecified, so a program that reads there reads some byte and no theorem can say which.

* `slice m a n`: the `n` bytes from address `a`. `slice_append` cuts one in two.
* `write`, `memset`, `memmove`: the stores, each with what a `slice` of the result is on the
  stored range (`slice_write`, `slice_memmove`) and away from it (`slice_write_of_disjoint`).
* `leBytes`, `ofLe`: little-endian numbers; `ofLe_leBytes` is the round trip.
-/

/-- The byte at each address. -/
abbrev ByteMem := Nat → UInt8

namespace ByteMem

/-- The `n` bytes from address `a`. -/
def slice (m : ByteMem) (a : Nat) : Nat → List UInt8
  | 0 => []
  | n + 1 => m a :: slice m (a + 1) n

/-- The memory `m` with the bytes `l` stored at `a`. -/
def write (m : ByteMem) (a : Nat) (l : List UInt8) : ByteMem :=
  fun x => if a ≤ x ∧ x < a + l.length then l.getD (x - a) 0 else m x

/-- The memory `m` with `n` copies of `b` stored at `a`. -/
def memset (m : ByteMem) (a : Nat) (b : UInt8) (n : Nat) : ByteMem :=
  fun x => if a ≤ x ∧ x < a + n then b else m x

/-- The memory `m` with the `n` bytes at `src` copied to `dst` (the ranges may overlap). -/
def memmove (m : ByteMem) (dst src n : Nat) : ByteMem :=
  fun x => if dst ≤ x ∧ x < dst + n then m (src + (x - dst)) else m x

variable {m m' : ByteMem} {a b n k : Nat} {l : List UInt8}

/-! ## Slices -/

@[simp] theorem length_slice (m : ByteMem) (a n : Nat) : (slice m a n).length = n := by
  induction n generalizing a with
  | zero => rfl
  | succ n ih => simp [slice, ih]

@[simp] theorem slice_zero (m : ByteMem) (a : Nat) : slice m a 0 = [] := rfl

theorem slice_succ (m : ByteMem) (a n : Nat) : slice m a (n + 1) = m a :: slice m (a + 1) n := rfl

@[simp] theorem getElem_slice (m : ByteMem) (a n i : Nat) (h : i < (slice m a n).length) :
    (slice m a n)[i] = m (a + i) := by
  induction n generalizing a i with
  | zero => simp at h
  | succ n ih =>
    cases i with
    | zero => rfl
    | succ i =>
      simp only [slice_succ, List.getElem_cons_succ, ih]
      congr 1; omega

theorem getD_slice (m : ByteMem) (a : Nat) {n i : Nat} (h : i < n) :
    (slice m a n).getD i 0 = m (a + i) := by
  simp [List.getD_eq_getElem?_getD, h]

/-- Two slices are equal when they agree byte by byte. -/
theorem slice_congr (h : ∀ i, i < n → m (a + i) = m' (b + i)) : slice m a n = slice m' b n := by
  apply List.ext_getElem
  · simp
  · intro i h1 _
    simpa using h i (by simpa using h1)

theorem slice_append (m : ByteMem) (a n k : Nat) :
    slice m a (n + k) = slice m a n ++ slice m (a + n) k := by
  induction n generalizing a with
  | zero => simp
  | succ n ih =>
    rw [show n + 1 + k = (n + k) + 1 by omega, slice_succ, slice_succ, ih,
      show a + 1 + n = a + (n + 1) by omega]
    rfl

theorem take_slice (m : ByteMem) (a : Nat) {n k : Nat} (h : k ≤ n) :
    (slice m a n).take k = slice m a k := by
  obtain ⟨j, rfl⟩ := Nat.exists_eq_add_of_le h
  rw [slice_append, List.take_left' (by simp)]

theorem drop_slice (m : ByteMem) (a : Nat) {n k : Nat} (h : k ≤ n) :
    (slice m a n).drop k = slice m (a + k) (n - k) := by
  obtain ⟨j, rfl⟩ := Nat.exists_eq_add_of_le h
  rw [slice_append, List.drop_left' (by simp), Nat.add_sub_cancel_left]

/-- A slice `l ++ r`: `l` is its first bytes and `r` is what follows. -/
theorem slice_eq_append {r : List UInt8} (h : slice m a n = l ++ r) :
    slice m a l.length = l ∧ slice m (a + l.length) (n - l.length) = r ∧ l.length ≤ n := by
  have hlen : n = l.length + r.length := by simpa using congrArg List.length h
  subst hlen
  rw [slice_append] at h
  obtain ⟨h1, h2⟩ := List.append_inj h (by simp)
  exact ⟨h1, by rwa [Nat.add_sub_cancel_left], by omega⟩

/-! ## Stores -/

theorem write_of_disjoint (m : ByteMem) (l : List UInt8) {a x : Nat} (h : x < a ∨ a + l.length ≤ x) :
    write m a l x = m x := by
  unfold write; rw [if_neg (by omega)]

/-- A byte that a store changes. -/
theorem of_write_ne {x : Nat} (h : write m a l x ≠ m x) : a ≤ x ∧ x < a + l.length := by
  by_contra hout
  exact h (if_neg hout)

theorem write_nil (m : ByteMem) (a : Nat) : write m a [] = m := by
  funext x
  exact write_of_disjoint m [] (Nat.lt_or_ge x a)

theorem slice_write (m : ByteMem) (a : Nat) (l : List UInt8) : slice (write m a l) a l.length = l := by
  apply List.ext_getElem
  · simp
  · intro i _ h
    simp [write, h]

theorem slice_write_of_disjoint (m : ByteMem) {a b n : Nat} {l : List UInt8}
    (h : a + n ≤ b ∨ b + l.length ≤ a) : slice (write m b l) a n = slice m a n :=
  slice_congr fun i hi => write_of_disjoint m l (by omega)

/-- Two stores, the second right behind the first. -/
theorem write_write (m : ByteMem) (a : Nat) (l l' : List UInt8) :
    write (write m a l) (a + l.length) l' = write m a (l ++ l') := by
  funext x
  unfold write
  simp only [List.length_append, List.getD_eq_getElem?_getD]
  by_cases h : a + l.length ≤ x ∧ x < a + l.length + l'.length
  · rw [if_pos h, if_pos (by omega), List.getElem?_append_right (by omega), Nat.sub_sub]
  · rw [if_neg h]
    by_cases h1 : a ≤ x ∧ x < a + l.length
    · rw [if_pos h1, if_pos (by omega), List.getElem?_append_left (by omega)]
    · rw [if_neg h1, if_neg (by omega)]

/-- The second of two stores to the same range. -/
theorem write_overwrite (m : ByteMem) (a : Nat) {l l' : List UInt8} (h : l.length = l'.length) :
    write (write m a l) a l' = write m a l' := by
  funext x
  unfold write
  rw [h]
  split <;> rfl

/-- Stores to disjoint ranges commute. -/
theorem write_comm (m : ByteMem) {a b : Nat} {l l' : List UInt8} (h : a + l.length ≤ b) :
    write (write m a l) b l' = write (write m b l') a l := by
  funext x
  unfold write
  by_cases hb : b ≤ x ∧ x < b + l'.length
  · rw [if_pos hb, if_neg (by omega), if_pos hb]
  · rw [if_neg hb]
    by_cases ha : a ≤ x ∧ x < a + l.length
    · rw [if_pos ha, if_pos ha]
    · rw [if_neg ha, if_neg ha, if_neg hb]

theorem memset_eq_write (m : ByteMem) (a : Nat) (b : UInt8) (n : Nat) :
    memset m a b n = write m a (List.replicate n b) := by
  funext x
  unfold memset write
  rw [List.length_replicate]
  split
  · next h =>
    have : x - a < n := by omega
    simp [List.getD_eq_getElem?_getD, this]
  · rfl

theorem slice_memmove (m : ByteMem) (dst src n : Nat) :
    slice (memmove m dst src n) dst n = slice m src n :=
  slice_congr fun i hi => by
    unfold memmove; rw [if_pos (by omega)]; congr 1; omega

/-! ## Little-endian numbers -/

/-- The `n` low bytes of `v`, the lowest first. -/
def leBytes : Nat → Nat → List UInt8
  | 0, _ => []
  | n + 1, v => UInt8.ofNat v :: leBytes n (v >>> 8)

/-- The number that `l` holds, the lowest byte first. -/
def ofLe (l : List UInt8) : Nat := l.foldr (fun b v => b.toNat + 256 * v) 0

@[simp] theorem length_leBytes (n v : Nat) : (leBytes n v).length = n := by
  induction n generalizing v with
  | zero => rfl
  | succ n ih => simp [leBytes, ih]

theorem ofLe_leBytes (n v : Nat) : ofLe (leBytes n v) = v % 256 ^ n := by
  induction n generalizing v with
  | zero => simp [leBytes, ofLe, Nat.mod_one]
  | succ n ih =>
    have ih' := ih (v >>> 8)
    simp only [ofLe] at ih' ⊢
    rw [leBytes, List.foldr_cons, ih', Nat.shiftRight_eq_div_pow, Nat.pow_succ' (n := n), Nat.mod_mul]
    simp

theorem ofLe_lt (l : List UInt8) : ofLe l < 256 ^ l.length := by
  induction l with
  | nil => simp [ofLe]
  | cons b l ih =>
    have hb := b.toNat_lt
    simp only [ofLe, List.foldr_cons, List.length_cons, Nat.pow_succ'] at ih ⊢
    omega

end ByteMem
