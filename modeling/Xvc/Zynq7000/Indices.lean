import Xvc.Zynq7000.Shift

/-!
# The arrays of `zynq7000`

`handle_data` has two arrays, and checks a length against the larger one only.

* `accesses`: what the `shift:` branch reads and writes of them, for a length and the bytes that come after it.
* `shiftLoop_congr`, `shiftLoop_frame`: the loop has no other access.
* `accesses_inside_iff`: the lengths for which all of them are inside.
-/

namespace Xvc
namespace Zynq7000

open ByteMem BitSerial

variable {S : Type}

/-- The arrays of a call. -/
inductive Local where
  | buffer
  | result
  deriving DecidableEq

/-- `sizeof(buffer)` and `sizeof(result)`. -/
def Local.size : Local → Nat
  | .buffer => 8192
  | .result => 1024

/-- `count` elements of an array, from `first` on. -/
structure Access where
  array : Local
  first : Nat
  count : Nat
  deriving DecidableEq

def Access.Covers (a : Access) (i : Nat) : Prop := a.first ≤ i ∧ i < a.first + a.count

/-- Every index is one of the array. -/
def Access.Inside (a : Access) : Prop := ∀ i, a.Covers i → i < a.array.size

/-- The accesses of a word: TMS and TDI are read from `buffer`, TDO is written to `result`. -/
def wordAccesses (nrBytes byteIndex count : Nat) : List Access :=
  [⟨.buffer, byteIndex, count⟩, ⟨.buffer, byteIndex + nrBytes, count⟩, ⟨.result, byteIndex, count⟩]

/-- The accesses of the `while (bytesLeft > 0)` loop. -/
def loopAccesses (nrBytes : Nat) : (bytesLeft byteIndex : Nat) → List Access
  | 0, _ => []
  | bytesLeft + 4, byteIndex => wordAccesses nrBytes byteIndex 4 ++ loopAccesses nrBytes bytesLeft (byteIndex + 4)
  | bytesLeft, byteIndex => wordAccesses nrBytes byteIndex bytesLeft

/-- The accesses of the branch, when the client sends `sent` bytes after the length: `sread` writes `buffer`,
`memset` writes `result`, and the loop follows. -/
def accesses (len : Int) (sent : Nat) : List Access :=
  if exceeds len then []
  else
    let n := (nrBytes len).toNat
    ⟨.buffer, 0, min sent (n * 2)⟩ :: if sent < n * 2 then [] else ⟨.result, 0, n⟩ :: loopAccesses n n 0

/-! ## The loop has no other access -/

/-- The loop depends on `buffer` only where it reads it. -/
theorem shiftLoop_congr (engine : Engine S) (buffer buffer' : ByteMem) (n bytesLeft k : Nat)
    (h : ∀ a ∈ loopAccesses n bytesLeft k, a.array = .buffer → ∀ i, a.Covers i → buffer i = buffer' i)
    (bitsLeft : Int) (b : Board S) :
    shiftLoop engine buffer n bytesLeft bitsLeft k b = shiftLoop engine buffer' n bytesLeft bitsLeft k b := by
  have hslice : ∀ {a : Access}, (a.array = .buffer → ∀ i, a.Covers i → buffer i = buffer' i) → a.array = .buffer →
      slice buffer a.first a.count = slice buffer' a.first a.count := by
    intro a ha hb
    exact slice_congr fun i hi => ha hb _ ⟨Nat.le_add_right _ _, Nat.add_lt_add_left hi _⟩
  fun_induction loopAccesses n bytesLeft k generalizing bitsLeft b with
  | case1 k => rfl
  | case2 left k ih =>
    have h1 := hslice (h ⟨.buffer, k, 4⟩ (by simp [wordAccesses])) rfl
    have h2 := hslice (h ⟨.buffer, k + n, 4⟩ (by simp [wordAccesses])) rfl
    simp only at h1 h2
    rw [shiftLoop, shiftLoop, h1, h2]
    exact ih (fun a ha => h a (List.mem_append_right _ ha)) _ _
  | case3 w k hpos hw =>
    have h1 := hslice (h ⟨.buffer, k, w⟩ (by simp [wordAccesses])) rfl
    have h2 := hslice (h ⟨.buffer, k + n, w⟩ (by simp [wordAccesses])) rfl
    simp only at h1 h2
    have hlt : w < 4 := Nat.lt_of_not_le fun hle => hw (w - 4) (by omega)
    rw [shiftLoop_last _ _ _ (Nat.pos_of_ne_zero hpos) hlt,
      shiftLoop_last _ _ _ (Nat.pos_of_ne_zero hpos) hlt, h1, h2]

/-- The loop keeps `result` where it does not write. -/
theorem shiftLoop_frame (engine : Engine S) (buffer : ByteMem) (n bytesLeft k i : Nat)
    (h : ∀ a ∈ loopAccesses n bytesLeft k, a.array = .result → ¬ a.Covers i) (bitsLeft : Int) (b : Board S) :
    (shiftLoop engine buffer n bytesLeft bitsLeft k b).result i = b.result i := by
  have hwrite : ∀ (m : ByteMem) (l : List UInt8) (k w : Nat), l.length = w → ¬ (Access.mk .result k w).Covers i →
      write m k l i = m i := by
    intro m l k w hw hi
    unfold Access.Covers at hi
    exact write_of_disjoint m l (by simp only at hi; omega)
  fun_induction loopAccesses n bytesLeft k generalizing bitsLeft b with
  | case1 k => rfl
  | case2 left k ih =>
    have hk := h ⟨.result, k, 4⟩ (by simp [wordAccesses]) rfl
    rw [shiftLoop]
    exact (ih (fun a ha => h a (List.mem_append_right _ ha)) _ _).trans (hwrite _ _ k 4 (length_leBytes _ _) hk)
  | case3 w k hpos hw =>
    have hk := h ⟨.result, k, w⟩ (by simp [wordAccesses]) rfl
    have hlt : w < 4 := Nat.lt_of_not_le fun hle => hw (w - 4) (by omega)
    rw [shiftLoop_last _ _ _ (Nat.pos_of_ne_zero hpos) hlt]
    exact hwrite _ _ k w (by rw [List.length_take, length_leBytes]; omega) hk

/-! ## What is inside -/

/-- The loop, from byte `k` of `n` on: its indices are those of the two vectors. -/
theorem loopAccesses_bound {n bytesLeft k : Nat} (hk : k + bytesLeft = n) {a : Access}
    (ha : a ∈ loopAccesses n bytesLeft k) :
    a.first + a.count ≤ match a.array with
      | .buffer => 2 * n
      | .result => n := by
  have hword : ∀ {k w : Nat}, k + w ≤ n → a ∈ wordAccesses n k w → a.first + a.count ≤ match a.array with
      | .buffer => 2 * n
      | .result => n := by
    intro k w hle hmem
    simp only [wordAccesses, List.mem_cons, List.not_mem_nil, or_false] at hmem
    rcases hmem with rfl | rfl | rfl
    all_goals
      simp only
      omega
  fun_induction loopAccesses n bytesLeft k with
  | case1 k => cases ha
  | case2 left k ih =>
    rcases List.mem_append.mp ha with hmem | hmem
    · exact hword (by omega) hmem
    · exact ih (by omega) hmem
  | case3 w k hpos hw => exact hword (by omega) ha

/-- The values of an `int`. -/
def IsInt32 (x : Int) : Prop := -2 ^ 31 ≤ x ∧ x < 2 ^ 31

/-- The rounding of `/ 8`, towards 0. -/
theorem tdiv_eight (x : Int) :
    (0 ≤ x → 8 * x.tdiv 8 ≤ x ∧ x < 8 * x.tdiv 8 + 8) ∧ (x < 0 → x ≤ 8 * x.tdiv 8 ∧ 8 * x.tdiv 8 < x + 8) := by
  have hsum := Int.mul_tdiv_add_tmod x 8
  constructor
  · intro hx
    have h1 := Int.tmod_nonneg 8 hx
    have h2 := Int.tmod_lt_of_pos x (show (0 : Int) < 8 by decide)
    omega
  · intro hx
    have h1 := Int.tmod_lt_of_pos (-x) (show (0 : Int) < 8 by decide)
    have h2 := Int.tmod_nonneg 8 (show 0 ≤ -x by omega)
    rw [Int.neg_tmod] at h1 h2
    omega

/-- What `nr_bytes` is, with `len + 7` past the largest `int` or not. -/
theorem nrBytes_range {len : Int} (hlen : IsInt32 len) :
    (len < -14 ∨ 2 ^ 31 ≤ len + 7) ∧ -2 ^ 28 ≤ nrBytes len ∧ nrBytes len < 0 ∨
      (-14 ≤ len ∧ len + 7 < 2 ^ 31) ∧ 0 ≤ nrBytes len ∧ nrBytes len < 2 ^ 28 ∧
      (0 ≤ len → 8 * nrBytes len ≤ len + 7 ∧ len ≤ 8 * nrBytes len) ∧
        (len < 0 → nrBytes len = 0) := by
  obtain ⟨hlo, hhi⟩ := hlen
  have hint : int32 (len + 7) = if len + 7 < 2 ^ 31 then len + 7 else len + 7 - 2 ^ 32 := by
    simp only [int32, Int.bmod]
    split <;> split <;> omega
  have hdiv := tdiv_eight (int32 (len + 7))
  unfold nrBytes
  generalize (int32 (len + 7)).tdiv 8 = q at hdiv
  generalize int32 (len + 7) = x at hint hdiv
  obtain ⟨h1, h2⟩ := hdiv
  split at hint <;> omega

/-- The lengths that do not pass the check. -/
theorem exceeds_iff {len : Int} (hlen : IsInt32 len) : exceeds len = true ↔ nrBytes len < 0 ∨ 4096 < nrBytes len := by
  have hrange := nrBytes_range hlen
  unfold exceeds u32OfInt
  rw [int32_of_range (by omega) (by omega), decide_eq_true_iff]
  omega

/-- Once both vectors have come, the branch depends on nothing that `buffer` held before. -/
theorem shift_congr (engine : Engine S) {len : Int} {input : List UInt8}
    (hinput : 2 * (nrBytes len).toNat ≤ input.length) (buffer buffer' result : ByteMem) (s : S) :
    shift engine len input buffer result s = shift engine len input buffer' result s := by
  have hloop := shiftLoop_congr engine (write buffer 0 input) (write buffer' 0 input)
    (nrBytes len).toNat (nrBytes len).toNat 0 ?_ len ⟨s, memset result 0 0 (nrBytes len).toNat, []⟩
  · unfold shift
    simp only [hloop]
  · intro a ha hbuffer i hi
    have hbound := loopAccesses_bound (Nat.zero_add _) ha
    simp only [hbuffer] at hbound
    have hin : 0 ≤ i ∧ i < 0 + input.length := ⟨Nat.zero_le i, by have := hi.2; omega⟩
    unfold write
    rw [if_pos hin, if_pos hin]

/-- The branch keeps `result` where none of its accesses is. -/
theorem shift_frame (engine : Engine S) {len : Int} {input : List UInt8}
    (hinput : 2 * (nrBytes len).toNat ≤ input.length) (buffer result : ByteMem) (s : S) {b : Board S}
    {reply : List UInt8}
    (h : shift engine len input buffer result s = some (b, reply)) {i : Nat}
    (hi : ∀ a ∈ accesses len input.length, a.array = .result → ¬ a.Covers i) : b.result i = result i := by
  unfold shift at h
  unfold accesses at hi
  by_cases hx : exceeds len = true
  · rw [if_pos hx] at h
    cases h
  · rw [if_neg hx, Option.some.injEq, Prod.mk.injEq] at h
    rw [if_neg hx] at hi
    simp only at hi
    rw [if_neg (by omega)] at hi
    have hset := hi ⟨.result, 0, (nrBytes len).toNat⟩ (by simp) rfl
    rw [← h.1, shiftLoop_frame engine _ _ _ _ i (fun a ha => hi a (by simp [ha]))]
    exact if_neg hset

/-- All accesses of the branch are inside their arrays. -/
def InBounds (len : Int) (sent : Nat) : Prop := ∀ a ∈ accesses len sent, a.Inside

/-- **The arrays.** For any length and whatever is sent after it: every index is inside its array, if and
only if the vectors are not longer than `result` while they still fit `buffer`, or not all of them comes. -/
theorem accesses_inside_iff (len : Int) (hlen : IsInt32 len) (sent : Nat) :
    InBounds len sent ↔ ¬ (8192 < len ∧ len ≤ 32768 ∧ 2 * ((len + 7) / 8) ≤ sent) := by
  have hrange := nrBytes_range hlen
  have hcheck := exceeds_iff hlen
  unfold InBounds accesses
  by_cases hx : exceeds len = true
  · rw [if_pos hx]
    have hnr := hcheck.mp hx
    refine ⟨fun _ => ?_, fun _ a ha => by cases ha⟩
    omega
  · rw [if_neg hx]
    have hnr : ¬ (nrBytes len < 0 ∨ 4096 < nrBytes len) := fun h => hx (hcheck.mpr h)
    obtain ⟨n, hn⟩ : ∃ n : Nat, nrBytes len = n := ⟨(nrBytes len).toNat, by omega⟩
    simp only [hn, Int.toNat_natCast]
    constructor
    · rintro hall ⟨h1, h2, h3⟩
      -- The last byte that `memset` writes.
      rw [if_neg (by omega)] at hall
      have hmem := hall ⟨.result, 0, n⟩ (by simp)
      have hlast := hmem (n - 1) ⟨Nat.zero_le _, by simp only; omega⟩
      simp only [Local.size] at hlast
      omega
    · intro hlong a ha i hi
      have hbound : a.first + a.count ≤ a.array.size := by
        rcases List.mem_cons.mp ha with rfl | ha
        · simp only [Local.size]
          omega
        · by_cases hsent : sent < n * 2
          · rw [if_pos hsent] at ha
            cases ha
          · rw [if_neg hsent] at ha
            rcases List.mem_cons.mp ha with rfl | ha
            · simp only [Local.size]
              omega
            · have hloop := loopAccesses_bound (Nat.zero_add n) ha
              cases harray : a.array with
              | buffer =>
                simp only [harray] at hloop
                simp only [Local.size]
                omega
              | result =>
                simp only [harray] at hloop
                simp only [Local.size]
                omega
      exact Nat.lt_of_lt_of_le hi.2 hbound

theorem accesses_inside_iff_8200 :
    InBounds 8200 2049 ↔ ¬ ((8192 : Int) < 8200 ∧ (8200 : Int) ≤ 32768 ∧ 2 * ((8200 + 7) / 8 : Int) ≤ (2049 : Nat)) :=
  accesses_inside_iff 8200 ⟨by decide, by decide⟩ 2049

/-- 8200 bits, with both vectors: `memset` writes `result[1024]`. -/
theorem accesses_outside_8200 : ¬ InBounds 8200 2050 := by
  intro h
  have hmem := h ⟨.result, 0, 1025⟩ (by decide) 1024 ⟨by decide, by decide⟩
  exact absurd hmem (by decide)

end Zynq7000
end Xvc
