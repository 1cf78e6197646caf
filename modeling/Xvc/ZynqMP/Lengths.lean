import Xvc.Zynq7000.Indices
import Xvc.ZynqMP.Truthful

/-!
# The length in the two programs

`handle_data` rounds the length up as an `int`, `xil_xvc_ioctl` as a `u32`. From -14 to -1 both checks of
`handle_data` pass, with `nr_bytes` 0, and the driver takes the length for one near 2^32.

* `ioctlLoop_inside`: below 2^31 bits, the words lie in the blocks, whatever the bridge does.
* `lengths_agree_iff`: the lengths for which the two programs agree, or the driver rejects the request.
-/

namespace Xvc
namespace ZynqMP

open ByteMem BitSerial Zynq7000

variable {S : Type}

/-- `KMALLOC_MAX_SIZE`, with pages of 4 KiB. -/
def kmallocMaxSize : Nat := 2 ^ 22

/-- `kmalloc` gives out no block above its limit. -/
def Kernel.Limited (k : Kernel) (n : Nat) : Prop := kmallocMaxSize < n → k.tmsBufTemp = none

/-- The words of a call lie in its blocks of `n` bytes. -/
def InsideBlocks (n : Nat) (accesses : List (Int × Nat)) : Prop := ∀ a ∈ accesses, 0 ≤ a.1 ∧ a.1 + a.2 ≤ n

/-- The call has failed before its first register access. -/
def Rejected (s : S) (r : IoctlResult S) : Prop := r.status ≠ 0 ∧ r = IoctlResult.early s r.status

/-- The two programs agree on a length, and what it makes the driver do is in bounds; or the driver rejects it. -/
def Agrees (len : Int) (buffer : ByteMem) (hw : Bridge S) (k : Kernel) (s : S) : Prop :=
  let r := xilXvcIoctl hw (request len buffer) k s
  (numBytes (u32OfInt len) = nrBytes len ∧ InsideBlocks (numBytes (u32OfInt len)) r.accesses) ∨ Rejected s r

/-! ## The words -/

theorem insideBlocks_push {n : Nat} {l : List (Int × Nat)} (h : InsideBlocks n l) {a : Int × Nat}
    (ha : 0 ≤ a.1 ∧ a.1 + a.2 ≤ n) :
    InsideBlocks n (l ++ [a]) := by
  intro b hb
  rcases List.mem_append.mp hb with hb | hb
  · exact h b hb
  · rw [List.mem_singleton] at hb
    rw [hb]
    exact ha

/-- Below 2^31 bits the words lie in the blocks; by induction on the rounds, each of which starts at a byte. -/
theorem ioctlLoop_inside (hw : Bridge S) {numBits : Nat} (hbound : numBits < 2 ^ 31) (tms tdi : Block)
    (fuel currentBit : Nat) (hbyte : 8 ∣ currentBit ∨ numBits ≤ currentBit) (w : Shifting S)
    (h : InsideBlocks ((numBits + 7) / 8) w.accesses) :
    InsideBlocks ((numBits + 7) / 8) (ioctlLoop hw numBits tms tdi fuel currentBit w).1.accesses := by
  induction fuel generalizing currentBit w with
  | zero => exact h
  | succ fuel ih =>
    rw [ioctlLoop]
    by_cases hlt : currentBit < numBits
    · obtain ⟨k, rfl⟩ : 8 ∣ currentBit := hbyte.resolve_right (Nat.not_le.mpr hlt)
      obtain ⟨m, hm, hmin⟩ : ∃ m, (if numBits - 8 * k < 32 then numBits - 8 * k else 32) = m ∧
        m = min (numBits - 8 * k) 32 :=
        ⟨_, rfl, by split <;> omega⟩
      have hpush := insideBlocks_push h (a := ((k : Int), (m + 7) / 8)) ⟨by simp only; omega, by simp only; omega⟩
      rw [if_pos hlt]
      simp only [hm, byteOffset_natCast (show 8 * k < 2 ^ 31 by omega)]
      split
      · exact hpush
      · exact ih _ (by omega) _ hpush
    · rw [if_neg hlt]
      exact h

/-- No word is forgotten. -/
theorem ioctlLoop_keeps (hw : Bridge S) (numBits : Nat) (tms tdi : Block) (fuel currentBit : Nat) (w : Shifting S)
    {a : Int × Nat} (ha : a ∈ w.accesses) : a ∈ (ioctlLoop hw numBits tms tdi fuel currentBit w).1.accesses := by
  induction fuel generalizing currentBit w with
  | zero => exact ha
  | succ fuel ih =>
    rw [ioctlLoop]
    by_cases hlt : currentBit < numBits
    · rw [if_pos hlt]
      simp only
      split
      · exact List.mem_append_left _ ha
      · exact ih _ _ (List.mem_append_left _ ha)
    · rw [if_neg hlt]
      exact ha

/-- A whole word to begin with. -/
theorem ioctlLoop_first (hw : Bridge S) {numBits : Nat} (h32 : 32 ≤ numBits) (tms tdi : Block) (fuel : Nat)
    (w : Shifting S) :
    ((0 : Int), 4) ∈ (ioctlLoop hw numBits tms tdi (fuel + 1) 0 w).1.accesses := by
  have hshort : ¬ numBits - 0 < 32 := by omega
  have hoffset : byteOffset 0 = 0 := by decide
  rw [ioctlLoop, if_pos (by omega)]
  simp only [if_neg hshort, hoffset]
  split
  · exact List.mem_append_right _ (List.mem_singleton_self _)
  · exact ioctlLoop_keeps _ _ _ _ _ _ _ (List.mem_append_right _ (List.mem_singleton_self _))

theorem shiftVector_accesses (hw : Bridge S) (arg : XilXvcIoc) (tms tdi tdo : Block) (tdoLeft : Nat) (s : S) :
    (shiftVector hw arg tms tdi tdo tdoLeft s).accesses =
      (ioctlLoop hw arg.length tms tdi (rounds arg.length) 0 ⟨prepare hw arg s, tdo, 0, []⟩).1.accesses := by
  unfold shiftVector
  simp only
  split <;> rfl

/-! ## The two programs -/

theorem exceeds_iff {len : Int} (hlen : IsInt32 len) : exceeds len = true ↔ nrBytes len < 0 ∨ 1024 < nrBytes len := by
  have hrange := nrBytes_range hlen
  unfold exceeds
  rw [int32_of_range (by omega) (by omega), decide_eq_true_iff]
  omega

/-- The call is rejected, or it is the shift of some blocks. -/
theorem xilXvcIoctl_cases (hw : Bridge S) (arg : XilXvcIoc) (hop : arg.opcode = 1) (k : Kernel) (s : S) :
    Rejected s (xilXvcIoctl hw arg k s) ∨ k.tmsBufTemp.isSome ∧ ∃ tms tdi tdo : Block,
      xilXvcIoctl hw arg k s = shiftVector hw arg tms tdi tdo k.tdoLeft s := by
  have hearly : ∀ n : Nat, n ≠ 0 → Rejected s (IoctlResult.early s n) := fun n hn => ⟨Int.natCast_ne_zero.mpr hn, rfl⟩
  have hnomem : Rejected s (IoctlResult.early s (-ENOMEM)) := ⟨(by decide : -ENOMEM ≠ 0), rfl⟩
  have hnop : ¬ (arg.opcode ≠ 1 ∧ arg.opcode ≠ 2) := by omega
  unfold xilXvcIoctl
  by_cases harg : notCopied k.argLeft 32 = 0
  · simp only [harg, ne_eq, not_true_eq_false, if_false]
    rw [if_neg hnop]
    cases k.tmsBufTemp with
    | none => exact .inl hnomem
    | some tms =>
      by_cases htms : notCopied k.tmsLeft (numBytes arg.length) = 0
      · simp only [htms, not_true_eq_false, if_false]
        cases k.tdiBufTemp with
        | none => exact .inl hnomem
        | some tdi =>
          by_cases htdi : notCopied k.tdiLeft (numBytes arg.length) = 0
          · simp only [htdi, not_true_eq_false, if_false]
            cases k.tdoBufTemp with
            | none => exact .inl hnomem
            | some tdo => exact .inr ⟨rfl, _, _, _, rfl⟩
          · simp only [htdi, not_false_eq_true, if_true]
            exact .inl (hearly _ htdi)
      · simp only [htms, not_false_eq_true, if_true]
        exact .inl (hearly _ htms)
  · simp only [harg, ne_eq, not_false_eq_true, if_true]
    exact .inl (hearly _ harg)

/-- No bytes are allocated for a whole word: all goes well in the kernel, and the word is not in its block. -/
theorem quiet_disagrees {len : Int} (hzero : numBytes (u32OfInt len) = 0) (h32 : 32 ≤ u32OfInt len) :
    ¬ Agrees len (fun _ => 0) quiet calmKernel () := by
  obtain ⟨tms, tdi, tdo, hcall⟩ := xilXvcIoctl_succeeds quiet (request len (fun _ => 0)) rfl calmKernel_succeeds ()
  have hfirst : ((0 : Int), 4) ∈ (xilXvcIoctl quiet (request len (fun _ => 0)) calmKernel ()).accesses := by
    rw [hcall, shiftVector_accesses]
    exact ioctlLoop_first quiet h32 _ _ _ _
  rintro (⟨-, hin⟩ | ⟨-, hrej⟩)
  · have h4 := (hin _ hfirst).2
    rw [hzero] at h4
    exact absurd h4 (by decide)
  · rw [hrej] at hfirst
    cases hfirst

/-- **The length.** For any length that passes the check of `handle_data`: with every bridge, and a kernel whose
`kmalloc` has its limit, the two programs agree on the bytes and the driver stays in its blocks, or it rejects the
request, if and only if the length is not one of the seven below 0. -/
theorem lengths_agree_iff (len : Int) (hlen : IsInt32 len) :
    (exceeds len = false → ∀ (S : Type) (hw : Bridge S) (k : Kernel) (s : S) (buffer : ByteMem),
        k.Limited (numBytes (u32OfInt len)) → Agrees len buffer hw k s) ↔ ¬ (-7 ≤ len ∧ len ≤ -1) := by
  have hrange := nrBytes_range hlen
  have hcheck := exceeds_iff hlen
  constructor
  · rintro hall ⟨hlo, hhi⟩
    have hfits : exceeds len = false := by
      rw [Bool.eq_false_iff]
      intro hx
      have := hcheck.mp hx
      omega
    have hzero : numBytes (u32OfInt len) = 0 := by
      unfold numBytes u32OfInt
      omega
    exact quiet_disagrees hzero (by unfold u32OfInt; omega)
      (hall hfits Unit quiet calmKernel () (fun _ => 0) fun h => by rw [hzero] at h; cases h)
  · intro hout hfits S hw k s buffer hlimit
    have hx : ¬ (nrBytes len < 0 ∨ 1024 < nrBytes len) := fun h => by
      rw [hcheck.mpr h] at hfits
      cases hfits
    rcases xilXvcIoctl_cases hw (request len buffer) rfl k s with hrej | ⟨hsome, tms, tdi, tdo, hshift⟩
    · exact .inr hrej
    · by_cases hneg : len < 0
      · -- The allocation is too large.
        have hbytes : kmallocMaxSize < numBytes (u32OfInt len) := by
          unfold kmallocMaxSize numBytes u32OfInt
          omega
        rw [hlimit hbytes] at hsome
        cases hsome
      · have hu : (u32OfInt len : Int) = len := by
          unfold u32OfInt
          omega
        have hn : numBytes (u32OfInt len) = (u32OfInt len + 7) / 8 := numBytes_eq (by omega)
        refine .inl ⟨by omega, ?_⟩
        rw [hshift, shiftVector_accesses, hn]
        exact ioctlLoop_inside hw (show u32OfInt len < 2 ^ 31 by omega) _ _ _ 0 (.inl (Nat.dvd_zero 8)) _
          (by intro a ha; cases ha)

theorem lengths_agree_iff_8192 :
    (exceeds 8192 = false → ∀ (S : Type) (hw : Bridge S) (k : Kernel) (s : S) (buffer : ByteMem),
        k.Limited (numBytes (u32OfInt 8192)) → Agrees 8192 buffer hw k s) ↔ ¬ ((-7 : Int) ≤ 8192 ∧ (8192 : Int) ≤ -1) :=
  lengths_agree_iff 8192 ⟨by decide, by decide⟩

/-- -1: both programs take it for 0 bytes, and the driver goes on to read a word. -/
theorem length_minus_one_disagrees :
    exceeds (-1) = false ∧ calmKernel.Limited (numBytes (u32OfInt (-1))) ∧
      ¬ Agrees (-1) (fun _ => 0) quiet calmKernel () := by
  refine ⟨by decide, fun h => absurd h (by decide), ?_⟩
  exact quiet_disagrees (by decide) (by decide)

end ZynqMP
end Xvc
