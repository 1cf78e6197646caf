import Xvc.ZynqMP.HandleData

/-!
# What the status says

`xil_xvc_ioctl` fails in seven places, and `handle_data` only asks whether `ioctl` is negative. The two copies
from user space leave their count of bytes in `status`, which is not negative.

* `ioctlLoop_status`: the words end with all bits shifted, or with `-ETIMEDOUT`.
* `Kernel.Whole`: what has to hold of the kernel; `ioctl_truthful_iff` says that it is enough with every
  device, and that nothing less is.
-/

namespace Xvc
namespace ZynqMP

open ByteMem BitSerial Zynq7000

variable {S : Type}

/-- All bits were shifted, and the whole vector was copied to the user. -/
def Complete (arg : XilXvcIoc) (r : IoctlResult S) : Prop :=
  r.shifted = arg.length ∧ ∃ l, r.delivered = some l ∧ l.length = (arg.length + 7) / 8

/-- 0 is said of a complete call only, anything else is a negative number, and then no byte was delivered but
by the last copy. -/
structure Truthful (arg : XilXvcIoc) (r : IoctlResult S) : Prop where
  zero : r.status = 0 → Complete arg r
  negative : r.status ≠ 0 → r.status < 0
  delivered : r.status ≠ 0 → r.delivered = none ∨ r.status = -EFAULT ∧ r.shifted = arg.length

/-- The copies from user space that the call comes to leave nothing, and `num_bytes` is not wrapped when it
comes to shift. -/
def Kernel.Whole (k : Kernel) (numBits : Nat) : Prop :=
  notCopied k.argLeft 32 = 0 ∧
    (k.tmsBufTemp.isSome → notCopied k.tmsLeft (numBytes numBits) = 0 ∧
      (k.tdiBufTemp.isSome → notCopied k.tdiLeft (numBytes numBits) = 0 ∧
        (k.tdoBufTemp.isSome → numBits + 7 < 2 ^ 32)))

/-! ## The words -/

/-- How the words end, by induction on the rounds. -/
theorem ioctlLoop_status (hw : Bridge S) {numBits : Nat} (tms tdi : Block) (t fuel currentBit : Nat)
    (hleft : currentBit + t = numBits) (hfuel : (t + 31) / 32 < fuel) (w : Shifting S) :
    let r := ioctlLoop hw numBits tms tdi fuel currentBit w
    r.2 = -ETIMEDOUT ∨ r.2 = 0 ∧ r.1.shifted = w.shifted + t := by
  induction fuel generalizing t currentBit w with
  | zero => omega
  | succ fuel ih =>
    rw [ioctlLoop]
    by_cases h : currentBit < numBits
    · obtain ⟨m, hm, hpos, hmax⟩ : ∃ m, (if numBits - currentBit < 32 then numBits - currentBit else 32) = m ∧ 0 < m ∧
          m = min t 32 := ⟨_, rfl, by split <;> omega, by split <;> omega⟩
      rw [if_pos h]
      simp only [hm]
      split
      · exact .inl rfl
      · rename_i tdoStore _
        have hrest := ih (t - m) (currentBit + m) (by omega) (by omega)
          ⟨(xilXvcShiftBits hw (if numBits - currentBit < 32 then hw.iowrite32 w.hw lengthRegOffset m else w.hw)
            (ofLe (tms.load (byteOffset currentBit) ((m + 7) / 8)))
              (ofLe (tdi.load (byteOffset currentBit) ((m + 7) / 8)))).1,
            w.tdo.store (byteOffset currentBit) ((leBytes 4 tdoStore).take ((m + 7) / 8)), w.shifted + m,
            w.accesses ++ [(byteOffset currentBit, (m + 7) / 8)]⟩
        rcases hrest with h | ⟨h, h'⟩
        · exact .inl h
        · exact .inr ⟨h, h'.trans (by simp only; omega)⟩
    · rw [if_neg h]
      exact .inr ⟨rfl, by simp only; omega⟩

/-- A shift that comes to its end is told as it is, when `num_bytes` is not wrapped. -/
theorem shiftVector_truthful (hw : Bridge S) {arg : XilXvcIoc} (hfit : arg.length + 7 < 2 ^ 32) (tms tdi tdo : Block)
    (tdoLeft : Nat) (s : S) : Truthful arg (shiftVector hw arg tms tdi tdo tdoLeft s) := by
  have hstatus := ioctlLoop_status hw tms tdi arg.length (rounds arg.length) 0 (Nat.zero_add _) (Nat.lt_succ_self _)
    ⟨prepare hw arg s, tdo, 0, []⟩
  unfold shiftVector
  generalize ioctlLoop hw arg.length tms tdi (rounds arg.length) 0 ⟨prepare hw arg s, tdo, 0, []⟩ = w at hstatus
  rcases hstatus with h | ⟨h, hshifted⟩
  · -- A word that timed out.
    have hne : w.2 ≠ 0 := by
      rw [h]
      decide
    simp only [if_pos hne]
    have hneg : w.2 < 0 := by
      rw [h]
      decide
    exact ⟨fun h0 => absurd h0 hne, fun _ => hneg, fun _ => .inl rfl⟩
  · simp only [h, ne_eq, not_true_eq_false, if_false, numBytes_eq hfit]
    rw [Nat.zero_add] at hshifted
    by_cases hleft : notCopied tdoLeft ((arg.length + 7) / 8) = 0
    · simp only [hleft, not_true_eq_false, if_false]
      refine ⟨fun _ => ⟨hshifted, _, rfl, ?_⟩, fun hne => absurd rfl hne, fun hne => absurd rfl hne⟩
      rw [Block.length_load, Nat.sub_zero]
    · simp only [hleft, not_false_eq_true, if_true]
      have hneg : -EFAULT < 0 := by decide
      exact ⟨fun h0 => absurd h0 (Int.ne_of_lt hneg), fun _ => hneg, fun _ => .inr ⟨rfl, hshifted⟩⟩

theorem early_truthful (arg : XilXvcIoc) (s : S) {status : Int} (h : status < 0) :
    Truthful arg (IoctlResult.early s status) :=
  ⟨fun h0 => absurd h0 (Int.ne_of_lt h), fun _ => h, fun _ => .inl rfl⟩

/-- With a kernel whose copies are whole. -/
theorem xilXvcIoctl_truthful (hw : Bridge S) (arg : XilXvcIoc) (hop : arg.opcode = 1 ∨ arg.opcode = 2) {k : Kernel}
    (h : k.Whole arg.length) (s : S) : Truthful arg (xilXvcIoctl hw arg k s) := by
  obtain ⟨harg, htms⟩ := h
  have hnop : ¬ (arg.opcode ≠ 1 ∧ arg.opcode ≠ 2) := by omega
  have hnomem : -ENOMEM < 0 := by decide
  unfold xilXvcIoctl
  simp only [harg, ne_eq, not_true_eq_false, if_false]
  rw [if_neg hnop]
  cases hk : k.tmsBufTemp with
  | none => exact early_truthful arg s hnomem
  | some tms =>
    obtain ⟨htms, htdi⟩ := htms (by rw [hk]; rfl)
    simp only [htms, not_true_eq_false, if_false]
    cases hk : k.tdiBufTemp with
    | none => exact early_truthful arg s hnomem
    | some tdi =>
      obtain ⟨htdi, htdo⟩ := htdi (by rw [hk]; rfl)
      simp only [htdi, not_true_eq_false, if_false]
      cases hk : k.tdoBufTemp with
      | none => exact early_truthful arg s hnomem
      | some tdo => exact shiftVector_truthful hw (htdo (by rw [hk]; rfl)) _ _ tdo k.tdoLeft s

/-! ## A bridge that is never busy -/

/-- All registers read 0. -/
def quiet : Bridge Unit := ⟨fun _ _ _ => (), fun _ _ => ((), 0)⟩

theorem quiet_shiftBits (s : Unit) (tms tdi : Nat) : xilXvcShiftBits quiet s tms tdi = ((), some 0) := by
  have hpoll : pollControl quiet 100 () = ((), true) := by decide
  exact if_pos (congrArg Prod.snd hpoll)

theorem quiet_loop (numBits : Nat) (tms tdi : Block) (fuel currentBit : Nat) (w : Shifting Unit) :
    (ioctlLoop quiet numBits tms tdi fuel currentBit w).2 = 0 := by
  induction fuel generalizing currentBit w with
  | zero => rfl
  | succ fuel ih =>
    rw [ioctlLoop]
    by_cases h : currentBit < numBits
    · rw [if_pos h]
      simp only [quiet_shiftBits]
      exact ih _ _
    · rw [if_neg h]

theorem quiet_shiftVector (arg : XilXvcIoc) (tms tdi tdo : Block) (tdoLeft : Nat) :
    ∃ r, shiftVector quiet arg tms tdi tdo tdoLeft () = r ∧
      (notCopied tdoLeft (numBytes arg.length) = 0 → r.status = 0) ∧
      ∃ l, r.delivered = some l ∧ l.length ≤ numBytes arg.length := by
  have hloop := quiet_loop arg.length tms tdi (rounds arg.length) 0 ⟨prepare quiet arg (), tdo, 0, []⟩
  refine ⟨_, rfl, fun h => ?_, ?_⟩
  · unfold shiftVector
    simp only [hloop, ne_eq, not_true_eq_false, if_false, h]
  · unfold shiftVector
    simp only [hloop, ne_eq, not_true_eq_false, if_false]
    exact ⟨_, rfl, by rw [Block.length_load]; exact Nat.sub_le _ _⟩

/-- What is not true of a copy that is not whole, or of a wrapped `num_bytes`, once the bridge completes every
word: the status is positive with nothing delivered, or it is 0 with too few bytes. -/
theorem quiet_call (arg : XilXvcIoc) (hop : arg.opcode = 1 ∨ arg.opcode = 2) (hmax : arg.length < 2 ^ 32) {k : Kernel}
    (h : ¬ k.Whole arg.length) :
    0 ≤ (xilXvcIoctl quiet arg k ()).status ∧ ¬ Complete arg (xilXvcIoctl quiet arg k ()) := by
  have hnop : ¬ (arg.opcode ≠ 1 ∧ arg.opcode ≠ 2) := by omega
  -- A return with what a copy left.
  have hearly : ∀ n : Nat, 0 ≤ (IoctlResult.early () (n : Int)).status ∧
    ¬ Complete arg (IoctlResult.early () (n : Int)) := by
    intro n
    refine ⟨Int.natCast_nonneg n, ?_⟩
    rintro ⟨-, l, hl, -⟩
    cases hl
  unfold xilXvcIoctl
  by_cases harg : notCopied k.argLeft 32 = 0
  · simp only [harg, ne_eq, not_true_eq_false, if_false]
    rw [if_neg hnop]
    cases hk : k.tmsBufTemp with
    | none => exact absurd ⟨harg, fun hs => by rw [hk] at hs; cases hs⟩ h
    | some tms =>
      by_cases htms : notCopied k.tmsLeft (numBytes arg.length) = 0
      · simp only [htms, not_true_eq_false, if_false]
        cases hk : k.tdiBufTemp with
        | none => exact absurd ⟨harg, fun _ => ⟨htms, fun hs => by rw [hk] at hs; cases hs⟩⟩ h
        | some tdi =>
          by_cases htdi : notCopied k.tdiLeft (numBytes arg.length) = 0
          · simp only [htdi, not_true_eq_false, if_false]
            cases hk : k.tdoBufTemp with
            | none => exact absurd ⟨harg, fun _ => ⟨htms, fun _ => ⟨htdi, fun hs => by rw [hk] at hs; cases hs⟩⟩⟩ h
            | some tdo =>
              -- The words complete, and none of their bytes is copied.
              have hwrap : ¬ arg.length + 7 < 2 ^ 32 :=
                fun hfit => h ⟨harg, fun _ => ⟨htms, fun _ => ⟨htdi, fun _ => hfit⟩⟩⟩
              have hzero : numBytes arg.length = 0 := by
                unfold numBytes
                omega
              obtain ⟨r, hr, hstatus, l, hl, hlen⟩ := quiet_shiftVector arg
                (tms.store 0 (slice arg.tmsBuf 0 (numBytes arg.length)))
                (tdi.store 0 (slice arg.tdiBuf 0 (numBytes arg.length))) tdo k.tdoLeft
              simp only [hr]
              refine ⟨Int.le_of_eq (hstatus (by rw [hzero]; exact Nat.min_zero _)).symm, ?_⟩
              rintro ⟨-, l', hl', hlen'⟩
              rw [hl, Option.some.injEq] at hl'
              rw [← hl'] at hlen'
              omega
          · simp only [htdi, not_false_eq_true, if_true]
            exact hearly _
      · simp only [htms, not_false_eq_true, if_true]
        exact hearly _
  · simp only [harg, ne_eq, not_false_eq_true, if_true]
    exact hearly _

/-! ## The two programs -/

/-- No reply is written for a shift that is not complete. -/
def HonestReply (hw : Bridge S) (k : Kernel) (len : Int) (input : List UInt8) (buffer result : ByteMem)
    (s : S) : Prop :=
  (shiftIoctl hw k len input buffer result s).reply.isSome →
    Complete (request len (vectorsRead input buffer)) (ioctlCall hw k len input buffer s)

theorem shiftIoctl_reply {hw : Bridge S} {k : Kernel} {len : Int} {input : List UInt8}
    {buffer result : ByteMem} {s : S} :
    (shiftIoctl hw k len input buffer result s).reply.isSome ↔
      exceeds len = false ∧ 0 ≤ (ioctlCall hw k len input buffer s).status := by
  unfold shiftIoctl
  cases exceeds len with
  | true => simp
  | false =>
    by_cases h : (ioctlCall hw k len input buffer s).status < 0
    · simp [h]
    · have hle := Int.not_lt.mp h
      simp [h, hle]

/-- **The status.** A call for a shift or a bypass is told as it is with every bridge, however long it stays
busy, if and only if the copies from user space that it comes to are whole and `num_bytes` is not wrapped;
and so it is with the reply to the client. -/
theorem ioctl_truthful_iff (k : Kernel) :
    (∀ arg : XilXvcIoc, arg.opcode = 1 ∨ arg.opcode = 2 → arg.length < 2 ^ 32 →
      ((∀ (S : Type) (hw : Bridge S) (s : S), Truthful arg (xilXvcIoctl hw arg k s)) ↔ k.Whole arg.length)) ∧
    ∀ (len : Int) (input : List UInt8) (buffer result : ByteMem),
      ((∀ (S : Type) (hw : Bridge S) (s : S), HonestReply hw k len input buffer result s) ↔
        (exceeds len = false → k.Whole (u32OfInt len))) := by
  constructor
  · intro arg hop hmax
    constructor
    · intro hall
      have htruth := hall Unit quiet ()
      refine Classical.byContradiction fun hwhole => ?_
      obtain ⟨hstatus, hcomplete⟩ := quiet_call arg hop hmax hwhole
      by_cases h0 : (xilXvcIoctl quiet arg k ()).status = 0
      · exact hcomplete (htruth.zero h0)
      · have hneg := htruth.negative h0
        omega
    · intro hwhole S hw s
      exact xilXvcIoctl_truthful hw arg hop hwhole s
  · intro len input buffer result
    have hmax : (request len (vectorsRead input buffer)).length < 2 ^ 32 := by
      show u32OfInt len < 2 ^ 32
      unfold u32OfInt
      omega
    constructor
    · intro hall hfits
      refine Classical.byContradiction fun hwhole => ?_
      obtain ⟨hstatus, hcomplete⟩ := quiet_call (request len (vectorsRead input buffer)) (.inl rfl) hmax hwhole
      exact hcomplete (hall Unit quiet () (shiftIoctl_reply.mpr ⟨hfits, hstatus⟩))
    · intro hwhole S hw s hreply
      obtain ⟨hfits, hstatus⟩ := shiftIoctl_reply.mp hreply
      have htruth := xilXvcIoctl_truthful hw (request len (vectorsRead input buffer)) (.inl rfl) (hwhole hfits) s
      by_cases h0 : (ioctlCall hw k len input buffer s).status = 0
      · exact htruth.zero h0
      · have hneg := htruth.negative h0
        exact absurd hneg (Int.not_lt.mpr hstatus)

theorem ioctl_truthful_iff_calm :
    (∀ (S : Type) (hw : Bridge S) (s : S),
        Truthful ⟨1, 8, fun _ => 5, fun _ => 7⟩ (xilXvcIoctl hw ⟨1, 8, fun _ => 5, fun _ => 7⟩ calmKernel s)) ↔
      calmKernel.Whole 8 :=
  (ioctl_truthful_iff calmKernel).1 ⟨1, 8, fun _ => 5, fun _ => 7⟩ (.inl rfl) (by decide)

/-- One byte of TMS is not copied: the status is 1, nothing is shifted, and the client gets a byte of zeros. -/
theorem short_copy_reply :
    ¬ Truthful ⟨1, 8, fun _ => 5, fun _ => 7⟩
        (xilXvcIoctl quiet ⟨1, 8, fun _ => 5, fun _ => 7⟩ { calmKernel with tmsLeft := 1 } ()) ∧
      ¬ HonestReply quiet { calmKernel with tmsLeft := 1 } 8 [5, 7] (fun _ => 0) (fun _ => 0) () := by
  have hstatus : (xilXvcIoctl quiet ⟨1, 8, fun _ => 5, fun _ => 7⟩ { calmKernel with tmsLeft := 1 } ()).status = 1 := by
    decide
  have hreply : (shiftIoctl quiet { calmKernel with tmsLeft := 1 } 8 [5, 7] (fun _ => 0) (fun _ => 0) ()).reply =
      some [0] := by decide
  have hnone : (ioctlCall quiet { calmKernel with tmsLeft := 1 } 8 [5, 7] (fun _ => 0) ()).delivered = none := by decide
  constructor
  · intro h
    have hneg := h.negative (by rw [hstatus]; decide)
    rw [hstatus] at hneg
    exact absurd hneg (by decide)
  · intro h
    obtain ⟨-, l, hl, -⟩ := h (by rw [hreply]; rfl)
    rw [hnone] at hl
    cases hl

end ZynqMP
end Xvc
