import Xvc.Lib.Block
import Xvc.ZynqMP.Bridge
import Xvc.ZynqMP.DriverBase

/-!
# `xil_xvc_ioctl`

`jtag/zynqMP/src/driver/xvc_driver.c`, over any bridge. What the kernel does is a `Kernel`: the memory
that its allocations give out, and how much each copy leaves undone.

* `ioctlLoop`: the words. It goes by bits, and writes LENGTH before the last, short word only.
* `xilXvcIoctl`: the whole call, with its failures.
* `xil_xvc_ioctl_serial`: over a device that is in time, a call that no failure ends early is a
  bit-serial run.
-/

namespace Xvc
namespace ZynqMP

open ByteMem BitSerial Zynq7000

variable {S : Type}

/-! ## The code -/

def EFAULT : Int := 14
def ETIMEDOUT : Int := 110

/-- `struct xil_xvc_ioc`, with the user's memory at `tms_buf` and at `tdi_buf`. -/
structure XilXvcIoc where
  opcode : Nat
  length : Nat
  tmsBuf : ByteMem
  tdiBuf : ByteMem

/-- How the kernel's functions come out: the bytes that each copy leaves, and the block of each `kmalloc`,
none for `NULL`. -/
structure Kernel where
  argLeft : Nat
  tmsBufTemp : Option Block
  tmsLeft : Nat
  tdiBufTemp : Option Block
  tdiLeft : Nat
  tdoBufTemp : Option Block
  tdoLeft : Nat

/-- What `copy_from_user` and `copy_to_user` return: of `n` bytes, those that were not copied. -/
def notCopied (left n : Nat) : Nat := min left n

/-- The state of the bridge, the status, and what has been done: the bytes that the last copy delivers, none
when the call does not come to it, the bits of the words that completed, and the offset and length of each
word in the three blocks. -/
structure IoctlResult (S : Type) where
  hw : S
  status : Int
  delivered : Option (List UInt8)
  shifted : Nat
  accesses : List (Int × Nat)

/-- A return before the first register access. -/
def IoctlResult.early (hw : S) (status : Int) : IoctlResult S := ⟨hw, status, none, 0, []⟩

/-- `num_bytes`, from a `u32`. -/
def numBytes (numBits : Nat) : Nat := (numBits + 7) % 2 ^ 32 / 8

/-- The loop's variables: the bridge, `tdo_buf_temp`, and what has been done. -/
structure Shifting (S : Type) where
  hw : S
  tdo : Block
  shifted : Nat
  accesses : List (Int × Nat)

/-- `current_bit / 8`; the comparison takes `current_bit` for a `u32`, the index for an `int`. -/
def byteOffset (currentBit : Nat) : Int := (int32 currentBit).tdiv 8

/-- The `while (current_bit < num_bits)` loop, for at most `fuel` rounds. -/
def ioctlLoop (hw : Bridge S) (numBits : Nat) (tms tdi : Block) :
    (fuel currentBit : Nat) → Shifting S → Shifting S × Int
  | 0, _, w => (w, 0)
  | fuel + 1, currentBit, w =>
    if currentBit < numBits then
      let short := numBits - currentBit < 32
      let shiftNumBits := if short then numBits - currentBit else 32
      let s := if short then hw.iowrite32 w.hw lengthRegOffset shiftNumBits else w.hw
      let shiftNumBytes := (shiftNumBits + 7) / 8
      let offset := byteOffset currentBit
      let tmsStore := ofLe (tms.load offset shiftNumBytes)
      let tdiStore := ofLe (tdi.load offset shiftNumBytes)
      let accesses := w.accesses ++ [(offset, shiftNumBytes)]
      let r := xilXvcShiftBits hw s tmsStore tdiStore
      match r.2 with
      | none => (⟨r.1, w.tdo, w.shifted, accesses⟩, -ETIMEDOUT)
      | some tdoStore =>
        ioctlLoop hw numBits tms tdi fuel (currentBit + shiftNumBits)
          ⟨r.1, w.tdo.store offset ((leBytes 4 tdoStore).take shiftNumBytes), w.shifted + shiftNumBits, accesses⟩
    else (w, 0)

/-- The rounds that the loop makes, and the test that ends it. -/
def rounds (numBits : Nat) : Nat := (numBits + 31) / 32 + 1

/-- The first register accesses: `bypass_status`, and LENGTH when there is a whole word. -/
def prepare (hw : Bridge S) (arg : XilXvcIoc) (s : S) : S :=
  let bypassStatus := if arg.opcode = 2 then 2 else 0
  let s := hw.iowrite32 s controlRegOffset bypassStatus
  if 32 ≤ arg.length then hw.iowrite32 s lengthRegOffset 32 else s

/-- From the first register access on. -/
def shiftVector (hw : Bridge S) (arg : XilXvcIoc) (tms tdi tdo : Block) (tdoLeft : Nat) (s : S) : IoctlResult S :=
  let w := ioctlLoop hw arg.length tms tdi (rounds arg.length) 0 ⟨prepare hw arg s, tdo, 0, []⟩
  if w.2 ≠ 0 then ⟨w.1.hw, w.2, none, w.1.shifted, w.1.accesses⟩
  else
    let n := numBytes arg.length
    let left := notCopied tdoLeft n
    ⟨w.1.hw, if left ≠ 0 then -EFAULT else 0, some (w.1.tdo.load 0 (n - left)), w.1.shifted, w.1.accesses⟩

/-- `xil_xvc_ioctl`, on the request `arg`. -/
def xilXvcIoctl (hw : Bridge S) (arg : XilXvcIoc) (k : Kernel) (s : S) : IoctlResult S :=
  let n := numBytes arg.length
  if notCopied k.argLeft 32 ≠ 0 then .early s (notCopied k.argLeft 32)
  else if arg.opcode ≠ 1 ∧ arg.opcode ≠ 2 then .early s 0
  else
    match k.tmsBufTemp with
    | none => .early s (-ENOMEM)
    | some tms =>
      if notCopied k.tmsLeft n ≠ 0 then .early s (notCopied k.tmsLeft n)
      else
        match k.tdiBufTemp with
        | none => .early s (-ENOMEM)
        | some tdi =>
          if notCopied k.tdiLeft n ≠ 0 then .early s (notCopied k.tdiLeft n)
          else
            match k.tdoBufTemp with
            | none => .early s (-ENOMEM)
            | some tdo =>
              shiftVector hw arg (tms.store 0 (slice arg.tmsBuf 0 n)) (tdi.store 0 (slice arg.tdiBuf 0 n)) tdo
                k.tdoLeft s

theorem notCopied_zero (n : Nat) : notCopied 0 n = 0 := Nat.zero_min n

/-- A shift whose words all complete. -/
theorem shiftVector_done (hw : Bridge S) (arg : XilXvcIoc) {tms tdi tdo : Block} (s : S) {w : Shifting S}
    (h : ioctlLoop hw arg.length tms tdi (rounds arg.length) 0 ⟨prepare hw arg s, tdo, 0, []⟩ = (w, 0))
    (tdoLeft : Nat) :
    shiftVector hw arg tms tdi tdo tdoLeft s =
      let left := notCopied tdoLeft (numBytes arg.length)
      ⟨w.hw, if left ≠ 0 then -EFAULT else 0, some (w.tdo.load 0 (numBytes arg.length - left)), w.shifted,
        w.accesses⟩ := by
  unfold shiftVector
  simp only [h]
  rw [if_neg (fun hne => hne rfl)]

/-! ## The words over a device -/

variable {step : S → Bool → Bool → S × Bool} {dev : Device S}

/-- The clocks for `t` bits of the two blocks from byte `k` on. -/
def wave (tms tdi : Block) (k t : Nat) : List (Bool × Bool) := (bits tms.mem k t).zip (bits tdi.mem k t)

theorem wave_add (tms tdi : Block) (k t : Nat) :
    wave tms tdi k (32 + t) = wave tms tdi k 32 ++ wave tms tdi (k + 4) t := by
  have h1 := bits_add tms.mem k 4 t
  have h2 := bits_add tdi.mem k 4 t
  simp only [wave]
  rw [← List.zip_append (by simp), ← h1, ← h2]

/-- The values of LENGTH for `t` bits: whole words, then the rest. -/
def wordLengths (t : Nat) : List Nat := List.replicate (t / 32) 32 ++ if t % 32 = 0 then [] else [t % 32]

theorem wordLengths_short {t : Nat} (hpos : 0 < t) (h : t < 32) : wordLengths t = [t] := by
  unfold wordLengths
  rw [Nat.div_eq_of_lt h, Nat.mod_eq_of_lt h, if_neg (by omega)]
  rfl

theorem wordLengths_add (t : Nat) : wordLengths (32 + t) = 32 :: wordLengths t := by
  unfold wordLengths
  rw [show (32 + t) / 32 = t / 32 + 1 by omega, Nat.add_mod_left, List.replicate_succ]
  rfl

theorem byteOffset_natCast {k : Nat} (h : 8 * k < 2 ^ 31) : byteOffset (8 * k) = k := by
  have hint : int32 ((8 * k : Nat) : Int) = ((8 * k : Nat) : Int) := int32_of_range (by omega) (by omega)
  rw [byteOffset, hint, Int.tdiv_eq_ediv_of_nonneg (by omega)]
  omega

/-- From `r` to `q`, with the bypass off, a bridge clocks the `t` bits of the blocks from byte `k` on; `out` is TDO's
vector. -/
structure Clocked (step : S → Bool → Bool → S × Bool) (tms tdi : Block) (k t : Nat) (r q : Regs S)
    (out : List UInt8) : Prop where
  control : q.control = 0
  length : out.length = (t + 7) / 8
  state : q.state = (run step r.state (wave tms tdi k t)).1
  clocks : clocks q.triggers = clocks r.triggers ++ wave tms tdi k t
  lengths : q.triggers.map Trigger.length = r.triggers.map Trigger.length ++ wordLengths t
  tdo : vectorBits out t = (run step r.state (wave tms tdi k t)).2

theorem Clocked.none {tms tdi : Block} {k : Nat} {r : Regs S} (h : r.control = 0) : Clocked step tms tdi k 0 r r [] :=
  ⟨h, rfl, rfl, (List.append_nil _).symm, (List.append_nil _).symm, rfl⟩

/-- A whole word, and what follows it. -/
theorem Clocked.append {tms tdi : Block} {k t : Nat} {r q p : Regs S} {out l : List UInt8}
    (h : Clocked step tms tdi k 32 r q out) (h' : Clocked step tms tdi (k + 4) t q p l) :
    Clocked step tms tdi k (32 + t) r p (out ++ l) where
  control := h'.control
  length := by rw [List.length_append, h.length, h'.length]; omega
  state := by rw [h'.state, h.state, wave_add, run_append]
  clocks := by rw [h'.clocks, h.clocks, wave_add, List.append_assoc]
  lengths := by
    rw [h'.lengths, h.lengths, wordLengths_add, List.append_assoc]
    rfl
  tdo := by
    have hsplit := vectorBits_append out l t
    rw [h.length] at hsplit
    rw [show 32 + t = 8 * ((32 + 7) / 8) + t from rfl, hsplit, h'.tdo, h.state, wave_add, run_append, ← h.tdo]

/-- LENGTH is written, and one trigger made. -/
theorem shifted_clocked (hs : dev.Serial step) (tms tdi : Block) (k : Nat) (r : Regs S) {m : Nat}
    (hpos : 0 < m) (hmax : m ≤ 32) :
    let w := (m + 7) / 8
    let q := Regs.shifted dev { r with length := m } (ofLe (tms.load k w)) (ofLe (tdi.load k w))
    Clocked step tms tdi k m r q ((leBytes 4 q.tdo).take w) := by
  intro w q
  have hw : w ≤ 4 := by omega
  have hm : m ≤ 8 * w := by omega
  have hv : (wordBits m (ofLe (tms.load k w))).zip (wordBits m (ofLe (tdi.load k w))) = wave tms tdi k m := by
    rw [Block.load_natCast, Block.load_natCast, wordBits_ofLe tms.mem k hm, wordBits_ofLe tdi.mem k hm]
    rfl
  refine ⟨rfl, ?_, ?_, ?_, ?_, ?_⟩
  · rw [List.length_take, length_leBytes]
    omega
  · rw [← hv]
    exact hs.state _ _ _ _ hpos hmax
  · rw [← hv]
    exact clocks_append _ _
  · have hone : wordLengths m = [m] := by
      rcases Nat.lt_or_eq_of_le hmax with hlt | heq
      · exact wordLengths_short hpos hlt
      · rw [heq]
        rfl
    rw [hone]
    exact List.map_append
  · rw [vectorBits_leBytes _ hw hm, ← hv]
    exact hs.tdo _ _ _ _ hpos hmax

/-- A round: the word at byte `k`, of the `t` bits that are left. -/
theorem ioctlLoop_word (ht : dev.InTime) (hs : dev.Serial step) {numBits k t m : Nat} {r : Regs S} (hi : r.control = 0)
    (hbound : numBits < 2 ^ 31) (hleft : 8 * k + t = numBits) (hpos : 0 < t) (hm : m = min t 32)
    (hlen : 32 ≤ t → r.length = 32) (tms tdi : Block) (fuel : Nat) :
    ∃ (q : Regs S) (out : List UInt8), q.length = m ∧ Clocked step tms tdi k m r q out ∧
      ∀ tms' tdi', Block.Agrees ((numBits + 7) / 8) tms' tms → Block.Agrees ((numBits + 7) / 8) tdi' tdi →
        ∀ tdo sh acc, ∃ acc', ioctlLoop (debugBridge dev) numBits tms' tdi' (fuel + 1) (8 * k) ⟨r, tdo, sh, acc⟩ =
          ioctlLoop (debugBridge dev) numBits tms' tdi' fuel (8 * k + m) ⟨q, tdo.store k out, sh + m, acc'⟩ := by
  have hi' : ({ r with length := m } : Regs S).control = 0 := hi
  have hshort : (if numBits - 8 * k < 32 then numBits - 8 * k else 32) = m := by split <;> omega
  have hset : (if numBits - 8 * k < 32 then (debugBridge dev).iowrite32 r lengthRegOffset m else r) =
      { r with length := m } := by
    by_cases h : numBits - 8 * k < 32
    · rw [if_pos h]
      rfl
    · rw [if_neg h, show m = r.length by rw [hlen (by omega)]; omega]
  have hc := shifted_clocked hs tms tdi k r (m := m) (by omega) (by omega)
  refine ⟨_, _, rfl, hc, fun tms' tdi' htms htdi tdo sh acc => ⟨acc ++ [((k : Int), (m + 7) / 8)], ?_⟩⟩
  have hw : k + (m + 7) / 8 ≤ (numBits + 7) / 8 := by omega
  rw [ioctlLoop, if_pos (by omega)]
  simp only [hshort, hset, byteOffset_natCast (show 8 * k < 2 ^ 31 by omega), Block.load_congr htms hw,
    Block.load_congr htdi hw, xilXvcShiftBits_inTime ht hi']

/-- The loop on the last `t` bits, from byte `k` on, by induction on `t`: a whole word, then the rest. What
it stores does not depend on what the block held, nor on what is behind the two vectors. -/
theorem ioctlLoop_spec (ht : dev.InTime) (hs : dev.Serial step) {numBits : Nat} (hbound : numBits < 2 ^ 31)
    (tms tdi : Block) (t k fuel : Nat) (hleft : 8 * k + t = numBits) (hfuel : (t + 31) / 32 < fuel) (r : Regs S)
    (hi : r.control = 0) (hlen : 32 ≤ t → r.length = 32) :
    ∃ (q : Regs S) (out : List UInt8), Clocked step tms tdi k t r q out ∧
      ∀ tms' tdi', Block.Agrees ((numBits + 7) / 8) tms' tms → Block.Agrees ((numBits + 7) / 8) tdi' tdi →
        ∀ tdo sh acc, ∃ acc', ioctlLoop (debugBridge dev) numBits tms' tdi' fuel (8 * k) ⟨r, tdo, sh, acc⟩ =
          (⟨q, tdo.store k out, sh + t, acc'⟩, 0) := by
  induction t using Nat.strongRecOn generalizing k fuel r with
  | ind t ih =>
    obtain ⟨fuel, rfl⟩ : ∃ f, fuel = f + 1 := ⟨fuel - 1, by omega⟩
    rcases Nat.eq_zero_or_pos t with rfl | hpos
    · refine ⟨r, [], Clocked.none hi, fun tms' tdi' _ _ tdo sh acc => ⟨acc, ?_⟩⟩
      rw [ioctlLoop, if_neg (by omega), Block.store_nil]
      rfl
    · obtain ⟨q, out, hq, hc, hword⟩ := ioctlLoop_word ht hs hi hbound hleft hpos rfl hlen tms tdi fuel
      by_cases h32 : t < 32
      · -- The last word.
        rw [Nat.min_eq_left (by omega)] at hc hword
        refine ⟨q, out, hc, fun tms' tdi' htms htdi tdo sh acc => ?_⟩
        obtain ⟨acc', h⟩ := hword tms' tdi' htms htdi tdo sh acc
        obtain ⟨f, rfl⟩ : ∃ f, fuel = f + 1 := ⟨fuel - 1, by omega⟩
        refine ⟨acc', ?_⟩
        rw [h, ioctlLoop, if_neg (by omega)]
      · obtain ⟨u, rfl⟩ : ∃ u, t = 32 + u := ⟨t - 32, by omega⟩
        rw [Nat.min_eq_right (by omega)] at hq hc hword
        obtain ⟨p, l, hc', hrest⟩ := ih u (by omega) (k + 4) fuel (by omega) (by omega) q hc.control (fun _ => hq)
        refine ⟨p, out ++ l, hc.append hc', fun tms' tdi' htms htdi tdo sh acc => ?_⟩
        obtain ⟨acc', h⟩ := hword tms' tdi' htms htdi tdo sh acc
        obtain ⟨acc'', h'⟩ := hrest tms' tdi' htms htdi (tdo.store k out) (sh + 32) acc'
        have hstore : (tdo.store k out).store ((k + 4 : Nat) : Int) l = tdo.store k (out ++ l) := by
          rw [← Block.store_append, hc.length]
          rfl
        refine ⟨acc'', ?_⟩
        rw [h, show 8 * k + 32 = 8 * (k + 4) by omega, h', hstore, Nat.add_assoc]

/-! ## The call over a device -/

/-- Nothing in the kernel fails. -/
structure Kernel.Succeeds (k : Kernel) : Prop where
  arg : k.argLeft = 0
  tmsBufTemp : k.tmsBufTemp.isSome
  tms : k.tmsLeft = 0
  tdiBufTemp : k.tdiBufTemp.isSome
  tdi : k.tdiLeft = 0
  tdoBufTemp : k.tdoBufTemp.isSome
  tdo : k.tdoLeft = 0

theorem numBytes_eq {n : Nat} (h : n + 7 < 2 ^ 32) : numBytes n = (n + 7) / 8 := by
  unfold numBytes
  rw [Nat.mod_eq_of_lt h]

/-- A call that no failure of the kernel ends early is the shift of the copied vectors. -/
theorem xilXvcIoctl_succeeds (hw : Bridge S) (arg : XilXvcIoc) (hop : arg.opcode = 1) {k : Kernel}
    (h : k.Succeeds) (s : S) :
    ∃ tms tdi tdo : Block, xilXvcIoctl hw arg k s =
      shiftVector hw arg (tms.store 0 (slice arg.tmsBuf 0 (numBytes arg.length)))
        (tdi.store 0 (slice arg.tdiBuf 0 (numBytes arg.length))) tdo 0 s := by
  obtain ⟨h1, h2, h3, h4, h5, h6, h7⟩ := h
  obtain ⟨argLeft, tmsTemp, tmsLeft, tdiTemp, tdiLeft, tdoTemp, tdoLeft⟩ := k
  cases h1
  cases h3
  cases h5
  cases h7
  obtain ⟨tms, rfl⟩ := Option.isSome_iff_exists.mp h2
  obtain ⟨tdi, rfl⟩ := Option.isSome_iff_exists.mp h4
  obtain ⟨tdo, rfl⟩ := Option.isSome_iff_exists.mp h6
  refine ⟨tms, tdi, tdo, ?_⟩
  unfold xilXvcIoctl
  simp only [notCopied_zero, hop]
  rfl

/-- The bits of a block that a vector was copied to. -/
theorem bits_store (b : Block) (l : List UInt8) {t : Nat} (h : t ≤ 8 * l.length) :
    bits (b.store 0 l).mem 0 t = vectorBits l t := by
  have hload : slice (b.store 0 l).mem 0 l.length = l := by
    rw [← Block.load_natCast]
    exact Block.load_store b 0 l
  rw [bits_eq_vectorBits h, hload]

/-- The clocks of a request: the bits of its two vectors. -/
def XilXvcIoc.clocks (arg : XilXvcIoc) : List (Bool × Bool) :=
  let n := (arg.length + 7) / 8
  (vectorBits (slice arg.tmsBuf 0 n) arg.length).zip (vectorBits (slice arg.tdiBuf 0 n) arg.length)

theorem wave_copied (b b' : Block) (arg : XilXvcIoc) :
    wave (b.store 0 (slice arg.tmsBuf 0 ((arg.length + 7) / 8)))
      (b'.store 0 (slice arg.tdiBuf 0 ((arg.length + 7) / 8))) 0
      arg.length = arg.clocks := by
  have hlen : ∀ m : ByteMem, arg.length ≤ 8 * (slice m 0 ((arg.length + 7) / 8)).length := by
    intro m
    rw [length_slice]
    omega
  unfold wave XilXvcIoc.clocks
  rw [bits_store _ _ (hlen _), bits_store _ _ (hlen _)]

/-- What a call makes of a device: `q` are the registers after it, `out` is what it delivers. -/
structure BitSerially (step : S → Bool → Bool → S × Bool) (arg : XilXvcIoc) (r q : Regs S)
    (out : List UInt8) : Prop where
  length : out.length = (arg.length + 7) / 8
  state : q.state = (run step r.state arg.clocks).1
  clocks : clocks q.triggers = clocks r.triggers ++ arg.clocks
  lengths : q.triggers.map Trigger.length = r.triggers.map Trigger.length ++ wordLengths arg.length
  tdo : vectorBits out arg.length = (run step r.state arg.clocks).2

/-- The registers at the loop: the bypass off, and LENGTH for whole words. -/
def Regs.prepared (r : Regs S) (numBits : Nat) : Regs S :=
  { r with control := 0, length := if 32 ≤ numBits then 32 else r.length }

theorem prepare_eq (dev : Device S) {arg : XilXvcIoc} (hop : arg.opcode = 1) (r : Regs S) :
    prepare (debugBridge dev) arg r = r.prepared arg.length := by
  unfold prepare Regs.prepared
  rw [hop]
  by_cases h : 32 ≤ arg.length
  · simp only [h, if_true]
    rfl
  · simp only [h, if_false]
    rfl

/-- The shift of copied vectors, whatever the allocated blocks held. -/
theorem shiftVector_serially (ht : dev.InTime) (hs : dev.Serial step) (arg : XilXvcIoc) (hop : arg.opcode = 1)
    (hbound : arg.length < 2 ^ 31) (r : Regs S) :
    ∃ q out, BitSerially step arg r q out ∧
      ∀ tms tdi tdo : Block, ∃ acc, shiftVector (debugBridge dev) arg
          (tms.store 0 (slice arg.tmsBuf 0 (numBytes arg.length)))
          (tdi.store 0 (slice arg.tdiBuf 0 (numBytes arg.length))) tdo 0 r =
        ⟨q, 0, some out, arg.length, acc⟩ := by
  have hn : numBytes arg.length = (arg.length + 7) / 8 := numBytes_eq (by omega)
  let zero : Block := fun _ => 0
  obtain ⟨q, out, hc, hloop⟩ := ioctlLoop_spec ht hs hbound (zero.store 0 (slice arg.tmsBuf 0 ((arg.length + 7) / 8)))
    (zero.store 0 (slice arg.tdiBuf 0 ((arg.length + 7) / 8))) arg.length 0 (rounds arg.length) (by omega)
    (Nat.lt_succ_self _) (r.prepared arg.length) rfl (fun h => if_pos h)
  have hwave := wave_copied zero zero arg
  have hserially : BitSerially step arg r q out := by
    refine ⟨hc.length, ?_, ?_, hc.lengths, ?_⟩
    · rw [← hwave, hc.state]
      rfl
    · rw [← hwave, hc.clocks]
      rfl
    · rw [← hwave, hc.tdo]
      rfl
  refine ⟨q, out, hserially, fun tms tdi tdo => ?_⟩
  -- The blocks differ in what was not copied to.
  have hagrees : ∀ (b : Block) (m : ByteMem), Block.Agrees ((arg.length + 7) / 8)
      (b.store 0 (slice m 0 ((arg.length + 7) / 8))) (zero.store 0 (slice m 0 ((arg.length + 7) / 8))) := by
    intro b m
    have h := Block.agrees_store b zero (slice m 0 ((arg.length + 7) / 8))
    rwa [length_slice] at h
  obtain ⟨acc, h⟩ := hloop _ _ (hagrees tms arg.tmsBuf) (hagrees tdi arg.tdiBuf) tdo 0 []
  have hout : (tdo.store ((0 : Nat) : Int) out).load 0 ((arg.length + 7) / 8) = out := by
    rw [← hc.length]
    exact Block.load_store tdo 0 out
  have hdone := shiftVector_done (debugBridge dev) arg r (by rw [prepare_eq dev hop]; exact h) 0
  simp only [hn, notCopied_zero, Nat.sub_zero, hout, Nat.zero_add] at hdone
  rw [hn]
  exact ⟨acc, hdone⟩

/-- **A call over a device.** With any device that takes one bit a clock and is in time, from any registers,
for any vectors of less than 2^31 bits: whatever the allocated blocks held, the status is 0, the device gets
exactly the clocks of the vectors, with LENGTH right at every trigger, and the delivered bytes, all of them
written by the call, hold its answers. -/
theorem xil_xvc_ioctl_serial (ht : dev.InTime) (hs : dev.Serial step) (arg : XilXvcIoc) (hop : arg.opcode = 1)
    (hbound : arg.length < 2 ^ 31) (r : Regs S) :
    ∃ q out, BitSerially step arg r q out ∧
      ∀ k : Kernel, k.Succeeds → let result := xilXvcIoctl (debugBridge dev) arg k r
        result.status = 0 ∧ result.hw = q ∧ result.delivered = some out ∧ result.shifted = arg.length := by
  obtain ⟨q, out, hq, hshift⟩ := shiftVector_serially ht hs arg hop hbound r
  refine ⟨q, out, hq, fun k hk => ?_⟩
  obtain ⟨tms, tdi, tdo, hcall⟩ := xilXvcIoctl_succeeds (debugBridge dev) arg hop hk r
  obtain ⟨acc, h⟩ := hshift tms tdi tdo
  intro result
  have hresult : result = ⟨q, 0, some out, arg.length, acc⟩ := hcall.trans h
  rw [hresult]
  exact ⟨rfl, rfl, rfl, rfl⟩

/-- A device that counts its clocks, and is busy for as long as the driver waits. -/
def countingDevice : Device Nat := ⟨Engine.of counting, Engine.of counting, fun _ => 99⟩

theorem countingDevice_inTime : countingDevice.InTime := fun _ => by
  show 99 < 100
  decide

/-- The registers before the first shift. -/
def Regs.initial (s : S) : Regs S := ⟨s, 0, 0, 0, 0, 0, 0, []⟩

/-- 40 bits are a whole word and a byte. -/
theorem xil_xvc_ioctl_serial_40 :
    ∃ q out, BitSerially counting ⟨1, 40, fun _ => 5, fun _ => 7⟩ (Regs.initial 0) q out ∧
      ∀ k : Kernel, k.Succeeds →
        let result := xilXvcIoctl (debugBridge countingDevice) ⟨1, 40, fun _ => 5, fun _ => 7⟩ k (Regs.initial 0)
        result.status = 0 ∧ result.hw = q ∧ result.delivered = some out ∧ result.shifted = 40 :=
  xil_xvc_ioctl_serial countingDevice_inTime (Engine.of_serial counting)
    ⟨1, 40, fun _ => 5, fun _ => 7⟩ rfl (by decide) _

end ZynqMP
end Xvc
