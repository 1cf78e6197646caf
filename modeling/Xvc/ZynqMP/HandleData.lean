import Xvc.ZynqMP.XilXvcIoctl

/-!
# The `shift:` branch of `zynqMP`

`handle_data` of `jtag/zynqMP/src/user/xvcServer.c`, from the point where `len` has been read. It is compiled
in one of two modes: with `USE_IOCTL` the driver shifts, without it `handle_data` writes to the registers.

* `shiftIoctl`, `shiftMmap`: the branch in the two modes, over any bridge.
* `mmapLoop_board`: over a device in time, the loop of the second mode is that of `zynq7000`.
* `modes_agree_iff`: the lengths for which the two modes do the same.
-/

namespace Xvc
namespace ZynqMP

open ByteMem BitSerial Zynq7000

variable {S : Type}

/-! ## The code -/

/-- The check `nr_bytes * 2 > sizeof(buffer)`, in `size_t`. -/
def exceeds (len : Int) : Bool := 2048 < ((int32 (nrBytes len * 2)) % 2 ^ 64).toNat

/-- What the branch leaves: the bridge, and the vector that it writes to the client, none when it returns
before it does. -/
structure Branch (S : Type) where
  hw : S
  reply : Option (List UInt8)

/-- `buffer`, once the two vectors have been read. -/
def vectorsRead (input : List UInt8) (buffer : ByteMem) : ByteMem := write buffer 0 input

/-- The request to the driver: `tdi_buf` is `nr_bytes` behind `tms_buf`. -/
def request (len : Int) (buffer : ByteMem) : XilXvcIoc :=
  ⟨1, u32OfInt len, buffer, fun i => buffer ((nrBytes len).toNat + i)⟩

/-- The call of the driver. -/
def ioctlCall (hw : Bridge S) (k : Kernel) (len : Int) (input : List UInt8) (buffer : ByteMem) (s : S) :
    IoctlResult S :=
  xilXvcIoctl hw (request len (vectorsRead input buffer)) k s

/-- The branch with `USE_IOCTL`; `input` are the `nr_bytes * 2` bytes that follow the length, and `buffer` and
`result` what the arrays held before. -/
def shiftIoctl (hw : Bridge S) (k : Kernel) (len : Int) (input : List UInt8) (buffer result : ByteMem)
    (s : S) : Branch S :=
  if exceeds len then ⟨s, none⟩
  else
    let n := (nrBytes len).toNat
    let r := ioctlCall hw k len input buffer s
    if r.status < 0 then ⟨r.hw, none⟩
    else ⟨r.hw, some (slice (write (memset result 0 0 n) 0 (r.delivered.getD [])) 0 n)⟩

/-- The `while (ptr->ctrl_offset)` loop, for at most `polls` reads. -/
def awaitCtrl (hw : Bridge S) : (polls : Nat) → S → Option S
  | 0, _ => none
  | polls + 1, s =>
    let r := hw.ioread32 s controlRegOffset
    if r.2 = 0 then some r.1 else awaitCtrl hw polls r.1

/-- The `while (bytesLeft > 0)` loop, for at most `fuel` words. -/
def mmapLoop (hw : Bridge S) (polls : Nat) (buffer : ByteMem) (nrBytes : Int) :
    (fuel : Nat) → (bytesLeft bitsLeft byteIndex : Int) → S → ByteMem → Option (S × ByteMem)
  | 0, bytesLeft, _, _, s, result => if 0 < bytesLeft then none else some (s, result)
  | fuel + 1, bytesLeft, bitsLeft, byteIndex, s, result =>
    if 0 < bytesLeft then
      let shiftNumBits := if bytesLeft < 4 then bitsLeft else 32
      let shiftNumBytes := (shiftNumBits + 7).tdiv 8
      let tms := ofLe (slice buffer byteIndex.toNat shiftNumBytes.toNat)
      let tdi := ofLe (slice buffer (byteIndex + nrBytes).toNat shiftNumBytes.toNat)
      let s := hw.iowrite32 s lengthRegOffset (u32OfInt shiftNumBits)
      let s := hw.iowrite32 s tmsRegOffset tms
      let s := hw.iowrite32 s tdiRegOffset tdi
      let s := hw.iowrite32 s controlRegOffset 1
      match awaitCtrl hw polls s with
      | none => none
      | some s =>
        let r := hw.ioread32 s tdoRegOffset
        mmapLoop hw polls buffer nrBytes fuel (bytesLeft - shiftNumBytes) (bitsLeft - shiftNumBits)
          (byteIndex + shiftNumBytes) r.1 (write result byteIndex.toNat ((leBytes 4 r.2).take shiftNumBytes.toNat))
    else some (s, result)

/-- The branch without `USE_IOCTL`; none when a wait has not come to its end. -/
def shiftMmap (hw : Bridge S) (polls : Nat) (len : Int) (input : List UInt8) (buffer result : ByteMem) (s : S) :
    Option (Branch S) :=
  if exceeds len then some ⟨s, none⟩
  else
    let n := nrBytes len
    match mmapLoop hw polls (vectorsRead input buffer) n n.toNat n len 0 s (memset result 0 0 n.toNat) with
    | none => none
    | some r => some ⟨r.1, some (slice r.2 0 n.toNat)⟩

/-! ## The registers as they are mapped -/

variable {step : S → Bool → Bool → S × Bool} {dev : Device S}

theorem awaitCtrl_busy (dev : Device S) {polls : Nat} {r : Regs S} (hcontrol : r.control = 0) (hbusy : r.busy < polls) :
    awaitCtrl (debugBridge dev) polls r = some { r with busy := 0 } := by
  induction polls generalizing r with
  | zero => omega
  | succ polls ih =>
    rw [awaitCtrl, read_control, getControl_eq hcontrol]
    simp only
    by_cases h : r.busy = 0
    · rw [if_pos h, if_pos rfl, h]
    · rw [if_neg h, if_neg (by decide)]
      exact ih (r := { r with busy := r.busy - 1 }) hcontrol (by simp only; omega)

/-- A word: the four writes, the wait, and TDO. -/
theorem mmap_word (ht : dev.InTime) {polls : Nat} (hpolls : 100 ≤ polls) (r : Regs S) (length tms tdi : Nat) :
    awaitCtrl (debugBridge dev) polls
        (Regs.setControl dev { r with length := length, tms := tms, tdi := tdi } 1) =
      some (Regs.shifted dev { r with length := length } tms tdi) :=
  awaitCtrl_busy dev (r := { Regs.shifted dev { r with length := length } tms tdi with busy := dev.delay r.state }) rfl
    (Nat.lt_of_lt_of_le (ht r.state) hpolls)

/-- A round with `m` bits and `w` bytes. -/
theorem mmapLoop_word (ht : dev.InTime) {polls : Nat} (hpolls : 100 ≤ polls) (buffer : ByteMem) (n fuel k : Nat)
    {bytesLeft bitsLeft : Int} {m w : Nat} (hleft : 0 < bytesLeft) (hm : (if bytesLeft < 4 then bitsLeft else 32) = m)
    (hmax : m ≤ 32) (hw : w = (m + 7) / 8) (r : Regs S) (result : ByteMem) :
    let q := Regs.shifted dev { r with length := m } (ofLe (slice buffer k w)) (ofLe (slice buffer (k + n) w))
    mmapLoop (debugBridge dev) polls buffer n (fuel + 1) bytesLeft bitsLeft k r result =
      mmapLoop (debugBridge dev) polls buffer n fuel (bytesLeft - w) (bitsLeft - m) ((k + w : Nat) : Int) q
        (write result k ((leBytes 4 q.tdo).take w)) := by
  intro q
  have hbytes : ((m : Int) + 7).tdiv 8 = (w : Int) := by
    rw [Int.tdiv_eq_ediv_of_nonneg (by omega)]
    omega
  have hreg : u32OfInt (m : Int) = m := by
    unfold u32OfInt
    omega
  have hsum : ((k : Int) + n).toNat = k + n := by omega
  rw [mmapLoop, if_pos hleft]
  simp only [hm, hbytes, hreg, hsum, Int.toNat_natCast, write_length, write_tms, write_tdi, write_control,
    mmap_word ht hpolls, read_tdo]
  rw [Int.natCast_add]

theorem mmapLoop_done (hw : Bridge S) (polls : Nat) (buffer : ByteMem) (nrBytes : Int) (fuel : Nat) {bytesLeft : Int}
    (h : bytesLeft ≤ 0) (bitsLeft byteIndex : Int) (s : S) (result : ByteMem) :
    mmapLoop hw polls buffer nrBytes fuel bytesLeft bitsLeft byteIndex s result = some (s, result) := by
  cases fuel with
  | zero => rw [mmapLoop, if_neg (by omega)]
  | succ fuel => rw [mmapLoop, if_neg (by omega)]

/-- The loop on the last `t` bits is the one of `zynq7000`, with the device for the JTAG IP. By induction on
`t`, as the loops go: a whole word when four bytes are left, then the rest. -/
theorem mmapLoop_board (ht : dev.InTime) {polls : Nat} (hpolls : 100 ≤ polls) (buffer : ByteMem) (n t k fuel : Nat)
    (hfuel : (t + 7) / 8 ≤ fuel) (r : Regs S) (result : ByteMem) :
    ∃ q l, mmapLoop (debugBridge dev) polls buffer n fuel ((t + 7) / 8 : Nat) t k r result = some (q, l) ∧
      q.board l = shiftLoop dev.engine buffer n ((t + 7) / 8) t k (r.board result) := by
  induction t using Nat.strongRecOn generalizing k fuel r result with
  | ind t ih =>
    rcases Nat.eq_zero_or_pos t with rfl | hpos
    · exact ⟨r, result, mmapLoop_done _ _ _ _ _ (by decide) _ _ _ _, rfl⟩
    · obtain ⟨fuel, rfl⟩ : ∃ f, fuel = f + 1 := ⟨fuel - 1, by omega⟩
      by_cases h24 : t ≤ 24
      · -- The last bytes.
        have hlen : u32OfInt (t : Int) = t := by
          unfold u32OfInt
          omega
        rw [mmapLoop_word ht hpolls buffer n fuel k (m := t) (w := (t + 7) / 8) (by omega) (if_pos (by omega))
          (by omega) rfl,
          mmapLoop_done _ _ _ _ _ (by omega), shiftLoop_last _ _ _ (by omega) (by omega), hlen]
        exact ⟨_, _, rfl, rfl⟩
      · obtain ⟨x, hx⟩ : ∃ x, (t + 7) / 8 = x + 4 := ⟨(t + 7) / 8 - 4, by omega⟩
        have htake : ∀ v, (leBytes 4 v).take 4 = leBytes 4 v := fun v => List.take_of_length_le (by simp)
        rw [mmapLoop_word ht hpolls buffer n fuel k (m := 32) (w := 4) (by omega) (if_neg (by omega))
          (by omega) rfl, hx,
          shiftLoop, htake]
        generalize hq : Regs.shifted dev { r with length := 32 } (ofLe (slice buffer k 4))
          (ofLe (slice buffer (k + n) 4)) = q
        have htrigger : (r.board result).trigger dev.engine 32 (ofLe (slice buffer k 4))
          (ofLe (slice buffer (k + n) 4)) =
            (q.board result, q.tdo) := by
          rw [← hq]
          rfl
        simp only [htrigger]
        by_cases h32 : t < 32
        · -- The word is the last.
          obtain rfl : x = 0 := by omega
          rw [mmapLoop_done _ _ _ _ _ (by omega)]
          exact ⟨_, _, rfl, rfl⟩
        · obtain ⟨u, rfl⟩ : ∃ u, t = 32 + u := ⟨t - 32, by omega⟩
          obtain rfl : x = (u + 7) / 8 := by omega
          have hbytes : (((u + 7) / 8 + 4 : Nat) : Int) - (4 : Nat) = ((u + 7) / 8 : Nat) := by omega
          have hbits : ((32 + u : Nat) : Int) - (32 : Nat) = (u : Int) := by omega
          have hbits' : ((32 + u : Nat) : Int) - 32 = (u : Int) := by omega
          rw [hbytes, hbits, hbits']
          exact ih u (by omega) (k + 4) fuel (by omega) q (write result k (leBytes 4 q.tdo))

/-! ## The two modes -/

theorem exceeds_natCast {len : Nat} (h : len ≤ 8192) : exceeds len = false := by
  have hint : int32 (((len + 7) / 8 : Nat) * 2 : Int) = (((len + 7) / 8 * 2 : Nat) : Int) :=
    int32_of_range (by omega) (by omega)
  rw [exceeds, nrBytes_natCast h, hint]
  exact decide_eq_false (by omega)

theorem u32OfInt_natCast {n : Nat} (h : n < 2 ^ 32) : u32OfInt (n : Int) = n := by
  unfold u32OfInt
  omega

/-- The clocks of the request are those of the vectors in `buffer`. -/
theorem request_clocks {len : Nat} (hlen : len ≤ 8192) (buffer : ByteMem) :
    (request len buffer).clocks = vectors buffer ((len + 7) / 8) 0 len := by
  have hn : (nrBytes len).toNat = (len + 7) / 8 := by rw [nrBytes_natCast hlen]; rfl
  have hbits : len ≤ 8 * ((len + 7) / 8) := by omega
  have htdi : slice (fun i => buffer ((len + 7) / 8 + i)) 0 ((len + 7) / 8) =
      slice buffer (0 + (len + 7) / 8) ((len + 7) / 8) :=
    slice_congr fun i _ => by rw [Nat.zero_add, Nat.zero_add]
  simp only [XilXvcIoc.clocks, request, hn, u32OfInt_natCast (show len < 2 ^ 32 by omega)]
  rw [htdi, vectors, bits_eq_vectorBits hbits, bits_eq_vectorBits hbits]

/-- The branch with `USE_IOCTL`, over a device: the reply is what the driver delivers. -/
theorem shiftIoctl_spec (ht : dev.InTime) (hs : dev.Serial step) {len : Nat} (hlen : len ≤ 8192) (input : List UInt8)
    (buffer result : ByteMem) (r : Regs S) :
    ∃ q out, BitSerially step (request len (vectorsRead input buffer)) r q out ∧
      ∀ k : Kernel, k.Succeeds → shiftIoctl (debugBridge dev) k len input buffer result r = ⟨q, some out⟩ := by
  have hu : u32OfInt (len : Int) = len := u32OfInt_natCast (by omega)
  have hn : (nrBytes len).toNat = (len + 7) / 8 := by rw [nrBytes_natCast hlen]; rfl
  obtain ⟨q, out, hq, hshift⟩ := shiftVector_serially ht hs (request len (vectorsRead input buffer)) rfl
    (by simp only [request, hu]; omega) r
  have hout : out.length = (len + 7) / 8 := by rw [hq.length]; simp only [request, hu]
  refine ⟨q, out, hq, fun k hk => ?_⟩
  obtain ⟨tms, tdi, tdo, hcall⟩ := xilXvcIoctl_succeeds (debugBridge dev)
    (request len (vectorsRead input buffer)) rfl hk r
  obtain ⟨acc, h⟩ := hshift tms tdi tdo
  unfold shiftIoctl ioctlCall
  rw [exceeds_natCast hlen, if_neg (by decide), hcall, h]
  simp only [hn, Option.getD_some]
  rw [if_neg (by decide), ← hout, slice_write]

/-- The branch without `USE_IOCTL`, over a device. -/
theorem shiftMmap_spec (ht : dev.InTime) (hs : dev.Serial step) {polls : Nat} (hpolls : 100 ≤ polls) {len : Nat}
    (hlen : len ≤ 8192) (input : List UInt8) (buffer result : ByteMem) (r : Regs S) :
    let v := vectors (vectorsRead input buffer) ((len + 7) / 8) 0 (driven len)
    ∃ q l, shiftMmap (debugBridge dev) polls len input buffer result r = some ⟨q, some (slice l 0 ((len + 7) / 8))⟩ ∧
      q.state = (run step r.state v).1 ∧ clocks q.triggers = clocks r.triggers ++ v ∧
      bits l 0 (driven len) = (run step r.state v).2 := by
  intro v
  obtain ⟨q, l, hloop, hboard⟩ := mmapLoop_board ht hpolls (vectorsRead input buffer)
    ((len + 7) / 8) len 0 ((len + 7) / 8)
    (Nat.le_refl _) r (memset result 0 0 ((len + 7) / 8))
  have hspec := shiftLoop_spec hs (vectorsRead input buffer) ((len + 7) / 8) len 0
    (r.board (memset result 0 0 ((len + 7) / 8)))
  rw [← hboard] at hspec
  obtain ⟨h1, h2, h3, -⟩ := hspec
  refine ⟨q, l, ?_, h1, h2, h3⟩
  unfold shiftMmap
  rw [exceeds_natCast hlen, if_neg (by decide), nrBytes_natCast hlen]
  simp only [Int.toNat_natCast]
  rw [show (0 : Int) = ((0 : Nat) : Int) from rfl, hloop]

/-- The two modes leave the device in the same state, after as many clocks, and reply with the same bits. -/
def Agree (dev : Device S) (polls : Nat) (k : Kernel) (len : Nat) (input : List UInt8) (buffer result : ByteMem)
    (r : Regs S) : Prop :=
  ∃ p q out out', shiftMmap (debugBridge dev) polls len input buffer result r = some ⟨p, some out⟩ ∧
    shiftIoctl (debugBridge dev) k len input buffer result r = ⟨q, some out'⟩ ∧
    p.state = q.state ∧ (clocks p.triggers).length = (clocks q.triggers).length ∧
    vectorBits out len = vectorBits out' len

/-- **The two modes.** With any device that takes one bit a clock and is in time, from any registers, for any
vectors of at most 1024 bytes: the two modes agree if and only if the bits behind the last whole word are not
25 to 31. -/
theorem modes_agree_iff (ht : dev.InTime) (hs : dev.Serial step) {polls : Nat} (hpolls : 100 ≤ polls) {k : Kernel}
    (hk : k.Succeeds) {len : Nat} (hlen : len ≤ 8192) (input : List UInt8) (buffer result : ByteMem) (r : Regs S) :
    Agree dev polls k len input buffer result r ↔ len % 32 ≤ 24 := by
  obtain ⟨q, out', hq, hioctl⟩ := shiftIoctl_spec ht hs hlen input buffer result r
  obtain ⟨p, l, hmmap, hstate, hclocks, hbits⟩ := shiftMmap_spec ht hs hpolls hlen input buffer result r
  have hexp := request_clocks hlen (vectorsRead input buffer)
  have hlength : ∀ t, (vectors (vectorsRead input buffer) ((len + 7) / 8) 0 t).length = t := by
    intro t
    rw [vectors, List.length_zip, length_bits, length_bits, Nat.min_self]
  constructor
  · -- The clocks are as many.
    rintro ⟨p', q', o, o', h1, h2, -, hcount, -⟩
    have hp : p = p' := (Branch.mk.inj (Option.some.inj (hmmap.symm.trans h1))).1
    have hq' : q = q' := (Branch.mk.inj ((hioctl k hk).symm.trans h2)).1
    rw [← hp, ← hq', hclocks, hq.clocks, hexp, List.length_append, List.length_append, hlength, hlength] at hcount
    exact driven_eq_iff.mp (Nat.add_left_cancel hcount)
  · intro h24
    rw [driven_eq_iff.mpr h24, ← hexp] at hstate hclocks hbits
    have htdo : vectorBits out' len = (run step r.state (request len (vectorsRead input buffer)).clocks).2 := by
      have h := hq.tdo
      simp only [request, u32OfInt_natCast (show len < 2 ^ 32 by omega)] at h ⊢
      exact h
    refine ⟨p, q, _, out', hmmap, hioctl k hk, hstate.trans hq.state.symm, by rw [hclocks, hq.clocks], ?_⟩
    rw [htdo, ← hbits, bits_eq_vectorBits (k := (len + 7) / 8) (by omega)]

/-- A kernel without a failure. -/
def calmKernel : Kernel := ⟨0, some fun _ => 0, 0, some fun _ => 0, 0, some fun _ => 0, 0⟩

theorem calmKernel_succeeds : calmKernel.Succeeds := ⟨rfl, rfl, rfl, rfl, rfl, rfl, rfl⟩

/-- 56 bits are a whole word and three bytes. -/
theorem modes_agree_iff_56 :
    Agree countingDevice 100 calmKernel 56 [1, 2, 3, 4, 5, 6, 7, 7, 6, 5, 4, 3, 2, 1] (fun _ => 0) (fun _ => 0)
      (Regs.initial 0) ↔ 56 % 32 ≤ 24 :=
  modes_agree_iff countingDevice_inTime (Engine.of_serial counting)
    (Nat.le_refl 100) calmKernel_succeeds (by decide) _ _ _ _

/-- 25 bits, from the start: without `USE_IOCTL` the device counts 32 clocks, with it 25. -/
theorem modes_disagree_25 :
    ¬ Agree countingDevice 100 calmKernel 25 [0, 0, 0, 0, 1, 2, 3, 1] (fun _ => 0) (fun _ => 0) (Regs.initial 0) := by
  rintro ⟨p, q, out, out', hmmap, hioctl, hstate, -, -⟩
  have h1 : (shiftMmap (debugBridge countingDevice) 100 (25 : Nat) [0, 0, 0, 0, 1, 2, 3, 1] (fun _ => 0) (fun _ => 0)
      (Regs.initial 0)).map (fun b => b.hw.state) = some 32 := by decide
  have h2 : (shiftIoctl (debugBridge countingDevice) calmKernel (25 : Nat) [0, 0, 0, 0, 1, 2, 3, 1] (fun _ => 0)
      (fun _ => 0) (Regs.initial 0)).hw.state = 25 := by decide
  rw [hmmap, Option.map_some, Option.some.injEq] at h1
  rw [hioctl] at h2
  rw [h1, h2] at hstate
  exact absurd hstate (by decide)

end ZynqMP
end Xvc
