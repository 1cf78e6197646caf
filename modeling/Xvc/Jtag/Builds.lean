import Xvc.Jtag.HandleData

/-!
# The builds of the JTAG servers

The branch of `shift:` in `jtag/zynqMP/src/user/xvcServer.c`, with `USE_IOCTL` and without, and in
`jtag/zynq7000/XAPP1251/src/xvcServer.c`. Each is `Build.Serial`; the two that write to the registers clock whole
words, `driven len` bits for `len`.

`session_ends` is what a connection comes to with any of them, whatever follows the last whole message.
-/

namespace Xvc
namespace Jtag

open ByteMem BitSerial Zynq7000 ZynqMP

variable {H S : Type}

/-! ## The code -/

/-- The branch of `zynqMP` without `USE_IOCTL`, from where the vectors have been read. -/
def mmapVectors (hw : Bridge H) (polls : Nat) (e : Env) (len : Int) (c : Conn H) (input : List UInt8) :
    Option (Pass H) :=
  match shiftMmap hw polls len input (e.buffer c.calls) (e.result c.calls) c.hw with
  | none => none
  | some ⟨hw, none⟩ => some ({ c with hw := hw }, some 1)
  | some ⟨hw, some result⟩ => some ({ c with hw := hw }.replying e result none)

/-- The branch. -/
def mmapShifting (hw : Bridge H) (polls : Nat) : Shifting H := fun e len c =>
  if ZynqMP.exceeds len then some (c, some 1)
  else reading e (nrBytes len * 2).toNat c (mmapVectors hw polls e len)

/-- The JTAG IP of `zynq7000`, and the triggers up to now. -/
structure Ip (S : Type) where
  state : S
  triggers : List Trigger

/-- The branch of `zynq7000`, from where the vectors have been read. -/
def ipVectors (engine : Engine S) (e : Env) (len : Int) (c : Conn (Ip S)) (input : List UInt8) : Option (Pass (Ip S)) :=
  match shift engine len input (e.buffer c.calls) (e.result c.calls) c.hw.state with
  | none => some (c, some 1)
  | some (b, reply) => some (ZynqMP.Conn.replying e reply { c with hw := ⟨b.state, c.hw.triggers ++ b.triggers⟩ } none)

/-- The branch. -/
def ipShifting (engine : Engine S) : Shifting (Ip S) := fun e len c =>
  if Zynq7000.exceeds len then some (c, some 1)
  else reading e (nrBytes len * 2).toNat c (ipVectors engine e len)

/-- The builds: `zynqMP` with `USE_IOCTL` and without, and `zynq7000`. -/
inductive Target where
  | ioctl
  | mmap
  | zynq7000
  deriving DecidableEq

/-- What a build shifts with. -/
abbrev Target.Hw (S : Type) : Target → Type
  | ioctl => Regs S
  | mmap => Regs S
  | zynq7000 => Ip S

/-- The build for a device; a wait for `ctrl_offset` takes at most `polls` reads. -/
def Target.build (dev : Device S) (polls : Nat) : (t : Target) → Build (t.Hw S) S
  | ioctl => ⟨ioctlShifting (debugBridge dev), ZynqMP.exceeds, Regs.state, fun r => clocks r.triggers, id⟩
  | mmap => ⟨mmapShifting (debugBridge dev) polls, ZynqMP.exceeds, Regs.state, fun r => clocks r.triggers, driven⟩
  | zynq7000 => ⟨ipShifting dev.engine, Zynq7000.exceeds, Ip.state, fun r => clocks r.triggers, driven⟩

section

variable (dev : Device S) (polls : Nat)

theorem shifting_ioctl : (Target.build dev polls .ioctl).shifting = ioctlShifting (debugBridge dev) := by
  rw [Target.build]

theorem exceeds_ioctl : (Target.build dev polls .ioctl).exceeds = ZynqMP.exceeds := by rw [Target.build]

theorem shifting_mmap : (Target.build dev polls .mmap).shifting = mmapShifting (debugBridge dev) polls := by
  rw [Target.build]

theorem exceeds_mmap : (Target.build dev polls .mmap).exceeds = ZynqMP.exceeds := by rw [Target.build]

theorem shifting_zynq7000 : (Target.build dev polls .zynq7000).shifting = ipShifting dev.engine := by rw [Target.build]

theorem exceeds_zynq7000 : (Target.build dev polls .zynq7000).exceeds = Zynq7000.exceeds := by rw [Target.build]

end

/-! ## A shift -/

variable {B : Build H S} {step : S → Bool → Bool → S × Bool}

theorem served_shift {len : Nat} {tms tdi reply : List UInt8} (hlen : len ≤ 8192) (htms : tms.length = (len + 7) / 8)
    (htdi : tdi.length = (len + 7) / 8) (hreply : reply.length = (len + 7) / 8) {h q : H}
    (hstate : B.state q = (run step (B.state h) (B.clocksOf (.shift len tms tdi hlen htms htdi))).1)
    (hclocks : B.clocks q = B.clocks h ++ B.clocksOf (.shift len tms tdi hlen htms htdi))
    (htdo : vectorBits reply (B.taken len) = (run step (B.state h)
      (B.clocksOf (.shift len tms tdi hlen htms htdi))).2) :
    Served B step h q [(.shift len tms tdi hlen htms htdi, reply)] := by
  refine ⟨fun x hx => ?_, ?_, ?_, ?_⟩
  · rw [List.mem_singleton.mp hx]
    exact hreply
  · rw [List.flatMap_singleton]
    exact hstate
  · rw [List.flatMap_singleton]
    exact hclocks
  · rw [List.flatMap_singleton, List.flatMap_singleton]
    exact htdo

theorem driven_le (t : Nat) : driven t ≤ 8 * ((t + 7) / 8) := by
  unfold driven
  split <;> omega

/-- The vectors in the buffer, as far as their bytes go. -/
theorem vectors_buffer {n t : Nat} {tms tdi : List UInt8} (htms : tms.length = n) (htdi : tdi.length = n)
    (ht : t ≤ 8 * n)
    (buffer : ByteMem) :
    vectors (write buffer 0 (tms ++ tdi)) n 0 t = (vectorBits tms t).zip (vectorBits tdi t) := by
  obtain ⟨h1, h2, -⟩ := slice_eq_append (slice_write buffer 0 (tms ++ tdi))
  rw [List.length_append, Nat.add_sub_cancel_left, htms, htdi] at h2
  rw [htms] at h1
  rw [vectors, bits_eq_vectorBits ht, bits_eq_vectorBits ht, h1, h2]

/-- The bytes of the two vectors. -/
theorem nrBytes_twice {len : Nat} (hlen : len ≤ 8192) : (nrBytes len * 2).toNat = (len + 7) / 8 * 2 := by
  rw [nrBytes_natCast hlen]
  omega

theorem mmapVectors_eq {hw : Bridge H} {polls : Nat} {e : Env} (he : e.Succeeds) {len : Int} {c : Conn H}
    {input result : List UInt8} {q : H}
    (h : shiftMmap hw polls len input (e.buffer c.calls) (e.result c.calls) c.hw = some ⟨q, some result⟩) :
    mmapVectors hw polls e len c input = some (⟨c.rest, c.written ++ result, c.calls + 1, q⟩, none) := by
  unfold mmapVectors
  simp only [h, replying_eq he]

theorem ipVectors_eq {engine : Engine S} {e : Env} (he : e.Succeeds) {len : Int} {c : Conn (Ip S)}
    {input reply : List UInt8} {b : Board S}
    (h : shift engine len input (e.buffer c.calls) (e.result c.calls) c.hw.state = some (b, reply)) :
    ipVectors engine e len c input =
      some (⟨c.rest, c.written ++ reply, c.calls + 1, ⟨b.state, c.hw.triggers ++ b.triggers⟩⟩, none) := by
  unfold ipVectors
  simp only [h, replying_eq he]

variable {dev : Device S}

theorem ioctl_serial (ht : dev.InTime) (hs : dev.Serial step) (polls : Nat) :
    (Target.build dev polls .ioctl).Serial step where
  whole := by
    intro e he len tms tdi l hlen htms htdi c hrest
    obtain ⟨i, hi⟩ := reading_eq e ((len + 7) / 8 * 2) (a := tms ++ tdi) (l := l)
      (by rw [List.length_append, htms, htdi]; omega) c hrest
    obtain ⟨q, reply, hq, hshift⟩ := shiftIoctl_spec ht hs hlen (tms ++ tdi) (e.buffer i) (e.result i) c.hw
    obtain ⟨hanswers, hstate, hclocks, htdo⟩ := ZynqMP.Served.shift hlen htms htdi hq
    rw [List.flatMap_singleton] at hstate hclocks htdo
    refine ⟨q, reply, served_shift hlen htms htdi (List.forall₂_cons.mp hanswers).1 hstate hclocks
      ((List.append_nil _).symm.trans htdo), i + 1, ?_⟩
    rw [shifting_ioctl, ioctlShifting, turnShift, ZynqMP.exceeds_natCast hlen, if_neg (by decide),
      nrBytes_twice hlen, hi]
    simp only [hshift _ (he.kernel i), replying_eq he]
  refused e len c h := by
    rw [exceeds_ioctl] at h
    rw [shifting_ioctl, ioctlShifting, turnShift, if_pos h]
  cut e len c h hlen := by
    rw [exceeds_ioctl] at h
    rw [shifting_ioctl, ioctlShifting, turnShift, h, if_neg (by decide), ← reading_some]
    exact reading_short e c hlen _
  fits len hlen := by
    rw [exceeds_ioctl]
    exact ZynqMP.exceeds_natCast hlen

theorem mmap_serial (ht : dev.InTime) (hs : dev.Serial step) {polls : Nat} (hpolls : 100 ≤ polls) :
    (Target.build dev polls .mmap).Serial step where
  whole := by
    intro e he len tms tdi l hlen htms htdi c hrest
    obtain ⟨i, hi⟩ := reading_whole e ((len + 7) / 8 * 2) (a := tms ++ tdi) (l := l)
      (by rw [List.length_append, htms, htdi]; omega) c hrest
    obtain ⟨q, result, hshift, hstate, hclocks, htdo⟩ :=
      shiftMmap_spec ht hs hpolls hlen (tms ++ tdi) (e.buffer i) (e.result i) c.hw
    rw [vectorsRead, vectors_buffer htms htdi (driven_le len)] at hstate hclocks htdo
    rw [bits_eq_vectorBits (driven_le len)] at htdo
    refine ⟨q, slice result 0 ((len + 7) / 8),
      served_shift hlen htms htdi (length_slice _ _ _) hstate hclocks htdo, i + 1, ?_⟩
    rw [shifting_mmap, mmapShifting, ZynqMP.exceeds_natCast hlen, if_neg (by decide), nrBytes_twice hlen, hi,
      mmapVectors_eq (c := ⟨l, c.written, i, c.hw⟩) he hshift]
  refused e len c h := by
    rw [exceeds_mmap] at h
    rw [shifting_mmap, mmapShifting, if_pos h]
  cut e len c h hlen := by
    rw [exceeds_mmap] at h
    rw [shifting_mmap, mmapShifting, h, if_neg (by decide)]
    exact reading_short e c hlen _
  fits len hlen := by
    rw [exceeds_mmap]
    exact ZynqMP.exceeds_natCast hlen

theorem ip_serial (hs : dev.engine.Serial step) (polls : Nat) : (Target.build dev polls .zynq7000).Serial step where
  whole := by
    intro e he len tms tdi l hlen htms htdi c hrest
    obtain ⟨i, hi⟩ := reading_whole e ((len + 7) / 8 * 2) (a := tms ++ tdi) (l := l)
      (by rw [List.length_append, htms, htdi]; omega) c hrest
    have hn : (nrBytes len).toNat = (len + 7) / 8 := by
      rw [nrBytes_natCast hlen]
      rfl
    have hspec := shiftLoop_spec hs (write (e.buffer i) 0 (tms ++ tdi)) ((len + 7) / 8) len 0
      ⟨c.hw.state, memset (e.result i) 0 0 ((len + 7) / 8), []⟩
    rw [vectors_buffer htms htdi (driven_le len)] at hspec
    generalize hboard : shiftLoop dev.engine (write (e.buffer i) 0 (tms ++ tdi)) ((len + 7) / 8) ((len + 7) / 8) len 0
      ⟨c.hw.state, memset (e.result i) 0 0 ((len + 7) / 8), []⟩ = b at hspec
    obtain ⟨hstate, hclocks, htdo, -⟩ := hspec
    rw [bits_eq_vectorBits (driven_le len)] at htdo
    refine ⟨⟨b.state, c.hw.triggers ++ b.triggers⟩, slice b.result 0 ((len + 7) / 8),
      served_shift hlen htms htdi (length_slice _ _ _) hstate ?_ htdo, i + 1, ?_⟩
    · show clocks (c.hw.triggers ++ b.triggers) = clocks c.hw.triggers ++ _
      rw [clocks, List.flatMap_append]
      exact congrArg _ hclocks
    · have hshift : shift dev.engine len (tms ++ tdi) (e.buffer i) (e.result i) c.hw.state =
          some (b, slice b.result 0 ((len + 7) / 8)) := by
        unfold shift
        rw [Zynq7000.exceeds_natCast hlen, if_neg (by decide)]
        simp only [hn, hboard]
      rw [shifting_zynq7000, ipShifting, Zynq7000.exceeds_natCast hlen, if_neg (by decide), nrBytes_twice hlen, hi,
        ipVectors_eq (c := ⟨l, c.written, i, c.hw⟩) he hshift]
  refused e len c h := by
    rw [exceeds_zynq7000] at h
    rw [shifting_zynq7000, ipShifting, if_pos h]
  cut e len c h hlen := by
    rw [exceeds_zynq7000] at h
    rw [shifting_zynq7000, ipShifting, h, if_neg (by decide)]
    exact reading_short e c hlen _
  fits len hlen := by
    rw [exceeds_zynq7000]
    exact Zynq7000.exceeds_natCast hlen

/-- Each build serves shifts as one device would. -/
theorem build_serial (ht : dev.InTime) (hs : dev.Serial step) {polls : Nat} (hpolls : 100 ≤ polls) (t : Target) :
    (t.build dev polls).Serial step :=
  match t with
  | .ioctl => ioctl_serial ht hs polls
  | .mmap => mmap_serial ht hs hpolls
  | .zynq7000 => ip_serial hs polls

/-! ## A connection -/

/-- **A connection**, in each build, with any device that takes one bit a clock and is in time, and when nothing fails.
It sends the messages `ms`, and behind them bytes of which no pass can make anything: a message that is cut short
(`Proper.broken`), an unknown command, a shift that is refused or whose vectors are not all there. However `read` cuts
this, the calls of `handle_data` come to an end with 1, once; what was written are the replies to `ms`, in order; the
device got exactly their clocks, in one run with the TDO bits of the replies; the tail had no effect. -/
theorem session_ends (ht : dev.InTime) (hs : dev.Serial step) {polls : Nat} (hpolls : 100 ≤ polls)
    (t : Target) {e : Env}
    (he : e.Succeeds) (ms : List Msg) {tail : List UInt8} (htail : Broken (t.build dev polls) tail) (c : Conn (t.Hw S))
    (h : c.rest = ms.flatMap Msg.enc ++ tail) :
    ∃ l d, l.map Prod.fst = ms ∧ Served (t.build dev polls) step c.hw d.hw l ∧
      d.written = c.written ++ l.flatMap Prod.snd ∧ Serves (t.build dev polls).shifting e c d 1 ∧
      ∀ d' ret, Serves (t.build dev polls).shifting e c d' ret → d' = d ∧ ret = 1 := by
  obtain ⟨l, d, hl, hd, hserved, hwritten⟩ :=
    serves_session (build_serial ht hs hpolls t) he htail ms.length ms (Nat.le_refl _) c h
  exact ⟨l, d, hl, hserved, hwritten, hd, fun d' ret hd' => hd'.unique hd⟩

/-- The messages of `twoShifts`, and a third shift that lacks its last byte. -/
theorem session_ends_cut :
    let tail := ascii "shift:" ++ leBytes 4 25 ++ [1, 2, 3, 4] ++ [5, 6, 7]
    ∃ l d, l.map Prod.fst = twoShifts ∧
      Served (Target.build countingDevice 100 .zynq7000) counting ⟨0, []⟩ d.hw l ∧
      d.written = [] ++ l.flatMap Prod.snd ∧
      Serves (Target.build countingDevice 100 .zynq7000).shifting bytewise
        ⟨twoShifts.flatMap Msg.enc ++ tail, [], 0, ⟨0, []⟩⟩ d 1 ∧
      ∀ d' ret, Serves (Target.build countingDevice 100 .zynq7000).shifting bytewise
        ⟨twoShifts.flatMap Msg.enc ++ tail, [], 0, ⟨0, []⟩⟩ d' ret → d' = d ∧ ret = 1 := by
  intro tail
  have hcut : Stream.Proper tail (Msg.shift 25 [1, 2, 3, 4] [5, 6, 7, 8] (by decide) rfl rfl).enc :=
    ⟨⟨[8], rfl⟩, by decide⟩
  exact session_ends countingDevice_inTime (Engine.of_serial counting) (Nat.le_refl 100) .zynq7000
    ⟨fun _ => rfl, fun _ => calmKernel_succeeds⟩ twoShifts
    (Proper.broken (build_serial countingDevice_inTime (Engine.of_serial counting) (Nat.le_refl 100) .zynq7000) hcut)
    ⟨twoShifts.flatMap Msg.enc ++ tail, [], 0, ⟨0, []⟩⟩ rfl

end Jtag
end Xvc
