import Xvc.Zynq7000.Shift

/-!
# The debug bridge

`xil_xvc_shift_bits` of `jtag/zynqMP/src/driver/xvc_driver.c`, and the registers that it works on.

* `Bridge`: what `ioread32` and `iowrite32` do. Nothing is assumed of it.
* `xilXvcShiftBits`: one word.
* `debugBridge`: the bridge over a device. Bit 0 of CONTROL triggers LENGTH clocks, and stays set for
  some reads; `xilXvcShiftBits_inTime` is what a word makes of it.
-/

namespace Xvc
namespace ZynqMP

open ByteMem BitSerial Zynq7000

variable {S : Type}

/-! ## The registers -/

def lengthRegOffset : Nat := 0
def tmsRegOffset : Nat := 4
def tdiRegOffset : Nat := 8
def tdoRegOffset : Nat := 12
def controlRegOffset : Nat := 16

/-- The two accesses to the registers at `db_ptr`. -/
structure Bridge (S : Type) where
  iowrite32 : S → (offset value : Nat) → S
  ioread32 : S → (offset : Nat) → S × Nat

/-- The `while (count)` loop: whether bit 0 of CONTROL was clear before `count` came to 0. -/
def pollControl (hw : Bridge S) : (count : Nat) → S → S × Bool
  | 0, s => (s, false)
  | count + 1, s =>
    let r := hw.ioread32 s controlRegOffset
    if r.2 &&& 1 = 0 then (r.1, true) else pollControl hw count r.1

/-- `xil_xvc_shift_bits`: `tdo_bits`, or none for `-ETIMEDOUT`. -/
def xilXvcShiftBits (hw : Bridge S) (s : S) (tmsBits tdiBits : Nat) : S × Option Nat :=
  let s := hw.iowrite32 s tmsRegOffset tmsBits
  let s := hw.iowrite32 s tdiRegOffset tdiBits
  let r := hw.ioread32 s controlRegOffset
  let s := hw.iowrite32 r.1 controlRegOffset (r.2 ||| 1)
  let p := pollControl hw 100 s
  if p.2 then
    let q := hw.ioread32 p.1 tdoRegOffset
    (q.1, some q.2)
  else (p.1, none)

/-! ## A bridge over a device -/

/-- The device behind a bridge: what a trigger does with bit 1 of CONTROL clear and with it set, and for
how many reads bit 0 stays set. -/
structure Device (S : Type) where
  engine : Engine S
  bypass : Engine S
  delay : S → Nat

/-- The device's state, its registers, the reads for which it stays busy, and the triggers up to now. -/
structure Regs (S : Type) where
  state : S
  length : Nat
  tms : Nat
  tdi : Nat
  tdo : Nat
  control : Nat
  busy : Nat
  triggers : List Trigger

/-- CONTROL is written. -/
def Regs.setControl (dev : Device S) (r : Regs S) (value : Nat) : Regs S :=
  if value &&& 1 = 0 then { r with control := value }
  else
    let engine := if value &&& 2 = 0 then dev.engine else dev.bypass
    let q := engine.trigger r.state r.length r.tms r.tdi
    { r with
      state := q.1
      tdo := q.2
      control := value - 1
      busy := dev.delay r.state
      triggers := r.triggers ++ [⟨r.length, r.tms, r.tdi⟩] }

/-- CONTROL is read. -/
def Regs.getControl (r : Regs S) : Regs S × Nat :=
  if r.busy = 0 then (r, r.control) else ({ r with busy := r.busy - 1 }, r.control ||| 1)

/-- The bridge over `dev`. -/
def debugBridge (dev : Device S) : Bridge (Regs S) where
  iowrite32 r offset value :=
    if offset = lengthRegOffset then { r with length := value }
    else if offset = tmsRegOffset then { r with tms := value }
    else if offset = tdiRegOffset then { r with tdi := value }
    else if offset = controlRegOffset then r.setControl dev value
    else r
  ioread32 r offset :=
    if offset = lengthRegOffset then (r, r.length)
    else if offset = tmsRegOffset then (r, r.tms)
    else if offset = tdiRegOffset then (r, r.tdi)
    else if offset = tdoRegOffset then (r, r.tdo)
    else if offset = controlRegOffset then r.getControl
    else (r, 0)

section Accesses

variable (dev : Device S) (r : Regs S) (v : Nat)

@[simp] theorem write_length : (debugBridge dev).iowrite32 r lengthRegOffset v = { r with length := v } := rfl
@[simp] theorem write_tms : (debugBridge dev).iowrite32 r tmsRegOffset v = { r with tms := v } := rfl
@[simp] theorem write_tdi : (debugBridge dev).iowrite32 r tdiRegOffset v = { r with tdi := v } := rfl
@[simp] theorem write_control : (debugBridge dev).iowrite32 r controlRegOffset v = r.setControl dev v := rfl
@[simp] theorem read_tdo : (debugBridge dev).ioread32 r tdoRegOffset = (r, r.tdo) := rfl
@[simp] theorem read_control : (debugBridge dev).ioread32 r controlRegOffset = r.getControl := rfl

end Accesses

/-- Always in time: at most 99 of the 100 polls find the device busy. -/
def Device.InTime (dev : Device S) : Prop := ∀ s, dev.delay s < 100

/-- The device takes one bit a clock. -/
abbrev Device.Serial (dev : Device S) (step : S → Bool → Bool → S × Bool) : Prop := dev.engine.Serial step

/-- The registers once a word of LENGTH bits has completed. -/
def Regs.shifted (dev : Device S) (r : Regs S) (tms tdi : Nat) : Regs S :=
  let q := dev.engine.trigger r.state r.length tms tdi
  { r with
    state := q.1
    tms := tms
    tdi := tdi
    tdo := q.2
    control := 0
    busy := 0
    triggers := r.triggers ++ [⟨r.length, tms, tdi⟩] }

/-- CONTROL, with only the device to set a bit of it. -/
theorem getControl_eq {r : Regs S} (h : r.control = 0) :
    r.getControl = ({ r with busy := r.busy - 1 }, if r.busy = 0 then 0 else 1) := by
  unfold Regs.getControl
  by_cases hb : r.busy = 0
  · rw [if_pos hb, if_pos hb]
    cases r
    cases h
    cases hb
    rfl
  · rw [if_neg hb, if_neg hb, h]
    rfl

/-- A trigger, with the device busy behind it. -/
theorem setControl_one (dev : Device S) (r : Regs S) :
    r.setControl dev 1 = { r.shifted dev r.tms r.tdi with busy := dev.delay r.state } := rfl

/-- The polls come to an end when the device does. -/
theorem pollControl_busy (dev : Device S) {count : Nat} {r : Regs S} (hcontrol : r.control = 0)
    (hbusy : r.busy < count) :
    pollControl (debugBridge dev) count r = ({ r with busy := 0 }, true) := by
  induction count generalizing r with
  | zero => omega
  | succ count ih =>
    rw [pollControl, read_control, getControl_eq hcontrol]
    simp only
    by_cases h : r.busy = 0
    · rw [if_pos (by rw [if_pos h]; decide), h]
    · rw [if_neg (by rw [if_neg h]; decide)]
      exact ih (r := { r with busy := r.busy - 1 }) hcontrol (by simp only; omega)

/-- **A word**, with the bypass off: the device clocks it, and CONTROL is 0 again. -/
theorem xilXvcShiftBits_inTime {dev : Device S} (ht : dev.InTime) {r : Regs S} (h : r.control = 0) (tms tdi : Nat) :
    xilXvcShiftBits (debugBridge dev) r tms tdi = (r.shifted dev tms tdi, some (r.shifted dev tms tdi).tdo) := by
  have hset : ({ r with tms := tms, tdi := tdi } : Regs S).control = 0 := h
  have hbit : (if r.busy = 0 then 0 else 1) ||| 1 = 1 := by split <;> rfl
  have hstart : Regs.setControl dev { r with tms := tms, tdi := tdi, busy := r.busy - 1 } 1 =
      { r.shifted dev tms tdi with busy := dev.delay r.state } :=
    setControl_one dev { r with tms := tms, tdi := tdi, busy := r.busy - 1 }
  have hpoll := pollControl_busy dev
    (r := { r.shifted dev tms tdi with busy := dev.delay r.state }) rfl (ht r.state)
  have hdone : ({ r.shifted dev tms tdi with busy := 0 } : Regs S) = r.shifted dev tms tdi := rfl
  simp only [xilXvcShiftBits, write_tms, write_tdi, read_control, getControl_eq hset, write_control, read_tdo]
  rw [hbit, hstart, hpoll, hdone, if_pos rfl]

/-- The device and the triggers of a bridge, with a result array beside them. -/
def Regs.board (r : Regs S) (result : ByteMem) : Board S := ⟨r.state, result, r.triggers⟩

end ZynqMP
end Xvc
