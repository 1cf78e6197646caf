import Xvc.Lib.Calls
import Xvc.ZynqMP.HandleData
import Xvc.ZynqMP.IoctlMapped

/-!
# The character device, for many processes

`char_ctrl_ioctl` holds the spin lock of the file's inode around either command. Here the commands are what they access,
one register at a time, so that another process may come in between any two accesses.

* `Steps`: `xil_xvc_ioctl` in steps. `Performs` is the refinement, and `performs_xilXvcIoctl` says that it holds.
* `device`: the calls of the processes, with their locks.
* `ioctls_in_turn`: through a device node for each bridge, no call sees anything of another.
-/

namespace Xvc
namespace ZynqMP

open ByteMem BitSerial Relation Zynq7000

variable {S α β : Type}

/-! ## The accesses -/

/-- An access to a register. -/
inductive RegCall where
  | ioread32 (offset : Nat)
  | iowrite32 (offset value : Nat)

abbrev RegCall.Answer : RegCall → Type
  | ioread32 _ => Nat
  | iowrite32 _ _ => Unit

/-- The registers behind a bridge. -/
def registers (hw : Bridge S) : World S RegCall RegCall.Answer where
  answers
    | .ioread32 offset, value, s => value = (hw.ioread32 s offset).2
    | .iowrite32 _ _, _, _ => True
  effect
    | .ioread32 offset, _, s => (hw.ioread32 s offset).1
    | .iowrite32 offset value, _, s => hw.iowrite32 s offset value

abbrev RegProg (S α : Type) := Program S RegCall RegCall.Answer α

def ioread32 (offset : Nat) : RegProg S Nat := Program.ask (RegCall.ioread32 offset)

def iowrite32 (offset value : Nat) : RegProg S Unit := Program.ask (RegCall.iowrite32 offset value)

/-! ## The functions, in steps -/

def Shifting.forget (w : Shifting S) : Shifting Unit := { w with hw := () }

def IoctlResult.forget (r : IoctlResult S) : IoctlResult Unit := { r with hw := () }

namespace Steps

/-- `pollControl`. -/
def pollControl : (count : Nat) → RegProg S Bool
  | 0 => pure false
  | count + 1 => do
    let controlRegData ← ioread32 controlRegOffset
    if controlRegData &&& 1 = 0 then pure true else pollControl count

/-- `xil_xvc_shift_bits`. -/
def xilXvcShiftBits (tmsBits tdiBits : Nat) : RegProg S (Option Nat) := do
  iowrite32 tmsRegOffset tmsBits
  iowrite32 tdiRegOffset tdiBits
  let controlRegData ← ioread32 controlRegOffset
  iowrite32 controlRegOffset (controlRegData ||| 1)
  let done ← pollControl 100
  if done then
    let tdoBits ← ioread32 tdoRegOffset
    pure (some tdoBits)
  else pure none

/-- LENGTH, if the word is short. -/
def setLength (short : Bool) (shiftNumBits : Nat) : RegProg S Unit :=
  if short then iowrite32 lengthRegOffset shiftNumBits else pure ()

/-- The `while (current_bit < num_bits)` loop. -/
def ioctlLoop (numBits : Nat) (tms tdi : Block) :
    (fuel currentBit : Nat) → Shifting Unit → RegProg S (Shifting Unit × Int)
  | 0, _, w => pure (w, 0)
  | fuel + 1, currentBit, w =>
    if currentBit < numBits then do
      let short := numBits - currentBit < 32
      let shiftNumBits := if short then numBits - currentBit else 32
      setLength short shiftNumBits
      let shiftNumBytes := (shiftNumBits + 7) / 8
      let offset := byteOffset currentBit
      let accesses := w.accesses ++ [(offset, shiftNumBytes)]
      let r ← xilXvcShiftBits (ofLe (tms.load offset shiftNumBytes)) (ofLe (tdi.load offset shiftNumBytes))
      match r with
      | none => pure (⟨(), w.tdo, w.shifted, accesses⟩, -ETIMEDOUT)
      | some tdoStore =>
        ioctlLoop numBits tms tdi fuel (currentBit + shiftNumBits)
          ⟨(), w.tdo.store offset ((leBytes 4 tdoStore).take shiftNumBytes), w.shifted + shiftNumBits, accesses⟩
    else pure (w, 0)

/-- The first register accesses. -/
def prepare (arg : XilXvcIoc) : RegProg S Unit := do
  iowrite32 controlRegOffset (if arg.opcode = 2 then 2 else 0)
  setLength (32 ≤ arg.length) 32

/-- From the first register access on. -/
def shiftVector (arg : XilXvcIoc) (tms tdi tdo : Block) (tdoLeft : Nat) : RegProg S (IoctlResult Unit) := do
  prepare arg
  let w ← ioctlLoop arg.length tms tdi (rounds arg.length) 0 ⟨(), tdo, 0, []⟩
  if w.2 ≠ 0 then pure ⟨(), w.2, none, w.1.shifted, w.1.accesses⟩
  else
    let n := numBytes arg.length
    let left := notCopied tdoLeft n
    pure ⟨(), if left ≠ 0 then -EFAULT else 0, some (w.1.tdo.load 0 (n - left)), w.1.shifted, w.1.accesses⟩

/-- `xil_xvc_ioctl`. -/
def xilXvcIoctl (arg : XilXvcIoc) (k : Kernel) : RegProg S (IoctlResult Unit) :=
  let n := numBytes arg.length
  if notCopied k.argLeft 32 ≠ 0 then pure (.early () (notCopied k.argLeft 32))
  else if arg.opcode ≠ 1 ∧ arg.opcode ≠ 2 then pure (.early () 0)
  else
    match k.tmsBufTemp with
    | none => pure (.early () (-ENOMEM))
    | some tms =>
      if notCopied k.tmsLeft n ≠ 0 then pure (.early () (notCopied k.tmsLeft n))
      else
        match k.tdiBufTemp with
        | none => pure (.early () (-ENOMEM))
        | some tdi =>
          if notCopied k.tdiLeft n ≠ 0 then pure (.early () (notCopied k.tdiLeft n))
          else
            match k.tdoBufTemp with
            | none => pure (.early () (-ENOMEM))
            | some tdo =>
              shiftVector arg (tms.store 0 (slice arg.tmsBuf 0 n)) (tdi.store 0 (slice arg.tdiBuf 0 n)) tdo k.tdoLeft

end Steps

/-! ## The refinement -/

/-- A run of the program does to the bridge what `f` does, and has its result. -/
def Performs (hw : Bridge S) (p : RegProg S α) (f : S → S × α) : Prop :=
  ∀ s log a t, p.Finishes (registers hw) s log a t → f s = (t, a)

section Performs

variable {hw : Bridge S} {p : RegProg S α} {f g : S → S × α}

theorem performs_pure (hw : Bridge S) (a : α) : Performs hw (pure a) fun s => (s, a) := by
  intro s log b t h
  obtain ⟨-, rfl, rfl⟩ := Program.finishes_pure.mp h
  rfl

theorem performs_ioread32 (hw : Bridge S) (offset : Nat) :
    Performs hw (ioread32 offset) fun s => hw.ioread32 s offset := by
  intro s log v t h
  obtain ⟨hv, -, rfl⟩ := (Program.finishes_ask (c := RegCall.ioread32 offset)).mp h
  rw [show v = (hw.ioread32 s offset).2 from hv]
  rfl

theorem performs_iowrite32 (hw : Bridge S) (offset value : Nat) :
    Performs hw (iowrite32 offset value) fun s => (hw.iowrite32 s offset value, ()) := by
  intro s log u t h
  obtain ⟨-, -, rfl⟩ := (Program.finishes_ask (c := RegCall.iowrite32 offset value)).mp h
  rfl

theorem Performs.bind {k : α → RegProg S β} {g : α → S → S × β} (h : Performs hw p f)
    (hk : ∀ a, Performs hw (k a) (g a)) : Performs hw (p >>= k) fun s => g (f s).2 (f s).1 := by
  intro s log b t hrun
  obtain ⟨l, a, u, l', hp, hq, -⟩ := Program.Finishes.of_bind hrun
  have hf := h s l a u hp
  simp only [hf]
  exact hk a u l' b t hq

theorem Performs.congr (h : Performs hw p f) (hfg : ∀ s, f s = g s) : Performs hw p g :=
  fun s log a t hrun => (hfg s).symm.trans (h s log a t hrun)

theorem performs_pollControl (hw : Bridge S) (count : Nat) :
    Performs hw (Steps.pollControl count) (pollControl hw count) := by
  induction count with
  | zero => exact performs_pure hw false
  | succ count ih =>
    refine ((performs_ioread32 hw controlRegOffset).bind
      (g := fun v s => if v &&& 1 = 0 then (s, true) else pollControl hw count s) fun v => ?_).congr fun s => rfl
    by_cases hv : v &&& 1 = 0
    · simp only [hv, if_true]
      exact performs_pure hw true
    · simp only [hv, if_false]
      exact ih

theorem performs_xilXvcShiftBits (hw : Bridge S) (tmsBits tdiBits : Nat) :
    Performs hw (Steps.xilXvcShiftBits tmsBits tdiBits) fun s => xilXvcShiftBits hw s tmsBits tdiBits := by
  refine ((performs_iowrite32 hw _ _).bind fun _ => (performs_iowrite32 hw _ _).bind fun _ =>
    (performs_ioread32 hw _).bind fun v => (performs_iowrite32 hw _ (v ||| 1)).bind fun _ =>
    (performs_pollControl hw 100).bind
      (g := fun done s => if done then ((hw.ioread32 s tdoRegOffset).1,
        some (hw.ioread32 s tdoRegOffset).2) else (s, none))
      fun done => ?_).congr fun s => rfl
  cases done with
  | false => exact performs_pure hw none
  | true => exact (performs_ioread32 hw tdoRegOffset).bind fun v => performs_pure hw (some v)

theorem performs_setLength (hw : Bridge S) (short : Prop) [Decidable short] (shiftNumBits : Nat) :
    Performs hw (Steps.setLength (decide short) shiftNumBits) fun s =>
      (if short then hw.iowrite32 s lengthRegOffset shiftNumBits else s, ()) := by
  by_cases h : short
  · simp only [h, decide_true, if_true]
    exact performs_iowrite32 hw lengthRegOffset shiftNumBits
  · simp only [h, decide_false, if_false]
    exact performs_pure hw ()

/-- The loop, by induction on its rounds. -/
theorem performs_ioctlLoop (hw : Bridge S) (numBits : Nat) (tms tdi : Block) (fuel currentBit : Nat)
    (w : Shifting Unit) :
    Performs hw (Steps.ioctlLoop numBits tms tdi fuel currentBit w) fun s =>
      let r := ioctlLoop hw numBits tms tdi fuel currentBit { w with hw := s }
      (r.1.hw, (r.1.forget, r.2)) := by
  induction fuel generalizing currentBit w with
  | zero => exact performs_pure hw (w, 0)
  | succ fuel ih =>
    by_cases h : currentBit < numBits
    · simp only [Steps.ioctlLoop, ioctlLoop, if_pos h]
      generalize (if numBits - currentBit < 32 then numBits - currentBit else 32) = shiftNumBits
      generalize w.accesses ++ [(byteOffset currentBit, (shiftNumBits + 7) / 8)] = accesses
      generalize byteOffset currentBit = offset
      generalize (shiftNumBits + 7) / 8 = shiftNumBytes
      have hword : ∀ r : Option Nat, Performs hw
          (match r with
            | none => pure (⟨(), w.tdo, w.shifted, accesses⟩, -ETIMEDOUT)
            | some tdoStore => Steps.ioctlLoop numBits tms tdi fuel (currentBit + shiftNumBits)
                ⟨(), w.tdo.store offset ((leBytes 4 tdoStore).take shiftNumBytes), w.shifted + shiftNumBits, accesses⟩)
          fun s =>
            let q : Shifting S × Int :=
              match r with
              | none => (⟨s, w.tdo, w.shifted, accesses⟩, -ETIMEDOUT)
              | some tdoStore => ioctlLoop hw numBits tms tdi fuel (currentBit + shiftNumBits)
                  ⟨s, w.tdo.store offset ((leBytes 4 tdoStore).take shiftNumBytes), w.shifted + shiftNumBits, accesses⟩
            (q.1.hw, (q.1.forget, q.2)) := by
        intro r
        cases r with
        | none => exact performs_pure hw _
        | some tdoStore => exact ih _ _
      exact ((performs_setLength hw (numBits - currentBit < 32) shiftNumBits).bind fun _ =>
        (performs_xilXvcShiftBits hw (ofLe (tms.load offset shiftNumBytes))
          (ofLe (tdi.load offset shiftNumBytes))).bind hword).congr fun _ => rfl
    · simp only [Steps.ioctlLoop, ioctlLoop, if_neg h]
      exact performs_pure hw (w, 0)

theorem performs_prepare (hw : Bridge S) (arg : XilXvcIoc) :
    Performs hw (Steps.prepare arg) fun s => (prepare hw arg s, ()) :=
  ((performs_iowrite32 hw controlRegOffset _).bind fun _ => performs_setLength hw _ _).congr fun _ => rfl

theorem performs_shiftVector (hw : Bridge S) (arg : XilXvcIoc) (tms tdi tdo : Block) (tdoLeft : Nat) :
    Performs hw (Steps.shiftVector arg tms tdi tdo tdoLeft) fun s =>
      let r := shiftVector hw arg tms tdi tdo tdoLeft s
      (r.hw, r.forget) := by
  let left := notCopied tdoLeft (numBytes arg.length)
  -- The result from what the loop leaves, over a bridge or without one.
  let result : ∀ {T : Type}, T → Shifting Unit × Int → IoctlResult T := fun hw w =>
    if w.2 ≠ 0 then ⟨hw, w.2, none, w.1.shifted, w.1.accesses⟩
    else ⟨hw, if left ≠ 0 then -EFAULT else 0, some (w.1.tdo.load 0 (numBytes arg.length - left)), w.1.shifted,
      w.1.accesses⟩
  refine ((performs_prepare hw arg).bind fun _ =>
    (performs_ioctlLoop hw arg.length tms tdi (rounds arg.length) 0 ⟨(), tdo, 0, []⟩).bind
      (g := fun w s => (s, result () w)) fun w => ?_).congr fun s => ?_
  · dsimp only [result]
    split
    · exact performs_pure hw _
    · exact performs_pure hw _
  · have hresult : ∀ (s : S) (w : Shifting Unit × Int), (s, result () w) = ((result s w).hw, (result s w).forget) := by
      intro s w
      dsimp only [result]
      split <;> rfl
    exact hresult _ _

/-- **`xil_xvc_ioctl`**, in steps. -/
theorem performs_xilXvcIoctl (hw : Bridge S) (arg : XilXvcIoc) (k : Kernel) :
    Performs hw (Steps.xilXvcIoctl arg k) fun s =>
      let r := xilXvcIoctl hw arg k s
      (r.hw, r.forget) := by
  have hearly : ∀ status, Performs hw (pure (.early () status)) fun s =>
      let r := IoctlResult.early s status
      (r.hw, r.forget) := fun status => performs_pure hw _
  unfold Steps.xilXvcIoctl xilXvcIoctl
  split
  · exact hearly _
  · split
    · exact hearly _
    · cases k.tmsBufTemp with
      | none => exact hearly _
      | some tms =>
        dsimp only
        split
        · exact hearly _
        · cases k.tdiBufTemp with
          | none => exact hearly _
          | some tdi =>
            dsimp only
            split
            · exact hearly _
            · cases k.tdoBufTemp with
              | none => exact hearly _
              | some tdo => exact performs_shiftVector hw arg _ _ tdo k.tdoLeft

end Performs

/-! ## The commands -/

/-- `struct xil_xvc_properties`. -/
structure XilXvcProperties where
  debugBridgeBaseAddr : Nat
  debugBridgeSize : Nat
  debugBridgeCompatString : String
  deriving DecidableEq

/-- `DEBUG_BRIDGE_COMPAT_STRING`. -/
def debugBridgeCompatString : String := "xlnx,xvc"

/-- `xil_xvc_readprops`, when `copy_to_user` leaves `left` of the 80 bytes; `db_config` is not NULL. -/
def xilXvcReadprops (config : DbConfig) (left : Nat) : Int × Option XilXvcProperties :=
  if notCopied left 80 ≠ 0 then (-ENOMEM, none)
  else (0, some ⟨config.baseAddr, config.size, debugBridgeCompatString⟩)

/-- An open file of the character device. -/
structure DevFile where
  inode : Nat
  minor : Nat

/-- A call of `ioctl` on the file `file`, and how the kernel's functions come out. -/
structure Request (F : Type) where
  file : F
  cmd : Command
  arg : XilXvcIoc
  kernel : Kernel
  propsLeft : Nat

/-- What a call returns and copies to the user. -/
inductive Reply where
  | shifted (r : IoctlResult Unit)
  | props (r : Int × Option XilXvcProperties)
  | failed (errno : Int)

section Device

variable {F : Type} (hw : Bridge S) (cfg : Config) (d : Driver) (files : F → DevFile)

/-- `char_ctrl_ioctl` in steps, inside the lock. -/
def Steps.charCtrlIoctl (q : Request F) : RegProg S Reply :=
  match ZynqMP.charCtrlIoctl cfg d q.cmd (files q.file).minor with
  | .xilXvcIoctl _ => do
    let r ← Steps.xilXvcIoctl q.arg q.kernel
    pure (.shifted r)
  | .xilXvcReadprops config => pure (.props (xilXvcReadprops config q.propsLeft))
  | .fails errno => pure (.failed errno)

/-- The calls, under the locks of the inodes, on the bridges at `db_ptrs`. -/
def device : Calls (Request F) Nat Ptr S RegCall RegCall.Answer Reply where
  world := registers hw
  lock q := (files q.file).inode
  cell q := d.dbPtrs (files q.file).minor
  body q := Steps.charCtrlIoctl cfg d files q

/-- A call of `char_ctrl_ioctl` that nothing comes into, on the bridge of the file. -/
def answer (s : S) (q : Request F) : S × Reply :=
  match charCtrlIoctl cfg d q.cmd (files q.file).minor with
  | .xilXvcIoctl _ =>
    let r := xilXvcIoctl hw q.arg q.kernel s
    (r.hw, .shifted r.forget)
  | .xilXvcReadprops config => (s, .props (xilXvcReadprops config q.propsLeft))
  | .fails errno => (s, .failed errno)

/-- Calls one after the other. -/
def answers (s : S) : List (Request F) → S × List Reply
  | [] => (s, [])
  | q :: l =>
    let r := answer hw cfg d files s q
    let rest := answers r.1 l
    (rest.1, r.2 :: rest.2)

end Device

/-! ## The processes -/

section Processes

variable {F ι : Type} {hw : Bridge S} {cfg : Config} {d : Driver} {files : F → DevFile}

theorem performs_charCtrlIoctl (q : Request F) :
    Performs hw (Steps.charCtrlIoctl cfg d files q) fun s => answer hw cfg d files s q := by
  unfold Steps.charCtrlIoctl answer
  cases charCtrlIoctl cfg d q.cmd (files q.file).minor with
  | xilXvcIoctl p => exact (performs_xilXvcIoctl hw q.arg q.kernel).bind fun r => performs_pure hw _
  | xilXvcReadprops config => exact performs_pure hw _
  | fails errno => exact performs_pure hw _

theorem answers_concat (s : S) (l : List (Request F)) (q : Request F) :
    answers hw cfg d files s (l ++ [q]) =
      let r := answers hw cfg d files s l
      ((answer hw cfg d files r.1 q).1, r.2 ++ [(answer hw cfg d files r.1 q).2]) := by
  induction l generalizing s with
  | nil => rfl
  | cons a l ih => simp only [List.cons_append, answers, ih]

/-- What is done in turn is `answers`. -/
theorem answers_of_inTurn {s t : S} {l : List (Calls.Entry ι (Request F) Reply)}
    (h : (device hw cfg d files).InTurn s l t) : answers hw cfg d files s (l.map (·.call)) = (t, l.map (·.result)) := by
  induction h with
  | nil => rfl
  | @snoc y z l e log _ hrun ih =>
    have hanswer : answer hw cfg d files y e.call = (z, e.result) := performs_charCtrlIoctl _ _ _ _ _ hrun
    rw [List.map_append, List.map_singleton, answers_concat, ih, List.map_append, List.map_singleton]
    simp only [hanswer]

/-- The driver when none of its functions is running. -/
theorem inv_of_reaches (h : (lifecycle cfg).Reaches Driver.start (d, .done ())) : Inv cfg d.bound d := by
  have hstart : Inv cfg Driver.start.bound Driver.start :=
    ⟨⟨by simp [Driver.start], by simp [Driver.start, Mapped], by simp [Driver.start]⟩, by simp [Driver.start],
      fun _ => rfl, fun _ _ _ => rfl⟩
  exact (Session.invariant (S := lifecycle cfg) (I := Moment) (J := fun s => Inv cfg s.bound s)
    (fun _ hs => hs.moment) (fun _ j hs hmay => job_keeps (j := j) hs hmay) hstart h).2

/-- Through one device node for each bridge, the calls on a bridge are in turn. -/
theorem answers_of_run [DecidableEq ι] (hd : (lifecycle cfg).Reaches Driver.start (d, .done ()))
    (hmapped : ∀ f, ∃ a, d.dbPtrs (files f).minor = .valid a)
    (hnode : ∀ f g, (files f).minor = (files g).minor → (files f).inode = (files g).inode) {start : Ptr → S}
    {s : Calls.State ι (Request F) Nat Ptr S RegCall RegCall.Answer Reply}
    (hrun : ReflTransGen (Calls.Step (device hw cfg d files)) (.start start) s) (p : Ptr) :
    ∃ x, answers hw cfg d files (start p) ((s.on (device hw cfg d files) p).map (·.call)) =
        (x, (s.on (device hw cfg d files) p).map (·.result)) ∧ (s.Free (device hw cfg d files) p → s.cells p = x) := by
  have hlock : ∀ q r : Request F, d.dbPtrs (files q.file).minor = d.dbPtrs (files r.file).minor →
      (files q.file).inode = (files r.file).inode := by
    intro q r hptr
    obtain ⟨a, ha⟩ := hmapped q.file
    exact hnode _ _ ((inv_of_reaches hd).inj _ _ a ha (hptr ▸ ha))
  obtain ⟨x, hturn, hcell⟩ := (Calls.inv_of_run hlock hrun).cell p
  exact ⟨x, answers_of_inTurn hturn, hcell.free⟩

end Processes

/-! ## Over a device -/

section Shifts

variable {F : Type} (cfg : Config) (d : Driver) (files : F → DevFile) {dev : Device S}
  {step : S → Bool → Bool → S × Bool}

/-- A shift of less than 2^31 bits, in which nothing of the kernel fails. -/
structure Request.IsShift (q : Request F) : Prop where
  cmd : q.cmd = .iocXvc
  opcode : q.arg.opcode = 1
  length : q.arg.length < 2 ^ 31
  kernel : q.kernel.Succeeds

def Reply.status : Reply → Int
  | .shifted r => r.status
  | .props r => r.1
  | .failed errno => errno

/-- The bits of TDO that were copied to the user. -/
def Reply.tdo : Reply → List Bool
  | .shifted r => vectorBits (r.delivered.getD []) r.shifted
  | _ => []

theorem answer_shift (ht : dev.InTime) (hs : dev.Serial step) {q : Request F} (hq : q.IsShift) (r : Regs S) :
    ∃ x out acc, BitSerially step q.arg r x out ∧
      answer (debugBridge dev) cfg d files r q = (x, .shifted ⟨(), 0, some out, q.arg.length, acc⟩) := by
  obtain ⟨x, out, hx, hshift⟩ := shiftVector_serially ht hs q.arg hq.opcode hq.length r
  obtain ⟨tms, tdi, tdo, hcall⟩ := xilXvcIoctl_succeeds (debugBridge dev) q.arg hq.opcode hq.kernel r
  obtain ⟨acc, h⟩ := hshift tms tdi tdo
  refine ⟨x, out, acc, hx, ?_⟩
  unfold answer
  rw [hq.cmd]
  simp only [charCtrlIoctl, hcall.trans h]
  rfl

/-- **Shifts one after the other** are one shift of all their vectors. -/
theorem answers_shifts (ht : dev.InTime) (hs : dev.Serial step) (l : List (Request F)) (hl : ∀ q ∈ l, q.IsShift)
    (r : Regs S) :
    let a := answers (debugBridge dev) cfg d files r l
    let vectors := l.flatMap fun q => q.arg.clocks
    a.1.state = (run step r.state vectors).1 ∧ clocks a.1.triggers = clocks r.triggers ++ vectors ∧
      a.2.flatMap Reply.tdo = (run step r.state vectors).2 ∧ ∀ x ∈ a.2, x.status = 0 := by
  induction l generalizing r with
  | nil => exact ⟨rfl, (List.append_nil _).symm, rfl, nofun⟩
  | cons q l ih =>
    obtain ⟨hq, hl⟩ := List.forall_mem_cons.mp hl
    obtain ⟨x, out, acc, hx, hanswer⟩ := answer_shift cfg d files ht hs hq r
    obtain ⟨hstate, hclocks, htdo, hstatus⟩ := ih hl x
    simp only [answers, hanswer, List.flatMap_cons]
    refine ⟨?_, ?_, ?_, List.forall_mem_cons.mpr ⟨rfl, hstatus⟩⟩
    · rw [hstate, hx.state, run_append]
    · rw [hclocks, hx.clocks, List.append_assoc]
    · have hout : Reply.tdo (.shifted ⟨(), 0, some out, q.arg.length, acc⟩) =
          (run step r.state q.arg.clocks).2 := hx.tdo
      rw [hout, htdo, hx.state, run_append]

end Shifts

/-- **The character device.** Any number of processes make any calls of `ioctl` through open files of mapped entries,
with one device node for each minor, and interleave in any way, register access by register access. Then, at any moment,
the finished calls on a bridge have done and returned what they do and return one after the other, in the order in which
they gave the lock back. With shifts only, over a device that takes one bit a clock, the device got their vectors one
after the other, and each got its own part of TDO. -/
theorem ioctls_in_turn {F ι : Type} [DecidableEq ι] {cfg : Config} {d : Driver}
    (hd : (lifecycle cfg).Reaches Driver.start (d, .done ())) (files : F → DevFile)
    (hmapped : ∀ f, ∃ a, d.dbPtrs (files f).minor = .valid a)
    (hnode : ∀ f g, (files f).minor = (files g).minor → (files f).inode = (files g).inode) (p : Ptr) :
    (∀ (hw : Bridge S) (start : Ptr → S) (s : Calls.State ι (Request F) Nat Ptr S RegCall RegCall.Answer Reply),
      ReflTransGen (Calls.Step (device hw cfg d files)) (.start start) s →
      let done := s.on (device hw cfg d files) p
      ∃ x, answers hw cfg d files (start p) (done.map (·.call)) = (x, done.map (·.result)) ∧
        (s.Free (device hw cfg d files) p → s.cells p = x)) ∧
    ∀ (dev : Device S) (step : S → Bool → Bool → S × Bool), dev.InTime → dev.Serial step →
      ∀ (start : Ptr → Regs S) (s : Calls.State ι (Request F) Nat Ptr (Regs S) RegCall RegCall.Answer Reply),
      ReflTransGen (Calls.Step (device (debugBridge dev) cfg d files)) (.start start) s →
      let done := s.on (device (debugBridge dev) cfg d files) p
      let vectors := done.flatMap fun e => e.call.arg.clocks
      (∀ e ∈ done, e.call.IsShift) →
        (∀ e ∈ done, e.result.status = 0) ∧
        done.flatMap (fun e => e.result.tdo) = (run step (start p).state vectors).2 ∧
        (s.Free (device (debugBridge dev) cfg d files) p →
          (s.cells p).state = (run step (start p).state vectors).1 ∧
          clocks (s.cells p).triggers = clocks (start p).triggers ++ vectors) := by
  refine ⟨fun hw start s hrun => answers_of_run hd hmapped hnode hrun p, ?_⟩
  intro dev step ht hs start s hrun done vectors hshifts
  obtain ⟨x, hanswers, hfree⟩ := answers_of_run hd hmapped hnode hrun p
  have hcalls : ∀ q ∈ done.map (·.call), q.IsShift := by
    intro q hq
    obtain ⟨e, he, rfl⟩ := List.mem_map.mp hq
    exact hshifts e he
  have hturn := answers_shifts cfg d files ht hs _ hcalls (start p)
  rw [show answers (debugBridge dev) cfg d files (start p) (done.map (·.call)) = (x, done.map (·.result)) from hanswers]
    at hturn
  simp only [List.flatMap_map] at hturn
  obtain ⟨hstate, hclocks, htdo, hstatus⟩ := hturn
  refine ⟨fun e he => hstatus _ (List.mem_map_of_mem he), htdo, fun hp => ?_⟩
  rw [hfree hp]
  exact ⟨hstate, hclocks⟩

/-- A loaded module whose device is bound. -/
theorem exists_bound : ∃ d a, (lifecycle .byRes).Reaches Driver.start (d, .done ()) ∧ d.dbPtrs 0 = .valid a := by
  have hlead : (lifecycle .byRes).Leads (Driver.start, .done ()) fun c =>
      c.2 = .done () ∧ ∃ a, c.1.dbPtrs 0 = .valid a := by
    refine leads_loaded ?_
    refine .step (lifecycle_start (.bind 7) ⟨rfl, by decide⟩) ?_
    refine .step (.run (.call (0 : Int) trivial)) ?_
    refine .step (.run .get) ?_
    refine .step (.run (.call (.valid 1) ⟨nofun, fun a _ => rfl⟩)) ?_
    refine .step (.run .set) ?_
    refine .step (.run .set) ?_
    refine .step (.run (.call (0 : Int) trivial)) ?_
    refine .step (.run .get) ?_
    refine .step (.run (.call (.valid 2) ⟨nofun, fun _ => ⟨⟨1, rfl⟩, rfl⟩⟩)) ?_
    refine .step (.run (.call (some ⟨0x80010000, 0x10000⟩) trivial)) ?_
    refine .step (.run .set) ?_
    refine .step (.run (.call (.valid 3) ⟨nofun, fun a _ => rfl, fun _ => rfl⟩)) ?_
    refine .step (.run .set) ?_
    refine .step (.run .set) ?_
    exact .here ⟨rfl, 3, rfl⟩
  obtain ⟨⟨d, p⟩, hreach, rfl, a, ha⟩ := hlead
  exact ⟨d, a, hreach, ha⟩

/-- A shift of `n` bits, through the only file. -/
def shiftOf (n : Nat) : Request Unit := ⟨(), .iocXvc, ⟨1, n, fun _ => 5, fun _ => 7⟩, calmKernel, 0⟩

/-- Two processes with the one device file open. -/
theorem ioctls_in_turn_two :
    ∃ s : Calls.State Bool (Request Unit) Nat Ptr (Regs Nat) RegCall RegCall.Answer Reply,
      s.done.map (fun e => (e.party, e.call)) = [(false, shiftOf 40), (true, shiftOf 8)] ∧
        s.done.flatMap (fun e => e.result.tdo) =
          (run counting 0 ((shiftOf 40).arg.clocks ++ (shiftOf 8).arg.clocks)).2 := by
  obtain ⟨d, a, hd, ha⟩ := exists_bound
  let files : Unit → DevFile := fun _ => ⟨7, 0⟩
  have hlive : ∀ (c : RegCall) (r : Regs Nat),
      ∃ v, (device (debugBridge countingDevice) .byRes d files).world.answers c v r := by
    rintro (offset | ⟨offset, value⟩) r
    · exact ⟨_, rfl⟩
    · exact ⟨(), trivial⟩
  obtain ⟨s, hrun, -, -, hdone⟩ :=
    Calls.exists_run hlive [(false, shiftOf 40), (true, shiftOf 8)] fun _ => Regs.initial 0
  refine ⟨s, hdone, ?_⟩
  have hcalls : s.done.map (·.call) = [shiftOf 40, shiftOf 8] := by
    have h := congrArg (List.map Prod.snd) hdone
    rwa [List.map_map] at h
  have hon : s.on (device (debugBridge countingDevice) .byRes d files) (.valid a) = s.done :=
    List.filter_eq_self.mpr fun e _ => decide_eq_true ha
  have hturn := (ioctls_in_turn (S := Nat) hd files (fun _ => ⟨a, ha⟩) (fun _ _ _ => rfl) (.valid a)).2 countingDevice
    counting countingDevice_inTime (Engine.of_serial counting) (fun _ => Regs.initial 0) s hrun
  simp only [hon] at hturn
  have hshift : ∀ e ∈ s.done, e.call.IsShift := by
    intro e he
    have hmem : e.call ∈ [shiftOf 40, shiftOf 8] := hcalls ▸ List.mem_map_of_mem he
    rcases List.mem_pair.mp hmem with h | h <;> rw [h] <;> exact ⟨rfl, rfl, by decide, calmKernel_succeeds⟩
  rw [(hturn hshift).2.1, ← List.flatMap_map (f := fun e : Calls.Entry Bool (Request Unit) Reply => e.call)
    (g := fun q => q.arg.clocks), hcalls]
  rfl

end ZynqMP
end Xvc
