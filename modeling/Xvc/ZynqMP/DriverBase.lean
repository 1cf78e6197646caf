import Xvc.Lib.Ledger
import Xvc.Lib.Program

/-!
# The driver's lifecycle

`jtag/zynqMP/src/driver/xvc_driver_base.c`: the module's `init`, `probe`, `remove` and `exit`, as programs
that call the kernel. The kernel may answer every call with success or failure; `kernel` says only what
it documents: a pointer that it hands out is not one that is in use, there is no device in a class that is
none, nor a second one of the same number, and nothing is mapped where there is no resource.

`Job` is what the driver core runs: a device is bound by `probe` and detached by `remove`, which also
releases the device's `devm` mappings, and `platform_driver_unregister` detaches all that are bound.
What is only printed is left out.
-/

namespace Xvc
namespace ZynqMP

open Ledger

/-- A pointer from the kernel: `NULL`, one that `IS_ERR`, or an address. -/
inductive Ptr where
  | null
  | err (errno : Int)
  | valid (addr : Nat)
  deriving DecidableEq

def Ptr.isErr : Ptr → Bool
  | err _ => true
  | _ => false

/-- `PTR_ERR`; of a pointer that is no error the value is some address. -/
def Ptr.ptrErr : Ptr → Int
  | null => 0
  | err e => e
  | valid a => a

theorem Ptr.exists_err {p : Ptr} (herr : p.isErr = true) : ∃ e, p = .err e := by
  cases p with
  | err e => exact ⟨e, rfl⟩
  | null => cases herr
  | valid a => cases herr

/-- `struct db_config`. -/
structure DbConfig where
  name : Option String
  baseAddr : Nat
  size : Nat
  deriving DecidableEq

/-- `struct resource`, of a memory region. -/
structure MemRes where
  start : Nat
  size : Nat
  deriving DecidableEq

/-- `xvc_user_config.h`: empty, so that the device's own resource is mapped (`GET_DB_BY_RES`), or with
`db_configs`. -/
inductive Config where
  | byRes
  | user (dbConfigs : List DbConfig)

/-- `CONFIG_COUNT`. -/
def Config.count : Config → Nat
  | byRes => 1
  | user l => l.length

/-- `XVC_DRIVER_NAME`. -/
def driverName : String := "xilinx_xvc_driver"

/-- `ioc_device_name`. -/
def iocDeviceName (cfg : Config) (i : Nat) : String :=
  let name := match cfg with
    | .byRes => none
    | .user l => l[i]?.bind (·.name)
  match name with
  | some n => if n ≠ "" then driverName ++ "_" ++ n else indexed
  | none => indexed
where
  indexed : String := if 1 < cfg.count then driverName ++ "_" ++ toString i else driverName

/-- What the driver acquires. -/
inductive Resource where
  | region
  | cls (addr : Nat)
  | cdev
  | node (i : Nat)
  | mapping (addr : Nat)
  deriving DecidableEq

/-- Where the module is in its life. -/
inductive Stage where
  | fresh
  | live
  | failed
  | unloaded
  deriving DecidableEq

/-- What is done to an entry of `db_ptrs`. -/
inductive EntryEvent where
  /-- `probe` has stored what the kernel answered. -/
  | stored (i : Nat) (p : Ptr)
  /-- `remove` has unmapped the entry. -/
  | unmapped (i : Nat)
  /-- `remove`, or `init` at first, has stored `NULL`. -/
  | cleared (i : Nat)

/-- The module's statics, the devices in its class (`nodes`), the driver core's devices (`bound`, and the mappings of
each in `devres`), and what has been done so far. -/
structure Driver where
  xvcDevClass : Ptr
  /-- `xvc_char_ioc_dev.owner != NULL`. -/
  cdevOwner : Bool
  dbPtrs : Nat → Ptr
  dbRes : Option MemRes
  nodes : List Nat
  stage : Stage
  bound : List Nat
  devres : List (Nat × Nat)
  ledger : List (Op Resource)
  entries : List EntryEvent

/-- The module before it is loaded. -/
def Driver.start : Driver := ⟨.null, false, fun _ => .null, none, [], .fresh, [], [], [], []⟩

/-! ## The kernel -/

inductive KernelCall where
  | allocChrdevRegion
  | unregisterChrdevRegion
  | platformDriverRegister
  | classCreate
  | classDestroy (cls : Ptr)
  | cdevAdd
  | cdevDel
  | deviceCreate (cls : Ptr) (i : Nat) (name : String)
  | deviceDestroy (cls : Ptr) (i : Nat)
  | platformGetResource (pdev : Nat)
  | ioremap (addr size : Nat)
  | devmIoremapResource (pdev : Nat) (res : Option MemRes)
  | iounmap (i : Nat) (p : Ptr)
  /-- The driver core releases what `devm` calls acquired for the device. -/
  | devresRelease (pdev : Nat)
  /-- The value of an `int` that is not initialised. -/
  | undef

abbrev Answer : KernelCall → Type
  | .allocChrdevRegion | .platformDriverRegister | .cdevAdd | .undef => Int
  | .classCreate | .deviceCreate .. | .ioremap .. | .devmIoremapResource .. => Ptr
  | .platformGetResource _ => Option MemRes
  | _ => Unit

abbrev Prog := Program Driver KernelCall Answer

open KernelCall

/-- A pointer to what is not in use. -/
def Driver.Fresh (s : Driver) (r : Nat → Resource) (p : Ptr) : Prop := ∀ a, p = .valid a → balance s.ledger (r a) = 0

/-- What the kernel may answer. -/
def kernelAnswers : (c : KernelCall) → Answer c → Driver → Prop
  | classCreate, p, s => p ≠ .null ∧ s.Fresh .cls p
  | deviceCreate cls i _, p, s =>
    p ≠ .null ∧ ((∃ a, p = .valid a) → (∃ a, cls = .valid a) ∧ balance s.ledger (.node i) = 0)
  | ioremap _ _, p, s => p.isErr = false ∧ s.Fresh .mapping p
  | devmIoremapResource _ res, p, s => p ≠ .null ∧ s.Fresh .mapping p ∧ ((∃ a, p = .valid a) → res.isSome = true)
  | _, _, _ => True

/-- The ledger with another entry. -/
def Driver.op (s : Driver) (o : Op Resource) : Driver := { s with ledger := s.ledger ++ [o] }

/-- What a pointer stands for is acquired. -/
def Driver.acquirePtr (s : Driver) (r : Nat → Resource) : Ptr → Driver
  | .valid a => s.op (.acquire (r a))
  | _ => s

def Driver.releasePtr (s : Driver) (r : Nat → Resource) : Ptr → Driver
  | .valid a => s.op (.release (r a))
  | _ => s

section

variable (s : Driver) (r : Nat → Resource) (p : Ptr)

@[simp] theorem Driver.acquirePtr_dbPtrs : (s.acquirePtr r p).dbPtrs = s.dbPtrs := by cases p <;> rfl
@[simp] theorem Driver.acquirePtr_bound : (s.acquirePtr r p).bound = s.bound := by cases p <;> rfl
@[simp] theorem Driver.acquirePtr_devres : (s.acquirePtr r p).devres = s.devres := by cases p <;> rfl
@[simp] theorem Driver.acquirePtr_stage : (s.acquirePtr r p).stage = s.stage := by cases p <;> rfl
@[simp] theorem Driver.acquirePtr_xvcDevClass : (s.acquirePtr r p).xvcDevClass = s.xvcDevClass := by cases p <;> rfl
@[simp] theorem Driver.acquirePtr_cdevOwner : (s.acquirePtr r p).cdevOwner = s.cdevOwner := by cases p <;> rfl
@[simp] theorem Driver.releasePtr_stage : (s.releasePtr r p).stage = s.stage := by cases p <;> rfl
@[simp] theorem Driver.releasePtr_dbPtrs : (s.releasePtr r p).dbPtrs = s.dbPtrs := by cases p <;> rfl
@[simp] theorem Driver.releasePtr_bound : (s.releasePtr r p).bound = s.bound := by cases p <;> rfl
@[simp] theorem Driver.releasePtr_devres : (s.releasePtr r p).devres = s.devres := by cases p <;> rfl

end

/-- A device is added to the class, and taken out of it if it is there. -/
def Driver.addNode (s : Driver) (i : Nat) : Ptr → Driver
  | .valid _ => { s.op (.acquire (.node i)) with nodes := i :: s.nodes }
  | _ => s

def Driver.removeNode (s : Driver) (i : Nat) : Ptr → Driver
  | .valid _ => if i ∈ s.nodes then { s.op (.release (.node i)) with nodes := s.nodes.filter (· ≠ i) } else s
  | _ => s

section

variable (s : Driver) (i : Nat) (cls : Ptr)

/-- Nothing else changes. -/
structure Driver.NodesOnly (s t : Driver) : Prop where
  stage : t.stage = s.stage
  xvcDevClass : t.xvcDevClass = s.xvcDevClass
  cdevOwner : t.cdevOwner = s.cdevOwner
  dbPtrs : t.dbPtrs = s.dbPtrs
  bound : t.bound = s.bound
  devres : t.devres = s.devres
  entries : t.entries = s.entries
  other : ∀ r, (∀ i, r ≠ .node i) → balance t.ledger r = balance s.ledger r

theorem Driver.addNode_nodesOnly : s.NodesOnly (s.addNode i cls) := by
  cases cls with
  | valid a => exact ⟨rfl, rfl, rfl, rfl, rfl, rfl, rfl, fun r hr => by simp [addNode, Driver.op, (hr i).symm]⟩
  | _ => exact ⟨rfl, rfl, rfl, rfl, rfl, rfl, rfl, fun _ _ => rfl⟩

theorem Driver.removeNode_nodesOnly : s.NodesOnly (s.removeNode i cls) := by
  cases cls with
  | valid a =>
    by_cases h : i ∈ s.nodes
    · rw [removeNode, if_pos h]
      exact ⟨rfl, rfl, rfl, rfl, rfl, rfl, rfl, fun r hr => by simp [Driver.op, (hr i).symm]⟩
    · rw [removeNode, if_neg h]
      exact ⟨rfl, rfl, rfl, rfl, rfl, rfl, rfl, fun _ _ => rfl⟩
  | _ => exact ⟨rfl, rfl, rfl, rfl, rfl, rfl, rfl, fun _ _ => rfl⟩

theorem Driver.removeNode_of_mem {s : Driver} {i : Nat} (h : i ∈ s.nodes) (a : Nat) :
    s.removeNode i (.valid a) = { s.op (.release (.node i)) with nodes := s.nodes.filter (· ≠ i) } := if_pos h

/-- A device is destroyed once at most. -/
theorem Driver.le_balance_removeNode (j : Nat) :
    balance s.ledger (.node j) - (if i = j then 1 else 0) ≤ balance (s.removeNode i cls).ledger (.node j) := by
  have hsame : balance s.ledger (.node j) - (if i = j then 1 else 0) ≤ balance s.ledger (.node j) := by
    split <;> omega
  cases cls with
  | valid a =>
    by_cases h : i ∈ s.nodes
    · rw [removeNode, if_pos h]
      simp [Driver.op]
    · rw [removeNode, if_neg h]
      exact hsame
  | _ => exact hsame

end

/-- What the calls do. `class_destroy` and `device_destroy` do nothing without a class; `device_destroy` finds the
devices of this class only, not those that a class before it left behind. -/
def kernelEffect : (c : KernelCall) → Answer c → Driver → Driver
  | allocChrdevRegion, (err : Int), s => if err = 0 then s.op (.acquire .region) else s
  | unregisterChrdevRegion, _, s => s.op (.release .region)
  | classCreate, p, s => s.acquirePtr .cls p
  | classDestroy cls, _, s => { s.releasePtr .cls cls with nodes := [] }
  | cdevAdd, (err : Int), s => if err = 0 then s.op (.acquire .cdev) else s
  | cdevDel, _, s => s.op (.release .cdev)
  | deviceCreate _ i _, p, s => s.addNode i p
  | deviceDestroy cls i, _, s => s.removeNode i cls
  | ioremap _ _, p, s => s.acquirePtr .mapping p
  | devmIoremapResource pdev _, p, s =>
    match p with
    | .valid a => { s.op (.acquire (.mapping a)) with devres := s.devres ++ [(pdev, a)] }
    | _ => s
  | iounmap i p, _, s => { s.releasePtr .mapping p with entries := s.entries ++ [.unmapped i] }
  | devresRelease pdev, _, s =>
    { s with
      ledger := s.ledger ++ (s.devres.filter (·.1 = pdev)).map fun e => .release (.mapping e.2)
      devres := s.devres.filter (·.1 ≠ pdev) }
  | _, _, s => s

def kernel : World Driver KernelCall Answer := ⟨kernelAnswers, kernelEffect⟩

/-! ## The module -/

open Program

/-- `xil_xvc_cleanup`. -/
def xilXvcCleanup : Prog Unit := do
  let s ← read
  if s.xvcDevClass.isErr then pure ()
  else
    ask (classDestroy s.xvcDevClass)
    modify fun s => { s with xvcDevClass := .null }
    if s.cdevOwner then ask cdevDel
    ask unregisterChrdevRegion

/-- `db_ptrs[i] = ioremap(..)` or `devm_ioremap_resource(..)`: the pointer. -/
def remap (cfg : Config) (pdev i : Nat) : Prog Ptr :=
  match cfg with
  | .user l => ask (ioremap ((l[i]?.map (·.baseAddr)).getD 0) ((l[i]?.map (·.size)).getD 0))
  | .byRes => do
    let res ← ask (platformGetResource pdev)
    modify fun s => { s with dbRes := res }
    ask (devmIoremapResource pdev res)

/-- The assignment of `probe`. -/
def Driver.store (s : Driver) (i : Nat) (p : Ptr) : Driver :=
  { s with
    dbPtrs := fun j => if j = i then p else s.dbPtrs j
    entries := s.entries ++ [.stored i p] }

/-- `db_ptrs[i] = NULL`. -/
def Driver.clear (s : Driver) (i : Nat) : Driver :=
  { s with
    dbPtrs := fun j => if j = i then .null else s.dbPtrs j
    entries := s.entries ++ [.cleared i] }

def ENOMEM : Int := 12

/-- The loop of `probe`, with `left` entries left from `i` on. -/
def probeLoop (cfg : Config) (pdev : Nat) (status : Int) : (left i : Nat) → Prog Int
  | 0, _ => pure 0
  | left + 1, i => do
    let s ← read
    if s.dbPtrs i = .null then
      let device ← ask (deviceCreate s.xvcDevClass i (iocDeviceName cfg i))
      if device.isErr then
        xilXvcCleanup
        pure status
      else
        let p ← remap cfg pdev i
        modify (·.store i p)
        if p = .null ∨ p.isErr then pure (-ENOMEM)
        else probeLoop cfg pdev status left (i + 1)
    else probeLoop cfg pdev status left (i + 1)

def probe (cfg : Config) (pdev : Nat) : Prog Int := do
  let status ← ask undef
  let s ← read
  if s.xvcDevClass = .null then
    let cls ← ask classCreate
    modify fun s => { s with xvcDevClass := cls }
    if cls.isErr then
      xilXvcCleanup
      let s ← read
      pure s.xvcDevClass.ptrErr
    else
      modify fun s => { s with cdevOwner := true }
      let status : Int ← ask cdevAdd
      if status ≠ 0 then
        xilXvcCleanup
        pure status
      else probeLoop cfg pdev status cfg.count 0
  else probeLoop cfg pdev status cfg.count 0

/-- `iounmap(db_ptrs[i])`; a `devm` mapping is left to the driver core. -/
def unmap (cfg : Config) (i : Nat) (p : Ptr) : Prog Unit :=
  match cfg with
  | .user _ => ask (iounmap i p)
  | .byRes => pure ()

def removeLoop (cfg : Config) : (left i : Nat) → Prog Unit
  | 0, _ => pure ()
  | left + 1, i => do
    let s ← read
    if s.dbPtrs i ≠ .null then
      unmap cfg i (s.dbPtrs i)
      modify (·.clear i)
      ask (deviceDestroy s.xvcDevClass i)
      removeLoop cfg left (i + 1)
    else removeLoop cfg left (i + 1)

def remove (cfg : Config) : Prog Unit := removeLoop cfg cfg.count 0

/-- `xil_xvc_init`. -/
def xilXvcInit : Prog Int := do
  let err : Int ← ask allocChrdevRegion
  if err ≠ 0 then
    xilXvcCleanup
    pure err
  else
    -- memset(db_ptrs, 0, sizeof(*db_ptrs)): the first entry
    modify (·.clear 0)
    ask platformDriverRegister

/-! ## The driver core -/

/-- A device is probed, and bound if that returns 0. -/
def bindDevice (cfg : Config) (pdev : Nat) : Prog Unit := do
  let ret ← probe cfg pdev
  if ret = 0 then modify fun s => { s with bound := pdev :: s.bound }
  else ask (devresRelease pdev)

def detachDevice (cfg : Config) (pdev : Nat) : Prog Unit := do
  remove cfg
  ask (devresRelease pdev)
  modify fun s => { s with bound := s.bound.erase pdev }

def detachAll (cfg : Config) : List Nat → Prog Unit
  | [] => pure ()
  | pdev :: l => do
    detachDevice cfg pdev
    detachAll cfg l

/-- `xil_xvc_exit`. -/
def xilXvcExit (cfg : Config) : Prog Unit := do
  let s ← read
  -- platform_driver_unregister
  detachAll cfg s.bound
  xilXvcCleanup

inductive Job where
  | load
  | bind (pdev : Nat)
  | detach (pdev : Nat)
  | unload

def Job.body (cfg : Config) : Job → Prog Unit
  | load => do
    let err ← xilXvcInit
    modify fun s => { s with stage := if err = 0 then .live else .failed }
  | bind pdev => bindDevice cfg pdev
  | detach pdev => detachDevice cfg pdev
  | unload => do
    xilXvcExit cfg
    modify fun s => { s with stage := .unloaded }

def Job.May (s : Driver) : Job → Prop
  | load => s.stage = .fresh
  | bind pdev => s.stage = .live ∧ pdev ∉ s.bound
  | detach pdev => s.stage = .live ∧ pdev ∈ s.bound
  | unload => s.stage = .live

/-- The life of the module. -/
def lifecycle (cfg : Config) : Session Driver KernelCall Answer := ⟨kernel, Job, Job.May, Job.body cfg⟩

theorem lifecycle_start {cfg : Config} {s : Driver} (j : Job) (h : j.May s) :
    (lifecycle cfg).Step (s, .done ()) (s, j.body cfg) := .start (S := lifecycle cfg) j h

/-- The module after `xil_xvc_init`. -/
def Driver.loaded : Driver :=
  { Driver.start.clear 0 with
    stage := .live
    ledger := [.acquire .region] }

theorem leads_loaded {cfg : Config} {P : Driver × Prog Unit → Prop}
    (h : (lifecycle cfg).Leads (Driver.loaded, .done ()) P) : (lifecycle cfg).Leads (Driver.start, .done ()) P := by
  refine .step (lifecycle_start .load rfl) ?_
  refine .step (.run (.call (0 : Int) trivial)) ?_
  refine .step (.run .set) ?_
  refine .step (.run (.call (0 : Int) trivial)) ?_
  refine .step (.run .set) ?_
  exact h

/-! ## The character device -/

/-- The commands of `ioctl`. -/
inductive Command where
  | iocXvc
  | rdXvcProps
  | other (cmd : Nat)

/-- What `char_ctrl_ioctl` does: it calls one of the two functions, or returns an error. -/
inductive IoctlAction where
  | xilXvcIoctl (dbPtr : Ptr)
  | xilXvcReadprops (config : DbConfig)
  | fails (errno : Int)
  deriving DecidableEq

def ENOIOCTLCMD : Int := 515

/-- `char_ctrl_ioctl`; the region begins at minor 0, so `char_index` is the minor. -/
def charCtrlIoctl (cfg : Config) (s : Driver) (cmd : Command) (charIndex : Nat) : IoctlAction :=
  match cmd with
  | .iocXvc => .xilXvcIoctl (s.dbPtrs charIndex)
  | .rdXvcProps =>
    .xilXvcReadprops <| match cfg with
      | .byRes => ⟨none, (s.dbRes.map (·.start)).getD 0, (s.dbRes.map (·.size)).getD 0⟩
      | .user l => l[charIndex]?.getD ⟨none, 0, 0⟩
  | .other _ => .fails (-ENOIOCTLCMD)

end ZynqMP
end Xvc
