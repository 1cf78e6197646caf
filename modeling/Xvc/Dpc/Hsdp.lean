import Xvc.Lib.Program
import Xvc.Server.Client

/-!
# The packet rings

`hsdp.h`, `hsdp_setup` of `hsdp_lib.c` and `hsdp_send_packet` of `hsdp.c`, all of `dpc/src`. The debug packets
go through two rings of descriptors and packet slots in memory that the server shares with an AXI DMA.

* `HsdpRegion`: the macros for a ring's addresses; `hsdpSetup` lays the four regions out.
* `Access`: an access of the server to the shared memory or a register of the DMA.
* `shared`: the DMA may act before any of them. What it does is left open.
* `hsdpSendPacket`: the program that sends a packet.
-/

namespace Xvc
namespace Dpc

open ByteMem Program

variable {δ : Type}

/-! ## Regions -/

/-- `hsdp_region`: entries of `packet_size` bytes; `last` is the one that was used last. -/
structure HsdpRegion where
  axiBase : Nat
  buffer : Nat
  bufferSize : Nat
  packetSize : Nat
  last : Int

namespace HsdpRegion

/-- `HSDP_BUFFER`. -/
def entry (r : HsdpRegion) (index : Nat) : Nat := r.buffer + r.packetSize * index

/-- `HSDP_AXI_ADDR`. -/
def axiAddr (r : HsdpRegion) (index : Nat) : Nat := r.axiBase + r.packetSize * index

/-- `HSDP_NEXT`; the comparison is made in `size_t`. -/
def next (r : HsdpRegion) : Nat :=
  let index := ((r.last + 1) % 2 ^ 64).toNat
  if u64 (index * r.packetSize) < r.bufferSize then index else 0

/-- `HSDP_COUNT`. -/
def count (r : HsdpRegion) : Nat := r.bufferSize / r.packetSize

/-- Byte `a` is one of entry `index`. -/
def Covers (r : HsdpRegion) (index a : Nat) : Prop := r.entry index ≤ a ∧ a < r.entry index + r.packetSize

end HsdpRegion

/-- The regions of `hsdp_dma`. -/
structure HsdpDma where
  ipkts : HsdpRegion
  epkts : HsdpRegion
  idesc : HsdpRegion
  edesc : HsdpRegion

def maxEgressPackets : Nat := 4
def dmaDescSize : Nat := 0x40
def dmaPacketBuffSizeDefault : Nat := 0x410

/-- `hsdp_setup`, up to `hsdp_enable`; `memset` has set each `last` to 0. -/
def hsdpSetup (buffer physical : Nat) : HsdpDma :=
  let descSize := maxEgressPackets * dmaDescSize
  let pktsSize := maxEgressPackets * dmaPacketBuffSizeDefault
  let offset := descSize * 2
  { idesc := ⟨physical, buffer, descSize, dmaDescSize, 0⟩
    edesc := ⟨physical + descSize, buffer + descSize, descSize, dmaDescSize, 0⟩
    ipkts := ⟨physical + offset, buffer + offset, pktsSize, dmaPacketBuffSizeDefault, 0⟩
    epkts := ⟨physical + offset + pktsSize, buffer + offset + pktsSize, pktsSize, dmaPacketBuffSizeDefault, 0⟩ }

/-! ## Shared memory -/

def regDescNext : Nat := 0x00
def regDescBuff : Nat := 0x08
def regDescCntl : Nat := 0x18
def regDescSts : Nat := 0x1C

/-- What the server and the DMA share: the memory, and the registers that the server writes; `engine` is the
DMA's own state. -/
structure Fabric (δ : Type) where
  mem : ByteMem
  ingressTail : Nat
  egressTail : Nat
  engine : δ

/-- What the driver has done: a packet of so many words was to be sent, so many bytes of the shared memory were
written, a TAIL was written. -/
inductive Effect where
  | send (wordCount : Nat)
  | store (addr count : Nat)
  | ingressTail (value : Nat)
  | egressTail (value : Nat)
  deriving DecidableEq

/-- The driver: `hsdp_dma`, whether `ENABLE_DMA_64BIT_ADDR` is set, what it shares with the DMA, and what it has
done. -/
structure Hsdp (δ : Type) where
  dma : HsdpDma
  wide : Bool
  fabric : Fabric δ
  log : List Effect

/-- An access of the driver. -/
inductive Access where
  | read (addr : Nat)
  | write (addr : Nat) (bytes : List UInt8)
  | ingressTail (value : Nat)
  | egressTail (value : Nat)
  deriving DecidableEq

/-- The answer to an access is what the DMA has made of the shared state before it. -/
abbrev Found (δ : Type) : Access → Type := fun _ => Fabric δ

/-- The effect of an access. -/
def Hsdp.access (c : Access) (f : Fabric δ) (h : Hsdp δ) : Hsdp δ :=
  match c with
  | .read _ => { h with fabric := f }
  | .write a l => { h with fabric := { f with mem := write f.mem a l }, log := h.log ++ [.store a l.length] }
  | .ingressTail v => { h with fabric := { f with ingressTail := v }, log := h.log ++ [.ingressTail v] }
  | .egressTail v => { h with fabric := { f with egressTail := v }, log := h.log ++ [.egressTail v] }

/-- The DMA takes any number of its steps before each access. -/
def shared (step : Fabric δ → Fabric δ → Prop) : World (Hsdp δ) Access (Found δ) where
  answers _ f h := Relation.ReflTransGen step h.fabric f
  effect c f h := h.access c f

abbrev HsdpProg (δ : Type) := Program (Hsdp δ) Access (Found δ)

/-- A 32-bit register in the memory. -/
def readReg (addr : Nat) : HsdpProg δ Nat := do
  let f ← ask (.read addr)
  pure (ofLe (slice f.mem addr 4))

def writeReg (addr value : Nat) : HsdpProg δ Unit := do
  let _ ← ask (.write addr (leBytes 4 value))

/-- The bytes of a register of the `64` kind. -/
def regBytes (wide : Bool) : Nat := if wide then 8 else 4

/-- `REG_INGRESS_DESC64` and `REG_EGRESS_DESC64`: one store of 4 or 8 bytes. -/
def writeReg64 (wide : Bool) (addr value : Nat) : HsdpProg δ Unit := do
  let _ ← ask (.write addr (leBytes (regBytes wide) value))

/-- `memcpy` into the memory, byte by byte. -/
def copyIn : (addr : Nat) → List UInt8 → HsdpProg δ Unit
  | _, [] => pure ()
  | addr, b :: l => do
    let _ ← ask (.write addr [b])
    copyIn (addr + 1) l

/-! The rules for these, with any `I` between the accesses. -/

section Rules

variable {step : Fabric δ → Fabric δ → Prop} {I : Hsdp δ → Prop} {h : Hsdp δ}

theorem always_readReg {addr : Nat} {Q : Nat → Hsdp δ → Prop}
    (hall : ∀ f, I { h with fabric := f } ∧ Q (ofLe (slice f.mem addr 4)) { h with fabric := f }) :
    (readReg addr).Always (shared step) I Q h :=
  fun f _ => hall f

theorem always_write {addr : Nat} {bytes : List UInt8} {Q : Fabric δ → Hsdp δ → Prop}
    (hall : ∀ f, I (h.access (.write addr bytes) f) ∧ Q f (h.access (.write addr bytes) f)) :
    (ask (Access.write addr bytes) : HsdpProg δ (Fabric δ)).Always (shared step) I Q h :=
  fun f _ => hall f

end Rules

/-! ## Sending a packet -/

/-- The loop that waits for the descriptor whose STS is at `addr`: whether it became available in time. -/
def awaitDesc (addr : Nat) : (polls : Nat) → HsdpProg δ Bool
  | 0 => pure false
  | polls + 1 => do
    let status ← readReg addr
    if status &&& 0x70000000 ≠ 0 then pure true
    else if (status >>> 31) &&& 1 ≠ 0 then pure true
    else awaitDesc addr polls

/-- The descriptor and the slot are filled, and TAIL is moved. -/
def fillDesc (h : Hsdp δ) (ii : Nat) (buf : List UInt8) : HsdpProg δ Unit := do
  let desc := h.dma.idesc.entry ii
  copyIn (h.dma.ipkts.entry ii) buf
  writeReg64 h.wide (desc + regDescBuff) (h.dma.ipkts.axiAddr ii)
  writeReg (desc + regDescCntl) (0x0C000000 ||| buf.length)
  writeReg (desc + regDescSts) 0
  let _ ← readReg (desc + regDescSts)
  let _ ← ask (.ingressTail (h.dma.idesc.axiAddr ii % 256 ^ regBytes h.wide))
  modify fun h => { h with dma := { h.dma with idesc := { h.dma.idesc with last := ii } } }

/-- `hsdp_send_packet`, for the `word_count` words at `buf`. -/
def hsdpSendPacket (mem : ByteMem) (buf wordCount : Nat) : HsdpProg δ Int := do
  modify fun h => { h with log := h.log ++ [.send wordCount] }
  let h ← Program.read
  let ii := h.dma.idesc.next
  let available ← awaitDesc (h.dma.idesc.entry ii + regDescSts) 1000
  if available then do
    fillDesc h ii (slice mem buf (wordCount * 4))
    pure 0
  else pure (-1)

end Dpc
end Xvc
