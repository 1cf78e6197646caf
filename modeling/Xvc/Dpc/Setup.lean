import Xvc.Dpc.Rings

/-!
# The rings as they are set up

`hsdp_setup_dma` of `dpc/src/hsdp.c`, and `hsdp_open` of `hsdp_lib.c` around it. Each ring of descriptors is
linked with NEXT; all of its ingress descriptors are done, and all of its egress descriptors wait for a packet.

* `Bus`: where the reserved memory is for the driver and for the DMA.
* `hsdpSetupDma`, `hsdpOpen`: the functions. The DMA is reset and takes no step before a TAIL is written.
* `setup_idesc`, `setup_edesc`: what the descriptors hold then, for rings of any size; `open_idesc`, `open_edesc`: for
  those of `hsdp_setup`.
-/

namespace Xvc
namespace Dpc

open ByteMem

variable {δ : Type}

/-! ## The reserved memory -/

/-- The reserved memory is at `buffer` for the driver and at `physical` for the DMA, whose addresses have 64 bits
when `wide`. -/
structure Bus where
  wide : Bool
  buffer : Nat
  physical : Nat

namespace Bus

/-- What the DMA reaches at the address `axi`. -/
def reach (b : Bus) (axi : Nat) : Nat := b.buffer + (axi - b.physical)

/-- The DMA can address all of it: `ENABLE_DMA_64BIT_ADDR` is set when the addresses have more than 32 bits. -/
def Fits (b : Bus) : Prop := b.physical + 0x2280 ≤ 256 ^ regBytes b.wide

/-- `hsdp_dma`, with the values of `last`. -/
def dma (b : Bus) (ipkts epkts idesc edesc : Int) : HsdpDma :=
  let d := hsdpSetup b.buffer b.physical
  { ipkts := { d.ipkts with last := ipkts }
    epkts := { d.epkts with last := epkts }
    idesc := { d.idesc with last := idesc }
    edesc := { d.edesc with last := edesc } }

/-! Where the entries are, for the driver and for the DMA. -/

def idesc (b : Bus) (i : Nat) : Nat := b.buffer + 64 * i
def edesc (b : Bus) (i : Nat) : Nat := b.buffer + 256 + 64 * i
def ipkt (b : Bus) (i : Nat) : Nat := b.buffer + 512 + 1040 * i
def epkt (b : Bus) (i : Nat) : Nat := b.buffer + 4672 + 1040 * i
def axi (b : Bus) (addr : Nat) : Nat := b.physical + (addr - b.buffer)

section Entries

variable (b : Bus) {p q l m : Int} (i : Nat)

theorem entry_idesc : (b.dma p q l m).idesc.entry i = b.idesc i := rfl

theorem entry_edesc : (b.dma p q l m).edesc.entry i = b.edesc i := rfl

theorem entry_ipkts : (b.dma p q l m).ipkts.entry i = b.ipkt i := by
  show b.buffer + maxEgressPackets * dmaDescSize * 2 + dmaPacketBuffSizeDefault * i = _
  unfold maxEgressPackets dmaDescSize dmaPacketBuffSizeDefault ipkt
  omega

theorem entry_epkts : (b.dma p q l m).epkts.entry i = b.epkt i := by
  show b.buffer + maxEgressPackets * dmaDescSize * 2 + maxEgressPackets * dmaPacketBuffSizeDefault +
    dmaPacketBuffSizeDefault * i = _
  unfold maxEgressPackets dmaDescSize dmaPacketBuffSizeDefault epkt
  omega

theorem axiAddr_idesc : (b.dma p q l m).idesc.axiAddr i = b.axi (b.idesc i) := by
  show b.physical + dmaDescSize * i = _
  unfold dmaDescSize axi idesc
  omega

theorem axiAddr_edesc : (b.dma p q l m).edesc.axiAddr i = b.axi (b.edesc i) := by
  show b.physical + maxEgressPackets * dmaDescSize + dmaDescSize * i = _
  unfold maxEgressPackets dmaDescSize axi edesc
  omega

theorem axiAddr_ipkts : (b.dma p q l m).ipkts.axiAddr i = b.axi (b.ipkt i) := by
  show b.physical + maxEgressPackets * dmaDescSize * 2 + dmaPacketBuffSizeDefault * i = _
  unfold maxEgressPackets dmaDescSize dmaPacketBuffSizeDefault axi ipkt
  omega

theorem axiAddr_epkts : (b.dma p q l m).epkts.axiAddr i = b.axi (b.epkt i) := by
  show b.physical + maxEgressPackets * dmaDescSize * 2 + maxEgressPackets * dmaPacketBuffSizeDefault +
    dmaPacketBuffSizeDefault * i = _
  unfold maxEgressPackets dmaDescSize dmaPacketBuffSizeDefault axi epkt
  omega

theorem count_edesc : (b.dma p q l m).edesc.count = 4 := by
  show maxEgressPackets * dmaDescSize / dmaDescSize = 4
  decide

end Entries

theorem reach_axi (b : Bus) {addr : Nat} (h : b.buffer ≤ addr) : b.reach (b.axi addr) = addr := by
  unfold reach axi
  omega

theorem axi_inj (b : Bus) {x y : Nat} (hx : b.buffer ≤ x) (hy : b.buffer ≤ y) : b.axi x = b.axi y ↔ x = y := by
  unfold axi
  omega

/-- A register holds the address. -/
theorem axi_mod {b : Bus} (hb : b.Fits) {addr : Nat} (h : addr < b.buffer + 0x2280) :
    b.axi addr % 256 ^ regBytes b.wide = b.axi addr := by
  unfold Fits at hb
  refine Nat.mod_eq_of_lt ?_
  unfold axi
  omega

end Bus

/-- The reserved memory of the board, mapped at 0x1000. -/
def boardBus : Bus := ⟨false, 0x1000, 0x7FF00000⟩

theorem boardBus_fits : boardBus.Fits := by
  show 0x7FF00000 + 0x2280 ≤ 256 ^ 4
  decide

/-! ## The code -/

/-- The body of the first loop of `hsdp_setup_dma`. -/
def setupIngressDesc (wide : Bool) (d : HsdpDma) (m : ByteMem) (i : Nat) : ByteMem :=
  let desc := d.idesc.entry i
  let next := if i < d.idesc.count - 1 then i + 1 else 0
  let m := write m (desc + regDescNext) (leBytes (regBytes wide) (d.idesc.axiAddr next))
  let m := write m (desc + regDescBuff) (leBytes (regBytes wide) (d.ipkts.axiAddr i))
  write m (desc + regDescSts) (leBytes 4 0x80000000)

/-- The body of the second loop. -/
def setupEgressDesc (wide : Bool) (d : HsdpDma) (m : ByteMem) (i : Nat) : ByteMem :=
  let desc := d.edesc.entry i
  let next := if i < d.edesc.count - 1 then i + 1 else 0
  let m := memset m desc 0 d.edesc.packetSize
  let m := write m (desc + regDescNext) (leBytes (regBytes wide) (d.edesc.axiAddr next))
  let m := write m (desc + regDescBuff) (leBytes (regBytes wide) (d.epkts.axiAddr i))
  write m (desc + regDescCntl) (leBytes 4 (0x0C000000 ||| d.epkts.packetSize))

/-- `hsdp_setup_dma`; `reset` is the DMA once it has been reset, with the two values of CUR. -/
def hsdpSetupDma (reset : (ingressCur egressCur : Nat) → δ) (h : Hsdp δ) : Hsdp δ :=
  let d := h.dma
  let reg := fun addr => addr % 256 ^ regBytes h.wide
  let m := memset h.fabric.mem d.idesc.buffer 0 d.idesc.bufferSize
  let m := (List.range d.idesc.count).foldl (setupIngressDesc h.wide d) m
  let m := (List.range d.edesc.count).foldl (setupEgressDesc h.wide d) m
  { h with
    dma :=
      { ipkts := { d.ipkts with last := -1 }
        epkts := { d.epkts with last := -1 }
        idesc := { d.idesc with last := -1 }
        edesc := { d.edesc with last := -1 + d.edesc.count } }
    fabric :=
      { mem := m
        ingressTail := h.fabric.ingressTail
        egressTail := reg (d.edesc.axiAddr (d.edesc.count - 1))
        engine := reset (reg (d.idesc.axiAddr 0)) (reg (d.edesc.axiAddr 0)) } }

/-- `hsdp_open`; `m` is what the reserved memory holds before. -/
def hsdpOpen (b : Bus) (reset : (ingressCur egressCur : Nat) → δ) (m : ByteMem) : Hsdp δ :=
  hsdpSetupDma reset ⟨hsdpSetup b.buffer b.physical, b.wide, ⟨m, 0, 0, reset 0 0⟩, []⟩

/-! ## The descriptors -/

theorem ofLe_write (m : ByteMem) (a n v : Nat) : ofLe (slice (write m a (leBytes n v)) a n) = v % 256 ^ n := by
  have h := slice_write m a (leBytes n v)
  rw [length_leBytes] at h
  rw [h, ofLe_leBytes]

/-- A loop over entries, none of which touches what another has left. -/
theorem foldl_range_kept {f : ByteMem → Nat → ByteMem} {A : Nat → ByteMem → Prop} (n : Nat)
    (done : ∀ m i, i < n → A i (f m i)) (kept : ∀ m i j, j < i → i < n → A j m → A j (f m i)) (m : ByteMem) :
    ∀ i, i < n → A i ((List.range n).foldl f m) := by
  induction n with
  | zero => exact fun i hi => absurd hi (Nat.not_lt_zero i)
  | succ n ih =>
    intro i hi
    rw [List.range_succ, List.foldl_append]
    have ih := ih (fun m i hi => done m i (by omega)) (fun m i j hj hi => kept m i j hj (by omega))
    rcases Nat.lt_or_eq_of_le (Nat.le_of_lt_succ hi) with hlt | rfl
    · exact kept _ n i hlt (Nat.lt_succ_self n) (ih i hlt)
    · exact done _ i (Nat.lt_succ_self i)

theorem foldl_keeps {f : ByteMem → Nat → ByteMem} {A : ByteMem → Prop} (l : List Nat)
    (kept : ∀ m, ∀ i ∈ l, A m → A (f m i)) {m : ByteMem} (h : A m) : A (l.foldl f m) := by
  induction l generalizing m with
  | nil => exact h
  | cons i l ih => exact ih (fun m j hj => kept m j (List.mem_cons_of_mem i hj)) (kept m i List.mem_cons_self h)

/-- NEXT of the descriptor at `desc`, as the driver and the DMA read it; BUFF, CNTL and STS. -/
def nextOf (wide : Bool) (m : ByteMem) (desc : Nat) : Nat := ofLe (slice m (desc + regDescNext) (regBytes wide))
def buffOf (wide : Bool) (m : ByteMem) (desc : Nat) : Nat := ofLe (slice m (desc + regDescBuff) (regBytes wide))
def cntlOf (m : ByteMem) (desc : Nat) : Nat := ofLe (slice m (desc + regDescCntl) 4)
def stsOf (m : ByteMem) (desc : Nat) : Nat := ofLe (slice m (desc + regDescSts) 4)

theorem regBytes_le (wide : Bool) : regBytes wide ≤ 8 := by
  unfold regBytes
  split <;> decide

section Fields

variable {wide : Bool} {m m' : ByteMem} {desc : Nat}

theorem nextOf_congr (h : ∀ x, desc ≤ x → x < desc + 8 → m' x = m x) : nextOf wide m' desc = nextOf wide m desc := by
  have hw := regBytes_le wide
  exact congrArg ofLe (slice_congr fun i hi => h _ (by unfold regDescNext; omega) (by unfold regDescNext; omega))

theorem buffOf_congr (h : ∀ x, desc + 8 ≤ x → x < desc + 16 → m' x = m x) :
    buffOf wide m' desc = buffOf wide m desc := by
  have hw := regBytes_le wide
  exact congrArg ofLe (slice_congr fun i hi => h _ (by unfold regDescBuff; omega) (by unfold regDescBuff; omega))

theorem cntlOf_congr (h : ∀ x, desc + 24 ≤ x → x < desc + 28 → m' x = m x) : cntlOf m' desc = cntlOf m desc :=
  congrArg ofLe (slice_congr fun i hi => h _ (by unfold regDescCntl; omega) (by unfold regDescCntl; omega))

theorem stsOf_congr (h : ∀ x, desc + 28 ≤ x → x < desc + 32 → m' x = m x) : stsOf m' desc = stsOf m desc :=
  congrArg ofLe (slice_congr fun i hi => h _ (by unfold regDescSts; omega) (by unfold regDescSts; omega))

end Fields

/-! What one round of a loop leaves, for rings of any size. -/

section Rounds

variable {n i x : Nat} {wide : Bool} {d : HsdpDma}

/-- The entry that NEXT names. -/
theorem next_entry (hi : i < n) : (if i < n - 1 then i + 1 else 0) = (i + 1) % n := by
  rw [Ring.succ_mod (by omega), Nat.mod_eq_of_lt hi]
  split <;> split <;> omega

/-- A round of the first loop only writes to its descriptor. -/
theorem setupIngressDesc_frame {m : ByteMem} (hx : x < d.idesc.entry i ∨ d.idesc.entry i + dmaDescSize ≤ x) :
    setupIngressDesc wide d m i x = m x := by
  have hw := regBytes_le wide
  have hsize : dmaDescSize = 64 := rfl
  unfold setupIngressDesc
  rw [write_of_disjoint _ _ (by rw [length_leBytes]; unfold regDescSts; omega),
    write_of_disjoint _ _ (by rw [length_leBytes]; unfold regDescBuff; omega),
    write_of_disjoint _ _ (by rw [length_leBytes]; unfold regDescNext; omega)]

theorem setupIngressDesc_done (hr : Rings n wide d) (m : ByteMem) (hi : i < n) :
    nextOf wide (setupIngressDesc wide d m i) (d.idesc.entry i) = d.idesc.axiAddr ((i + 1) % n) ∧
      stsOf (setupIngressDesc wide d m i) (d.idesc.entry i) = 0x80000000 := by
  have hw := regBytes_le wide
  have hfits := hr.idesc.fits ((i + 1) % n) (Nat.mod_lt _ (by omega))
  unfold setupIngressDesc nextOf stsOf
  constructor
  · rw [slice_write_of_disjoint _ (by unfold regDescNext regDescSts; omega),
      slice_write_of_disjoint _ (by unfold regDescNext regDescBuff; omega), ofLe_write, hr.idesc.count, next_entry hi,
      Nat.mod_eq_of_lt hfits]
  · rw [ofLe_write]
    rfl

theorem setupEgressDesc_frame {m : ByteMem} (hr : Rings n wide d)
    (hx : x < d.edesc.entry i ∨ d.edesc.entry i + d.edesc.packetSize ≤ x) : setupEgressDesc wide d m i x = m x := by
  have hw := regBytes_le wide
  have hsize : 64 ≤ d.edesc.packetSize := hr.edescSize
  unfold setupEgressDesc
  rw [write_of_disjoint _ _ (by rw [length_leBytes]; unfold regDescCntl; omega),
    write_of_disjoint _ _ (by rw [length_leBytes]; unfold regDescBuff; omega),
    write_of_disjoint _ _ (by rw [length_leBytes]; unfold regDescNext; omega)]
  exact if_neg (by omega)

theorem setupEgressDesc_next (hr : Rings n wide d) (m : ByteMem) (hi : i < n) :
    nextOf wide (setupEgressDesc wide d m i) (d.edesc.entry i) = d.edesc.axiAddr ((i + 1) % n) := by
  have hw := regBytes_le wide
  have hfits := hr.edesc.fits ((i + 1) % n) (Nat.mod_lt _ (by omega))
  unfold setupEgressDesc nextOf
  rw [slice_write_of_disjoint _ (by unfold regDescNext regDescCntl; omega),
    slice_write_of_disjoint _ (by unfold regDescNext regDescBuff; omega), ofLe_write, hr.edesc.count, next_entry hi,
    Nat.mod_eq_of_lt hfits]

theorem setupEgressDesc_buff (hr : Rings n wide d) (m : ByteMem) (hi : i < n) :
    buffOf wide (setupEgressDesc wide d m i) (d.edesc.entry i) = d.epkts.axiAddr i := by
  have hw := regBytes_le wide
  unfold setupEgressDesc buffOf
  dsimp only
  rw [slice_write_of_disjoint _ (by unfold regDescBuff regDescCntl; omega), ofLe_write,
    Nat.mod_eq_of_lt (hr.epkts.fits i hi)]

theorem setupEgressDesc_sts (hr : Rings n wide d) (m : ByteMem) :
    stsOf (setupEgressDesc wide d m i) (d.edesc.entry i) = 0 := by
  have hw := regBytes_le wide
  have hsize : 64 ≤ d.edesc.packetSize := hr.edescSize
  unfold setupEgressDesc stsOf
  dsimp only
  rw [slice_write_of_disjoint _ (by rw [length_leBytes]; unfold regDescSts regDescCntl; omega),
    slice_write_of_disjoint _ (by rw [length_leBytes]; unfold regDescSts regDescBuff; omega),
    slice_write_of_disjoint _ (by rw [length_leBytes]; unfold regDescSts regDescNext; omega)]
  have hzero : slice (memset m (d.edesc.entry i) 0 d.edesc.packetSize) (d.edesc.entry i + regDescSts) 4 =
      slice (fun _ => 0) 0 4 :=
    slice_congr fun k hk => if_pos ⟨by unfold regDescSts; omega, by unfold regDescSts; omega⟩
  rw [hzero]
  rfl

/-- What the second loop leaves in a descriptor. -/
structure EgressSet (n : Nat) (wide : Bool) (d : HsdpDma) (i : Nat) (m : ByteMem) : Prop where
  next : nextOf wide m (d.edesc.entry i) = d.edesc.axiAddr ((i + 1) % n)
  buff : buffOf wide m (d.edesc.entry i) = d.epkts.axiAddr i
  cntl : cntlOf m (d.edesc.entry i) = (0x0C000000 ||| d.epkts.packetSize) % 256 ^ 4
  sts : stsOf m (d.edesc.entry i) = 0

theorem setupEgressDesc_done (hr : Rings n wide d) (m : ByteMem) (hi : i < n) :
    EgressSet n wide d i (setupEgressDesc wide d m i) where
  next := setupEgressDesc_next hr m hi
  buff := setupEgressDesc_buff hr m hi
  cntl := ofLe_write _ _ 4 _
  sts := setupEgressDesc_sts hr m

theorem EgressSet.congr {m m' : ByteMem} (h : EgressSet n wide d i m)
    (hm : ∀ x, d.edesc.entry i ≤ x → x < d.edesc.entry i + dmaDescSize → m' x = m x) : EgressSet n wide d i m' := by
  have hsize : dmaDescSize = 64 := rfl
  constructor
  · exact (nextOf_congr fun x h1 h2 => hm x h1 (by omega)).trans h.next
  · exact (buffOf_congr fun x h1 h2 => hm x (by omega) (by omega)).trans h.buff
  · exact (cntlOf_congr fun x h1 h2 => hm x (by omega) (by omega)).trans h.cntl
  · exact (stsOf_congr fun x h1 h2 => hm x (by omega) (by omega)).trans h.sts

end Rounds

section Loops

variable {n i : Nat} (reset : (ingressCur egressCur : Nat) → δ) (h : Hsdp δ)

theorem setup_mem (hr : Rings n h.wide h.dma) :
    (hsdpSetupDma reset h).fabric.mem = (List.range n).foldl (setupEgressDesc h.wide h.dma)
      ((List.range n).foldl (setupIngressDesc h.wide h.dma)
        (memset h.fabric.mem h.dma.idesc.buffer 0 h.dma.idesc.bufferSize)) := by
  show (List.range h.dma.edesc.count).foldl _ ((List.range h.dma.idesc.count).foldl _ _) = _
  rw [hr.idesc.count, hr.edesc.count]

/-- **The ingress ring.** Its loop links it, and the egress loop does not touch it. -/
theorem setup_idesc (hr : Rings n h.wide h.dma) (hi : i < n) :
    nextOf h.wide (hsdpSetupDma reset h).fabric.mem (h.dma.idesc.entry i) = h.dma.idesc.axiAddr ((i + 1) % n) ∧
      stsOf (hsdpSetupDma reset h).fabric.mem (h.dma.idesc.entry i) = 0x80000000 := by
  let Done : Nat → ByteMem → Prop := fun i m =>
    nextOf h.wide m (h.dma.idesc.entry i) = h.dma.idesc.axiAddr ((i + 1) % n) ∧
      stsOf m (h.dma.idesc.entry i) = 0x80000000
  have hsize : dmaDescSize = 64 := rfl
  have hkeep : ∀ {m m' : ByteMem} {j : Nat},
      (∀ x, h.dma.idesc.entry j ≤ x → x < h.dma.idesc.entry j + dmaDescSize → m' x = m x) → Done j m → Done j m' := by
    intro m m' j hm hd
    exact ⟨(nextOf_congr fun x h1 h2 => hm x h1 (by omega)).trans hd.1,
      (stsOf_congr fun x h1 h2 => hm x (by omega) (by omega)).trans hd.2⟩
  rw [setup_mem reset h hr]
  refine foldl_keeps (A := Done i) (List.range n) (fun m j hj hd => hkeep (fun x h1 h2 => ?_) hd) ?_
  · have hidesc := hr.idesc_range hi
    have hedesc := hr.edesc_range (List.mem_range.mp hj)
    exact setupEgressDesc_frame hr (.inl (by omega))
  · refine foldl_range_kept (A := Done) n (fun m i hi => setupIngressDesc_done hr m hi) (fun m i j hj _ hd => ?_) _ i hi
    have hapart := entry_apart h.dma.idesc hj
    have hdesc := hr.idescSize
    exact hkeep (fun x h1 h2 => setupIngressDesc_frame (.inl (by omega))) hd

/-- **The egress ring.** -/
theorem setup_edesc (hr : Rings n h.wide h.dma) (hi : i < n) :
    EgressSet n h.wide h.dma i (hsdpSetupDma reset h).fabric.mem := by
  rw [setup_mem reset h hr]
  refine foldl_range_kept (A := fun i m => EgressSet n h.wide h.dma i m) n (fun m i hi => setupEgressDesc_done hr m hi)
    (fun m i j hj _ hd => hd.congr fun x h1 h2 => ?_) _ i hi
  have hapart := entry_apart h.dma.edesc hj
  have hdesc := hr.edescSize
  exact setupEgressDesc_frame hr (.inl (by omega))

end Loops

/-! ## `hsdp_open` -/

/-- The rings of `hsdp_setup`. -/
theorem rings_hsdpSetup (b : Bus) (hb : b.Fits) : Rings 4 b.wide (hsdpSetup b.buffer b.physical) := by
  unfold Bus.Fits at hb
  have hdesc : 0 < dmaDescSize ∧ maxEgressPackets * dmaDescSize < 2 ^ 64 := by decide
  have hpkt : 0 < dmaPacketBuffSizeDefault ∧ maxEgressPackets * dmaPacketBuffSizeDefault < 2 ^ 64 := by decide
  constructor
  · refine ⟨hdesc.1, rfl, hdesc.2, fun i hi => ?_⟩
    show b.physical + dmaDescSize * i < _
    unfold dmaDescSize
    omega
  · refine ⟨hdesc.1, rfl, hdesc.2, fun i hi => ?_⟩
    show b.physical + maxEgressPackets * dmaDescSize + dmaDescSize * i < _
    unfold maxEgressPackets dmaDescSize
    omega
  · refine ⟨hpkt.1, rfl, hpkt.2, fun i hi => ?_⟩
    show b.physical + maxEgressPackets * dmaDescSize * 2 + dmaPacketBuffSizeDefault * i < _
    unfold maxEgressPackets dmaDescSize dmaPacketBuffSizeDefault
    omega
  · refine ⟨hpkt.1, rfl, hpkt.2, fun i hi => ?_⟩
    show b.physical + maxEgressPackets * dmaDescSize * 2 + maxEgressPackets * dmaPacketBuffSizeDefault +
      dmaPacketBuffSizeDefault * i < _
    unfold maxEgressPackets dmaDescSize dmaPacketBuffSizeDefault
    omega
  · exact Nat.le_refl _
  · exact Nat.le_refl _
  · exact Nat.le_refl _
  · show b.buffer + maxEgressPackets * dmaDescSize + maxEgressPackets * dmaDescSize ≤
      b.buffer + maxEgressPackets * dmaDescSize * 2
    omega
  · exact Nat.le_refl _

section Open

variable (b : Bus) (reset : (ingressCur egressCur : Nat) → δ) (m : ByteMem)

theorem hsdpOpen_dma : (hsdpOpen b reset m).dma = b.dma (-1) (-1) (-1) 3 := by
  have hlast : -1 + ((b.dma 0 0 0 0).edesc.count : Int) = 3 := by
    rw [b.count_edesc]
    rfl
  show HsdpDma.mk _ _ _ { (b.dma 0 0 0 0).edesc with last := -1 + ((b.dma 0 0 0 0).edesc.count : Int) } = _
  rw [hlast]
  rfl

/-- The DMA's registers. -/
theorem hsdpOpen_registers (hb : b.Fits) :
    (hsdpOpen b reset m).fabric.engine = reset (b.axi (b.idesc 0)) (b.axi (b.edesc 0)) ∧
      (hsdpOpen b reset m).fabric.egressTail = b.axi (b.edesc 3) := by
  have hreg : ∀ addr, addr < b.buffer + 0x2280 → b.axi addr % 256 ^ regBytes b.wide = b.axi addr :=
    fun addr h => Bus.axi_mod hb h
  unfold hsdpOpen hsdpSetupDma
  rw [show hsdpSetup b.buffer b.physical = b.dma 0 0 0 0 from rfl]
  simp only [b.axiAddr_idesc, b.axiAddr_edesc, b.count_edesc]
  rw [hreg _ (by unfold Bus.idesc; omega), hreg _ (by unfold Bus.edesc; omega), hreg _ (by unfold Bus.edesc; omega)]
  exact ⟨rfl, rfl⟩

/-- **The ingress ring.** -/
theorem open_idesc (hb : b.Fits) {i : Nat} (hi : i < 4) :
    nextOf b.wide (hsdpOpen b reset m).fabric.mem (b.idesc i) = b.axi (b.idesc ((i + 1) % 4)) ∧
      stsOf (hsdpOpen b reset m).fabric.mem (b.idesc i) = 0x80000000 := by
  have hset := setup_idesc reset ⟨hsdpSetup b.buffer b.physical, b.wide, ⟨m, 0, 0, reset 0 0⟩, []⟩
    (rings_hsdpSetup b hb) hi
  rw [← b.axiAddr_idesc (p := 0) (q := 0) (l := 0) (m := 0)]
  exact hset

/-- **The egress ring.** -/
theorem open_edesc (hb : b.Fits) {i : Nat} (hi : i < 4) :
    nextOf b.wide (hsdpOpen b reset m).fabric.mem (b.edesc i) = b.axi (b.edesc ((i + 1) % 4)) ∧
      buffOf b.wide (hsdpOpen b reset m).fabric.mem (b.edesc i) = b.axi (b.epkt i) ∧
      stsOf (hsdpOpen b reset m).fabric.mem (b.edesc i) = 0 := by
  have hset := setup_edesc reset ⟨hsdpSetup b.buffer b.physical, b.wide, ⟨m, 0, 0, reset 0 0⟩, []⟩
    (rings_hsdpSetup b hb) hi
  rw [← b.axiAddr_edesc (p := 0) (q := 0) (l := 0) (m := 0), ← b.axiAddr_epkts (p := 0) (q := 0) (l := 0) (m := 0)]
  exact ⟨hset.next, hset.buff, hset.sts⟩

end Open

end Dpc
end Xvc
