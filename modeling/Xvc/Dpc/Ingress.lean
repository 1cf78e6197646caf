import Xvc.Dpc.Hsdp

/-!
# What `idpc` writes

The handler `idpc` of `dpc/src/xvc_dpc.c` compares a number of words with `MAX_PACKET_SIZE`, which is one of
bytes. `Confined` says that all that the driver has done is to send packets that fit their slot, and to write to
the slot and the descriptor of the next entry; `idpc_confined_iff` says for which messages it is kept.
-/

namespace Xvc
namespace Dpc

open ByteMem Program

variable {δ : Type}

/-! ## The handler -/

/-- `MAX_PACKET_SIZE` of `hsdp_lib.h`. -/
def maxPacketSize : Nat := 1032

/-- The text of the handler's first error. -/
def tooLargeText (numWords : Nat) : List UInt8 :=
  ascii "Size of ingress packet (" ++ decimal numWords ++
    ascii " words) greater than allowed max packet size of " ++ decimal (maxPacketSize / 4) ++ ascii " words\n"

/-- The text of its second error; `hsdp_send_packet` has no other failure than -1. -/
def ingressFailedText : List UInt8 := ascii "Ingress of DPC packet failed. Return value = -1\n"

/-- `idpc`, with the words at `buf`: the text of the error that it sets. -/
def idpc (mem : ByteMem) (numWords buf : Nat) : HsdpProg δ (Option (List UInt8)) :=
  if maxPacketSize ≤ numWords then pure (some (tooLargeText numWords))
  else do
    let ret ← hsdpSendPacket mem buf numWords
    if ret ≠ 0 then pure (some ingressFailedText) else pure none

/-! ## The rings -/

/-- The regions are where `hsdp_setup` puts them. -/
structure LaidOut (d : HsdpDma) (buffer physical : Nat) : Prop where
  ipkts : d.ipkts = { (hsdpSetup buffer physical).ipkts with last := d.ipkts.last }
  epkts : d.epkts = { (hsdpSetup buffer physical).epkts with last := d.epkts.last }
  idesc : d.idesc = { (hsdpSetup buffer physical).idesc with last := d.idesc.last }
  edesc : d.edesc = { (hsdpSetup buffer physical).edesc with last := d.edesc.last }

/-- The packet slot and the descriptor of the next entry. -/
def OwnByte (d : HsdpDma) (a : Nat) : Prop := d.ipkts.Covers d.idesc.next a ∨ d.idesc.Covers d.idesc.next a

/-- The other ingress packets and descriptors, and all egress packets and descriptors. -/
def OtherByte (d : HsdpDma) (a : Nat) : Prop :=
  (∃ j, j ≠ d.idesc.next ∧ j < d.idesc.count ∧ (d.ipkts.Covers j a ∨ d.idesc.Covers j a)) ∨
    ∃ j, j < d.edesc.count ∧ (d.epkts.Covers j a ∨ d.edesc.Covers j a)

/-- What the driver may do: send a packet that fits the slot, write to the next entry and to no other, move TAIL. -/
def Allowed (d : HsdpDma) : Effect → Prop
  | .send wordCount => 4 * wordCount ≤ d.ipkts.packetSize
  | .store addr count => ∀ a, addr ≤ a → a < addr + count → OwnByte d a ∧ ¬ OtherByte d a
  | .ingressTail _ => True
  | .egressTail _ => True

/-- With the rings as `d` is, the driver has done nothing else. -/
def Confined (d : HsdpDma) (h : Hsdp δ) : Prop := ∀ e ∈ h.log, Allowed d e

theorem next_lt {d : HsdpDma} {buffer physical : Nat} (hd : LaidOut d buffer physical) (hlo : -1 ≤ d.idesc.last)
    (hhi : d.idesc.last < 2 ^ 31) : d.idesc.next < 4 := by
  have hsize : d.idesc.packetSize = 0x40 ∧ d.idesc.bufferSize = 0x100 := by
    rw [hd.idesc]
    exact ⟨rfl, rfl⟩
  unfold HsdpRegion.next
  simp only [hsize.1, hsize.2]
  split
  · rename_i h
    unfold u64 at h
    omega
  · decide

/-- The entries of the four regions lie apart. -/
theorem own_not_other {d : HsdpDma} {buffer physical : Nat} (hd : LaidOut d buffer physical) (hnext : d.idesc.next < 4)
    {a : Nat} (h : OwnByte d a) : ¬ OtherByte d a := by
  have h1 : d.ipkts.packetSize = 0x410 ∧ d.ipkts.buffer = buffer + 0x200 := by rw [hd.ipkts]; exact ⟨rfl, rfl⟩
  have h2 : d.epkts.packetSize = 0x410 ∧ d.epkts.buffer = buffer + 0x200 + 0x1040 := by rw [hd.epkts]; exact ⟨rfl, rfl⟩
  have hcount : maxEgressPackets * dmaDescSize / dmaDescSize = 4 := by decide
  have h3 : d.idesc.packetSize = 0x40 ∧ d.idesc.buffer = buffer ∧ d.idesc.count = 4 := by
    rw [hd.idesc]
    exact ⟨rfl, rfl, hcount⟩
  have h4 : d.edesc.packetSize = 0x40 ∧ d.edesc.buffer = buffer + 0x100 ∧ d.edesc.count = 4 := by
    rw [hd.edesc]
    exact ⟨rfl, rfl, hcount⟩
  unfold OwnByte HsdpRegion.Covers HsdpRegion.entry at h
  unfold OtherByte HsdpRegion.Covers HsdpRegion.entry
  rw [h1.1, h1.2, h3.1, h3.2.1] at h
  rw [h1.1, h1.2, h2.1, h2.2, h3.1, h3.2.1, h3.2.2, h4.1, h4.2.1, h4.2.2]
  rintro (⟨j, hj, hlt, hc⟩ | ⟨j, hlt, hc⟩)
  · rcases h with h | h <;> rcases hc with hc | hc <;> omega
  · rcases h with h | h <;> rcases hc with hc | hc <;> omega

/-! ## The accesses -/

section Accesses

variable {step : Fabric δ → Fabric δ → Prop} {d : HsdpDma} {h : Hsdp δ}

theorem confined_push {e : Effect} {f : Fabric δ} (hc : Confined d h) (he : Allowed d e) :
    Confined d { h with fabric := f, log := h.log ++ [e] } := by
  intro e' hmem
  rcases List.mem_append.mp hmem with hmem | hmem
  · exact hc e' hmem
  · rw [List.mem_singleton] at hmem
    rw [hmem]
    exact he

theorem awaitDesc_confined (hc : Confined d h) (addr polls : Nat) :
    (awaitDesc addr polls).Always (shared step) (Confined d) (fun _ => Confined d) h := by
  induction polls generalizing h with
  | zero => exact hc
  | succ polls ih =>
    rw [awaitDesc]
    refine (always_readReg fun f => ⟨hc, ?_⟩).bind
    have hc' : Confined d { h with fabric := f } := hc
    split
    · exact hc'
    · split
      · exact hc'
      · exact ih hc'

/-- A write whose bytes are all the driver's own. -/
theorem write_confined {addr : Nat} {bytes : List UInt8} (hc : Confined d h)
    (hown : ∀ a, addr ≤ a → a < addr + bytes.length → OwnByte d a ∧ ¬ OtherByte d a) {Q : Fabric δ → Hsdp δ → Prop}
    (hq : ∀ f t, Confined d t → Q f t) :
    (ask (Access.write addr bytes) : HsdpProg δ (Fabric δ)).Always (shared step) (Confined d) Q h :=
  always_write fun f => ⟨confined_push hc hown, hq f _ (confined_push hc hown)⟩

theorem copyIn_confined {l : List UInt8} {addr : Nat} (hc : Confined d h)
    (hown : ∀ a, addr ≤ a → a < addr + l.length → OwnByte d a ∧ ¬ OtherByte d a) :
    (copyIn addr l).Always (shared step) (Confined d) (fun _ => Confined d) h := by
  induction l generalizing addr h with
  | nil => exact hc
  | cons b l ih =>
    rw [copyIn]
    have hfirst : ∀ a, addr ≤ a → a < addr + [b].length → OwnByte d a ∧ ¬ OtherByte d a := fun a h1 h2 =>
      hown a h1 (by simp only [List.length_cons, List.length_nil] at h2 ⊢; omega)
    have hrest : ∀ a, addr + 1 ≤ a → a < addr + 1 + l.length → OwnByte d a ∧ ¬ OtherByte d a := fun a h1 h2 =>
      hown a (by omega) (by simp only [List.length_cons]; omega)
    exact (write_confined hc hfirst fun f t ht => ih ht hrest).bind

/-- The accesses of `fillDesc` are to the slot and the descriptor, and to TAIL. -/
theorem fillDesc_confined {s : Hsdp δ} {buffer physical : Nat} (hd : LaidOut s.dma buffer physical)
    (hnext : s.dma.idesc.next < 4) {buf : List UInt8} (hfit : buf.length ≤ s.dma.ipkts.packetSize)
    (hc : Confined s.dma h) :
    (fillDesc s s.dma.idesc.next buf).Always (shared step) (Confined s.dma) (fun _ => Confined s.dma) h := by
  have hsize : s.dma.idesc.packetSize = 0x40 := by
    rw [hd.idesc]
    rfl
  have hslot : ∀ a, s.dma.ipkts.entry s.dma.idesc.next ≤ a → a < s.dma.ipkts.entry s.dma.idesc.next + buf.length →
      OwnByte s.dma a ∧ ¬ OtherByte s.dma a := by
    intro a h1 h2
    have hown : OwnByte s.dma a := .inl ⟨h1, by omega⟩
    exact ⟨hown, own_not_other hd hnext hown⟩
  have hreg : ∀ {off n : Nat}, off + n ≤ 0x40 → ∀ a, s.dma.idesc.entry s.dma.idesc.next + off ≤ a →
      a < s.dma.idesc.entry s.dma.idesc.next + off + n → OwnByte s.dma a ∧ ¬ OtherByte s.dma a := by
    intro off n hle a h1 h2
    have hown : OwnByte s.dma a := .inr ⟨by omega, by omega⟩
    exact ⟨hown, own_not_other hd hnext hown⟩
  have hwide : regDescBuff + regBytes s.wide ≤ 0x40 := by
    unfold regBytes
    split <;> decide
  have hreg64 : ∀ {t : Hsdp δ}, Confined s.dma t → (writeReg64 s.wide (s.dma.idesc.entry s.dma.idesc.next + regDescBuff)
      (s.dma.ipkts.axiAddr s.dma.idesc.next)).Always (shared step) (Confined s.dma) (fun _ => Confined s.dma) t :=
    fun ht => (write_confined ht (by rw [length_leBytes]; exact hreg hwide) fun _ _ ht => ht).bind
  have hreg32 : ∀ {t : Hsdp δ} {off value : Nat}, off + 4 ≤ 0x40 → Confined s.dma t →
      (writeReg (s.dma.idesc.entry s.dma.idesc.next + off) value).Always (shared step) (Confined s.dma)
        (fun _ => Confined s.dma) t :=
    fun hle ht => (write_confined ht (by rw [length_leBytes]; exact hreg hle) fun _ _ ht => ht).bind
  unfold fillDesc
  refine (copyIn_confined hc hslot).seq fun _ t ht => ?_
  refine (hreg64 ht).seq fun _ t ht => ?_
  refine (hreg32 (by decide) ht).seq fun _ t ht => ?_
  refine (hreg32 (by decide) ht).seq fun _ t ht => ?_
  have hread : (readReg (s.dma.idesc.entry s.dma.idesc.next + regDescSts)).Always (shared step) (Confined s.dma)
      (fun _ => Confined s.dma) t := always_readReg fun f => ⟨ht, ht⟩
  refine hread.seq fun _ t ht => ?_
  simp only [always_ask_bind, always_modify]
  intro f hf
  have hpush : Confined s.dma ((shared step).effect (Access.ingressTail
      (s.dma.idesc.axiAddr s.dma.idesc.next % 256 ^ regBytes s.wide)) f t) := confined_push ht trivial
  exact ⟨hpush, hpush, hpush⟩

/-- A packet that fits. -/
theorem hsdpSendPacket_confined {s : Hsdp δ} {buffer physical : Nat} (hd : LaidOut s.dma buffer physical)
    (hnext : s.dma.idesc.next < 4) (mem : ByteMem) (buf : Nat) {wordCount : Nat}
    (hfit : 4 * wordCount ≤ s.dma.ipkts.packetSize)
    (hc : Confined s.dma s) :
    (hsdpSendPacket mem buf wordCount).Always (shared step) (Confined s.dma) (fun _ => Confined s.dma) s := by
  have hsend : Confined s.dma { s with log := s.log ++ [.send wordCount] } := confined_push (f := s.fabric) hc hfit
  unfold hsdpSendPacket
  simp only [always_modify_bind, always_read_bind]
  refine ⟨hsend, (awaitDesc_confined hsend _ _).seq fun available t ht => ?_⟩
  cases available with
  | false => exact ht
  | true =>
    have hlen : (slice mem buf (wordCount * 4)).length ≤ s.dma.ipkts.packetSize := by
      rw [length_slice]
      omega
    exact (fillDesc_confined (s := { s with log := s.log ++ [.send wordCount] }) hd hnext hlen ht).seq fun _ _ ht => ht

end Accesses

/-! ## Messages -/

/-- **The size check.** With the rings where `hsdp_setup` puts them, in any state, and with whatever the DMA does
between the accesses: all that the handler does is confined to the next entry, and a packet that does not fit its
slot changes nothing and sets an error, if and only if the packet fits, or has 1032 words or more. -/
theorem idpc_confined_iff (step : Fabric δ → Fabric δ → Prop) (s : Hsdp δ) {buffer physical : Nat}
    (hd : LaidOut s.dma buffer physical) (hlo : -1 ≤ s.dma.idesc.last) (hhi : s.dma.idesc.last < 2 ^ 31)
    (hlog : s.log = [])
    (mem : ByteMem) (numWords buf : Nat) :
    (idpc mem numWords buf).Always (shared step) (Confined s.dma)
        (fun error t => Confined s.dma t ∧ (s.dma.ipkts.packetSize < 4 * numWords → error.isSome ∧ t = s)) s ↔
      4 * numWords ≤ s.dma.ipkts.packetSize ∨ maxPacketSize ≤ numWords := by
  have hnext := next_lt hd hlo hhi
  have hstart : Confined s.dma s := by
    intro e he
    rw [hlog] at he
    cases he
  unfold idpc
  by_cases hlarge : maxPacketSize ≤ numWords
  · rw [if_pos hlarge]
    exact ⟨fun _ => .inr hlarge, fun _ => ⟨hstart, fun _ => ⟨rfl, rfl⟩⟩⟩
  · rw [if_neg hlarge]
    constructor
    · intro h
      unfold hsdpSendPacket at h
      -- The driver has been asked to send it.
      have hsend : Confined s.dma { s with log := s.log ++ [.send numWords] } := h.1
      exact .inl (hsend (.send numWords) (List.mem_append_right _ (List.mem_singleton_self _)))
    · intro h
      have hfit : 4 * numWords ≤ s.dma.ipkts.packetSize := h.resolve_right hlarge
      refine (hsdpSendPacket_confined hd hnext mem buf hfit hstart).seq fun ret t ht => ?_
      split
      · exact ⟨ht, fun hlt => absurd hfit (Nat.not_le.mpr hlt)⟩
      · exact ⟨ht, fun hlt => absurd hfit (Nat.not_le.mpr hlt)⟩

/-- The driver after `hsdp_setup_dma`, with the memory at 0x1000 and a DMA that has no state. -/
def freshHsdp : Hsdp Unit where
  dma :=
    let d := hsdpSetup 0x1000 0x7FF00000
    { ipkts := { d.ipkts with last := -1 }
      epkts := { d.epkts with last := -1 }
      idesc := { d.idesc with last := -1 }
      edesc := { d.edesc with last := 3 } }
  wide := false
  fabric := ⟨fun _ => 0, 0, 0, ()⟩
  log := []

theorem freshHsdp_laidOut : LaidOut freshHsdp.dma 0x1000 0x7FF00000 := ⟨rfl, rfl, rfl, rfl⟩

/-- 260 words fill a slot. -/
theorem idpc_confined_iff_260 :
    (idpc (fun _ => 5) 260 0).Always (shared fun _ _ => True) (Confined freshHsdp.dma)
        (fun error t => Confined freshHsdp.dma t ∧
          (freshHsdp.dma.ipkts.packetSize < 4 * 260 → error.isSome ∧ t = freshHsdp)) freshHsdp ↔
      4 * 260 ≤ freshHsdp.dma.ipkts.packetSize ∨ maxPacketSize ≤ 260 :=
  idpc_confined_iff _ freshHsdp freshHsdp_laidOut (by decide) (by decide) rfl _ _ _

/-- 300 words are sent, though a slot has room for 260. -/
theorem idpc_300_not_confined :
    ¬ (idpc (fun _ => 5) 300 0).Always (shared fun _ _ => True) (Confined freshHsdp.dma)
        (fun error t => Confined freshHsdp.dma t ∧
          (freshHsdp.dma.ipkts.packetSize < 4 * 300 → error.isSome ∧ t = freshHsdp)) freshHsdp := by
  intro h
  rw [idpc, if_neg (by decide)] at h
  have hsend : Confined freshHsdp.dma { freshHsdp with log := freshHsdp.log ++ [.send 300] } := h.1
  have hfit : 4 * 300 ≤ freshHsdp.dma.ipkts.packetSize := hsend (.send 300) (List.mem_singleton_self _)
  exact absurd hfit (by decide)

end Dpc
end Xvc
