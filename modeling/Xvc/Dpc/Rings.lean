import Xvc.Dpc.Hsdp
import Xvc.Lib.Ring

/-!
# Rings of any size

Two rings of descriptors with their packet slots, one region behind the other as `hsdp_setup` of `dpc/src` puts them,
for any number of entries and any sizes.

* `RingOf`, `Rings`: what a region is to be, and where the regions are.
* `entry_apart`, `axiAddr_apart`: entries do not overlap, neither for the driver nor for the DMA.
* `lastOf`: where the cursor is after so many entries; `next_of_last`: what `HSDP_NEXT` then is.
-/

namespace Xvc
namespace Dpc

/-! ## Regions -/

/-- `n` entries; all addresses of the DMA have the width of a register. -/
structure RingOf (n : Nat) (wide : Bool) (r : HsdpRegion) : Prop where
  packetSize : 0 < r.packetSize
  bufferSize : r.bufferSize = n * r.packetSize
  sizeT : r.bufferSize < 2 ^ 64
  fits : ∀ i, i < n → r.axiAddr i < 256 ^ regBytes wide

/-- Two rings of `n` descriptors and `n` packet slots, one region behind the other. -/
structure Rings (n : Nat) (wide : Bool) (d : HsdpDma) : Prop where
  idesc : RingOf n wide d.idesc
  edesc : RingOf n wide d.edesc
  ipkts : RingOf n wide d.ipkts
  epkts : RingOf n wide d.epkts
  idescSize : dmaDescSize ≤ d.idesc.packetSize
  edescSize : dmaDescSize ≤ d.edesc.packetSize
  edescBehind : d.idesc.buffer + d.idesc.bufferSize ≤ d.edesc.buffer
  ipktsBehind : d.edesc.buffer + d.edesc.bufferSize ≤ d.ipkts.buffer
  epktsBehind : d.ipkts.buffer + d.ipkts.bufferSize ≤ d.epkts.buffer

variable {r : HsdpRegion} {n i j k x : Nat} {wide : Bool} {d : HsdpDma}

theorem RingOf.last {r : HsdpRegion} (h : RingOf n wide r) (last : Int) : RingOf n wide { r with last := last } :=
  ⟨h.packetSize, h.bufferSize, h.sizeT, h.fits⟩

theorem step_le_mul (size : Nat) (h : i < j) : size * i + size ≤ size * j := by
  have hle := Nat.mul_le_mul_left size h
  rwa [Nat.mul_succ] at hle

theorem entry_apart (r : HsdpRegion) (h : i < j) : r.entry i + r.packetSize ≤ r.entry j := by
  have hle := step_le_mul r.packetSize h
  unfold HsdpRegion.entry
  omega

theorem axiAddr_apart (r : HsdpRegion) (h : i < j) : r.axiAddr i + r.packetSize ≤ r.axiAddr j := by
  have hle := step_le_mul r.packetSize h
  unfold HsdpRegion.axiAddr
  omega

theorem RingOf.entry_end (h : RingOf n wide r) (hi : i < n) : r.entry i + r.packetSize ≤ r.buffer + r.bufferSize := by
  have hle := step_le_mul r.packetSize hi
  rw [h.bufferSize, Nat.mul_comm n]
  unfold HsdpRegion.entry
  omega

theorem RingOf.axiAddr_inj (h : RingOf n wide r) (heq : r.axiAddr i = r.axiAddr j) : i = j := by
  have hpos := h.packetSize
  rcases Nat.lt_trichotomy i j with hlt | rfl | hlt
  · have := axiAddr_apart r hlt
    omega
  · rfl
  · have := axiAddr_apart r hlt
    omega

theorem RingOf.count (h : RingOf n wide r) : r.count = n := by
  unfold HsdpRegion.count
  rw [h.bufferSize, Nat.mul_div_cancel n h.packetSize]

/-- `last` when `k` entries have been used since it was -1. -/
def lastOf (n k : Nat) : Int := if k = 0 then -1 else ((k - 1) % n : Nat)

theorem lastOf_succ (n k : Nat) : lastOf n (k + 1) = (k % n : Nat) := by
  unfold lastOf
  rw [if_neg (Nat.succ_ne_zero k), Nat.add_sub_cancel]

/-- `HSDP_NEXT` goes round. -/
theorem RingOf.next_of_last (h : RingOf n wide r) (hpos : 0 < n) (hmax : n < 2 ^ 31) (hlast : r.last = lastOf n k) :
    r.next = k % n := by
  have hsize : 0 < r.bufferSize := by
    rw [h.bufferSize]
    exact Nat.mul_pos hpos h.packetSize
  unfold HsdpRegion.next
  dsimp only
  rw [hlast]
  cases k with
  | zero =>
    have hzero : ((lastOf n 0 + 1) % 2 ^ 64).toNat = 0 := rfl
    rw [hzero, Nat.zero_mul, if_pos (show u64 0 < r.bufferSize from hsize), Nat.zero_mod]
  | succ k =>
    have hlt := Nat.mod_lt k hpos
    have hindex : ((lastOf n (k + 1) + 1) % 2 ^ 64).toNat = k % n + 1 := by
      rw [lastOf_succ]
      omega
    have hle : (k % n + 1) * r.packetSize ≤ r.bufferSize := by
      rw [h.bufferSize]
      exact Nat.mul_le_mul_right r.packetSize hlt
    rw [hindex, u64_of_lt (Nat.lt_of_le_of_lt hle h.sizeT), h.bufferSize, Ring.succ_mod hpos]
    by_cases hwrap : k % n + 1 < n
    · rw [if_pos hwrap, if_pos (Nat.mul_lt_mul_of_pos_right hwrap h.packetSize)]
    · rw [if_neg hwrap, if_neg (Nat.not_lt.mpr (Nat.mul_le_mul_right _ (Nat.not_lt.mp hwrap)))]

/-! ## Descriptors -/

/-- Entries of one ring are apart. -/
theorem entry_inj {r : HsdpRegion} (hsize : dmaDescSize ≤ r.packetSize) (hi : r.entry i ≤ x)
    (hi' : x < r.entry i + dmaDescSize)
    (hj : r.entry j ≤ x) (hj' : x < r.entry j + dmaDescSize) : i = j := by
  rcases Nat.lt_trichotomy i j with hlt | rfl | hlt
  · have := entry_apart r hlt
    omega
  · rfl
  · have := entry_apart r hlt
    omega

/-- Where an ingress descriptor is. -/
theorem Rings.idesc_range (hr : Rings n wide d) (hi : i < n) :
    d.idesc.buffer ≤ d.idesc.entry i ∧ d.idesc.entry i + dmaDescSize ≤ d.edesc.buffer := by
  have h1 := hr.idesc.entry_end hi
  have h2 := hr.idescSize
  have h3 := hr.edescBehind
  exact ⟨Nat.le_add_right _ _, by omega⟩

theorem Rings.edesc_range (hr : Rings n wide d) (hi : i < n) :
    d.edesc.buffer ≤ d.edesc.entry i ∧ d.edesc.entry i + dmaDescSize ≤ d.ipkts.buffer := by
  have h1 := hr.edesc.entry_end hi
  have h2 := hr.edescSize
  have h3 := hr.ipktsBehind
  exact ⟨Nat.le_add_right _ _, by omega⟩

end Dpc
end Xvc
