import Xvc.Dpc.Receive
import Xvc.Lib.Machine
import Xvc.Lib.Play

/-!
# The cursor of a ring and its chain

The driver goes round a ring by `last`, the DMA by NEXT; the rings have any size. `Channels` is what is assumed of
the DMA.

* `Wired`: the descriptors, as `hsdp_setup_dma` leaves them (`setup_wired`) and as they stay.
* `Call`: a call of `hsdp_send_packet` or `hsdp_poll_fast_packet`, with what came of it.
* `At.send`, `At.poll`: what it does to the cursors. `At.run` is the same for any number of calls.
* `cursor_follows_chain`: after every run of calls the cursor and the chain coincide.
-/

namespace Xvc
namespace Dpc
namespace Cursor

open ByteMem Program Relation Receive

variable {δ : Type}

/-! ## The regions -/

/-- Where the driver finds what the DMA has at `axi`. -/
def reach (r : HsdpRegion) (axi : Nat) : Nat := r.buffer + (axi - r.axiBase)

theorem reach_axiAddr (r : HsdpRegion) (i : Nat) : reach r (r.axiAddr i) = r.entry i := by
  unfold reach HsdpRegion.axiAddr HsdpRegion.entry
  omega

/-- The regions with the values of `last`. -/
def lasts (d : HsdpDma) (ipkts epkts idesc edesc : Int) : HsdpDma where
  ipkts := { d.ipkts with last := ipkts }
  epkts := { d.epkts with last := epkts }
  idesc := { d.idesc with last := idesc }
  edesc := { d.edesc with last := edesc }

/-! ## The DMA -/

/-- A byte of the status that the DMA leaves in a descriptor. -/
def StatusByte (n : Nat) (d : HsdpDma) (x : Nat) : Prop :=
  ∃ i, i < n ∧ (d.idesc.entry i + regDescSts ≤ x ∧ x < d.idesc.entry i + dmaDescSize ∨
    d.edesc.entry i + regDescSts ≤ x ∧ x < d.edesc.entry i + dmaDescSize)

/-- The number of bytes in CNTL. -/
def lengthOf (m : ByteMem) (desc : Nat) : Nat := cntlOf m desc &&& 0x3FFFFFF

/-- What is assumed of the DMA, whose steps are `step`; `given` are the buffers that it may write to, with their
lengths. It writes there and to the status of descriptors; it gets the buffers from the egress descriptors that it
reads; and it has none after a reset. -/
structure Channels (n : Nat) (wide : Bool) (d : HsdpDma) (step : Fabric δ → Fabric δ → Prop)
    (given : δ → Nat → Nat → Prop) (reset : (ingressCur egressCur : Nat) → δ) : Prop where
  writes : ∀ f f', step f f' → ∀ x, f'.mem x ≠ f.mem x → StatusByte n d x ∨
    ∃ axi len, given f.engine axi len ∧ reach d.epkts axi ≤ x ∧ x < reach d.epkts axi + len
  fetches : ∀ f f', step f f' → ∀ axi len, given f'.engine axi len → given f.engine axi len ∨
    ∃ i, i < n ∧ axi = buffOf wide f.mem (d.edesc.entry i) ∧ len = lengthOf f.mem (d.edesc.entry i)
  idle : ∀ ingressCur egressCur axi len, ¬ given (reset ingressCur egressCur) axi len

/-! ## The statement -/

/-- From a descriptor of the ring to the one that NEXT names. -/
def chain (wide : Bool) (m : ByteMem) (r : HsdpRegion) (axi : Nat) : Nat := nextOf wide m (reach r axi)

/-- `last` and `HSDP_NEXT` are entries; the one that is next is the one that NEXT of the last names, and the one to
which `k` steps along the chain lead. -/
structure Follows (n : Nat) (wide : Bool) (m : ByteMem) (r : HsdpRegion) (k : Nat) : Prop where
  last : 0 ≤ r.last ∧ r.last < n
  next : r.next < n
  named : r.axiAddr r.next = nextOf wide m (r.entry r.last.toNat)
  ahead : r.axiAddr r.next = (chain wide m r)^[k] (r.axiAddr 0)

/-- After `hsdp_setup_dma`. -/
structure SetUp (n : Nat) (reset : (ingressCur egressCur : Nat) → δ) (h : Hsdp δ) : Prop where
  ingress : Ring.OneCycle (chain h.wide h.fabric.mem h.dma.idesc) h.dma.idesc.axiAddr n
  egress : Ring.OneCycle (chain h.wide h.fabric.mem h.dma.edesc) h.dma.edesc.axiAddr n
  cur : h.fabric.engine = reset (h.dma.idesc.axiAddr h.dma.idesc.next) (h.dma.edesc.axiAddr h.dma.edesc.next)

/-- After `k` packets that were sent, and `j` polls that found one or an error. -/
structure Coincide (n k j : Nat) (h : Hsdp δ) : Prop where
  ingress : 0 < k → Follows n h.wide h.fabric.mem h.dma.idesc k
  egress : Follows n h.wide h.fabric.mem h.dma.edesc j
  buff : ∀ i, i < n → buffOf h.wide h.fabric.mem (h.dma.edesc.entry i) = h.dma.epkts.axiAddr i
  slots : ∀ i j, i < n → j < n → i ≠ j → h.dma.epkts.axiAddr i + h.dma.epkts.packetSize ≤ h.dma.epkts.axiAddr j ∨
    h.dma.epkts.axiAddr j + h.dma.epkts.packetSize ≤ h.dma.epkts.axiAddr i

/-- What came of a call: what `hsdp_send_packet` returned, or whether a poll found a packet or an error. -/
inductive Ended where
  | sent (ret : Int)
  | polled (found : Bool)
  deriving DecidableEq

/-- STS says done, or an error. -/
def reports (status : Nat) : Bool := status &&& 0x70000000 != 0 || (status >>> 31) &&& 1 != 0

/-- What a poll finds at the descriptor, by its first access. -/
def found (desc : Nat) : List (Σ c, Found δ c) → Bool
  | ⟨.read addr, f⟩ :: _ => addr == desc + regDescSts && reports (ofLe (slice f.mem addr 4))
  | _ => false

/-- A call from its begin to its end. -/
inductive Call (step : Fabric δ → Fabric δ → Prop) : Ended → Hsdp δ → Hsdp δ → Prop
  | send {h t : Hsdp δ} {mem : ByteMem} {buf wordCount : Nat} {log : List (Σ c, Found δ c)} {ret : Int}
      (hrun : (hsdpSendPacket mem buf wordCount).Finishes (shared step) h log ret t) : Call step (.sent ret) h t
  | poll {h t : Hsdp δ} {log : List (Σ c, Found δ c)} {r : Polled}
      (hrun : hsdpPollFastPacket.Finishes (shared step) h log r t) :
      Call step (.polled (found (h.dma.edesc.entry h.dma.edesc.next) log)) h t

/-! ## The descriptors -/

/-- The part of a descriptor that stays: NEXT, and in the egress ring BUFF and CNTL too. -/
def Fixed (n : Nat) (d : HsdpDma) (x : Nat) : Prop :=
  ∃ i, i < n ∧ (d.idesc.entry i ≤ x ∧ x < d.idesc.entry i + 8 ∨ d.edesc.entry i ≤ x ∧ x < d.edesc.entry i + 28)

/-- Both rings are linked, and the egress descriptors have their slots. -/
structure Wired (n : Nat) (wide : Bool) (d : HsdpDma) (m : ByteMem) : Prop where
  ingress : ∀ i, i < n → nextOf wide m (d.idesc.entry i) = d.idesc.axiAddr ((i + 1) % n)
  egress : ∀ i, i < n → nextOf wide m (d.edesc.entry i) = d.edesc.axiAddr ((i + 1) % n)
  buff : ∀ i, i < n → buffOf wide m (d.edesc.entry i) = d.epkts.axiAddr i
  length : ∀ i, i < n → lengthOf m (d.edesc.entry i) ≤ d.epkts.packetSize

section Descriptors

variable {n i j x : Nat} {wide : Bool} {d : HsdpDma} {m m' : ByteMem}

theorem Wired.congr (h : Wired n wide d m) (hm : ∀ x, Fixed n d x → m' x = m x) : Wired n wide d m' where
  ingress i hi := (nextOf_congr fun x h1 h2 => hm x ⟨i, hi, .inl ⟨h1, h2⟩⟩).trans (h.ingress i hi)
  egress i hi := (nextOf_congr fun x h1 h2 => hm x ⟨i, hi, .inr ⟨h1, by omega⟩⟩).trans (h.egress i hi)
  buff i hi := (buffOf_congr fun x h1 h2 => hm x ⟨i, hi, .inr ⟨by omega, by omega⟩⟩).trans (h.buff i hi)
  length i hi := by
    have hcntl : cntlOf m' (d.edesc.entry i) = cntlOf m (d.edesc.entry i) :=
      cntlOf_congr fun x h1 h2 => hm x ⟨i, hi, .inr ⟨by omega, by omega⟩⟩
    unfold lengthOf
    rw [hcntl]
    exact h.length i hi

theorem not_fixed_idesc (hr : Rings n wide d) (hi : i < n) (hlo : d.idesc.entry i + 8 ≤ x)
    (hhi : x < d.idesc.entry i + dmaDescSize) : ¬ Fixed n d x := by
  have hrange := hr.idesc_range hi
  have hsize : dmaDescSize = 64 := rfl
  rintro ⟨j, hj, ⟨h1, h2⟩ | ⟨h1, h2⟩⟩
  · obtain rfl := entry_inj hr.idescSize (by omega) hhi h1 (by omega)
    omega
  · have := hr.edesc_range hj
    omega

theorem not_fixed_edesc (hr : Rings n wide d) (hi : i < n) (hlo : d.edesc.entry i + 28 ≤ x)
    (hhi : x < d.edesc.entry i + dmaDescSize) : ¬ Fixed n d x := by
  have hrange := hr.edesc_range hi
  have hsize : dmaDescSize = 64 := rfl
  rintro ⟨j, hj, ⟨h1, h2⟩ | ⟨h1, h2⟩⟩
  · have := hr.idesc_range hj
    omega
  · obtain rfl := entry_inj hr.edescSize (by omega) hhi h1 (by omega)
    omega

theorem not_fixed_pkts (hr : Rings n wide d) (hx : d.ipkts.buffer ≤ x) : ¬ Fixed n d x := by
  have hsize : dmaDescSize = 64 := rfl
  rintro ⟨j, hj, ⟨h1, h2⟩ | ⟨h1, h2⟩⟩
  · have h3 := hr.idesc_range hj
    have h4 := hr.ipktsBehind
    omega
  · have := hr.edesc_range hj
    omega

theorem not_fixed_status (hr : Rings n wide d) (hx : StatusByte n d x) : ¬ Fixed n d x := by
  obtain ⟨i, hi, ⟨h1, h2⟩ | ⟨h1, h2⟩⟩ := hx
  · exact not_fixed_idesc hr hi (by unfold regDescSts at h1; omega) h2
  · exact not_fixed_edesc hr hi h1 h2

theorem Wired.write (h : Wired n wide d m) {a : Nat} {l : List UInt8}
    (hfree : ∀ x, a ≤ x → x < a + l.length → ¬ Fixed n d x) : Wired n wide d (write m a l) :=
  h.congr fun x hx => by
    by_contra hne
    obtain ⟨h1, h2⟩ := of_write_ne hne
    exact hfree x h1 h2 hx

/-- A slot that is given back to its descriptor. -/
theorem Wired.write_buff (h : Wired n wide d m) (hr : Rings n wide d) (hi : i < n) :
    Wired n wide d (ByteMem.write m (d.edesc.entry i + regDescBuff) (leBytes (regBytes wide) (d.epkts.axiAddr i))) := by
  have hw := regBytes_le wide
  have hsize : dmaDescSize = 64 := rfl
  have hrange := hr.edesc_range hi
  have hother : ∀ x, x < d.edesc.entry i + 8 ∨ d.edesc.entry i + 16 ≤ x →
      ByteMem.write m (d.edesc.entry i + regDescBuff) (leBytes (regBytes wide) (d.epkts.axiAddr i)) x = m x :=
    fun x hx => write_of_disjoint _ _ (by rw [length_leBytes]; unfold regDescBuff; omega)
  constructor
  · intro j hj
    have hj' := hr.idesc_range hj
    exact (nextOf_congr fun x h1 h2 => hother x (by omega)).trans (h.ingress j hj)
  · intro j hj
    refine (nextOf_congr fun x h1 h2 => hother x ?_).trans (h.egress j hj)
    by_contra hin
    obtain rfl := entry_inj hr.edescSize (i := i) (j := j) (x := x) (by omega) (by omega) (by omega) (by omega)
    omega
  · intro j hj
    by_cases hij : i = j
    · subst hij
      unfold buffOf
      rw [ofLe_write, Nat.mod_eq_of_lt (hr.epkts.fits i hi)]
    · refine (buffOf_congr fun x h1 h2 => hother x ?_).trans (h.buff j hj)
      by_contra hin
      exact hij (entry_inj hr.edescSize (x := x) (by omega) (by omega) (by omega) (by omega))
  · intro j hj
    have hcntl : cntlOf (ByteMem.write m (d.edesc.entry i + regDescBuff) (leBytes (regBytes wide) (d.epkts.axiAddr i)))
        (d.edesc.entry j) = cntlOf m (d.edesc.entry j) := by
      refine cntlOf_congr fun x h1 h2 => hother x ?_
      by_contra hin
      obtain rfl := entry_inj hr.edescSize (i := i) (j := j) (x := x) (by omega) (by omega) (by omega) (by omega)
      omega
    unfold lengthOf
    rw [hcntl]
    exact h.length j hj

end Descriptors

/-- **The descriptors** after `hsdp_setup_dma`. The length in CNTL is that of the slot, as far as it has room for it. -/
theorem setup_wired (reset : (ingressCur egressCur : Nat) → δ) (h : Hsdp δ) {n : Nat} (hr : Rings n h.wide h.dma) :
    Wired n h.wide h.dma (hsdpSetupDma reset h).fabric.mem where
  ingress _ hi := (setup_idesc reset h hr hi).1
  egress _ hi := (setup_edesc reset h hr hi).next
  buff _ hi := (setup_edesc reset h hr hi).buff
  length i hi := by
    unfold lengthOf
    rw [(setup_edesc reset h hr hi).cntl, show 0x3FFFFFF = 2 ^ 26 - 1 from rfl, Nat.and_two_pow_sub_one_eq_mod,
      Nat.mod_mod_of_dvd _ (by decide : 2 ^ 26 ∣ 256 ^ 4), Nat.or_mod_two_pow, show 0x0C000000 % 2 ^ 26 = 0 from rfl,
      Nat.zero_or]
    exact Nat.mod_le _ _

/-! ## Calls -/

/-- The driver between two accesses, with its cursors behind `k` sends and `j` polls. The DMA may write to the slots, at
most. -/
structure At (n : Nat) (wide : Bool) (d : HsdpDma) (given : δ → Nat → Nat → Prop) (k j : Nat) (h : Hsdp δ) : Prop where
  wired : Wired n wide d h.fabric.mem
  given : ∀ axi len, given h.fabric.engine axi len → ∃ i, i < n ∧ axi = d.epkts.axiAddr i ∧ len ≤ d.epkts.packetSize
  dma : ∃ p q, h.dma = lasts d p q (lastOf n k) (lastOf n (n + j))
  wide : h.wide = wide

section Calls

variable {n k j i : Nat} {wide : Bool} {d : HsdpDma} {step : Fabric δ → Fabric δ → Prop} {given : δ → Nat → Nat → Prop}
variable {reset : (ingressCur egressCur : Nat) → δ} {h : Hsdp δ} {f : Fabric δ}

/-- What a step of the DMA writes is not fixed. -/
theorem Channels.one_step (hc : Channels n wide d step given reset) (hr : Rings n wide d) {f' : Fabric δ}
    (hstep : step f f')
    (hw : Wired n wide d f.mem)
    (hg : ∀ axi len, given f.engine axi len → ∃ i, i < n ∧ axi = d.epkts.axiAddr i ∧ len ≤ d.epkts.packetSize) :
    Wired n wide d f'.mem ∧
      ∀ axi len, given f'.engine axi len → ∃ i, i < n ∧ axi = d.epkts.axiAddr i ∧ len ≤ d.epkts.packetSize := by
  constructor
  · refine hw.congr fun x hx => ?_
    by_contra hne
    rcases hc.writes f f' hstep x hne with hstatus | ⟨axi, len, hgiven, hlo, -⟩
    · exact not_fixed_status hr hstatus hx
    · obtain ⟨i, hi, rfl, -⟩ := hg axi len hgiven
      rw [reach_axiAddr] at hlo
      have hbehind := hr.epktsBehind
      have hentry : d.epkts.buffer ≤ d.epkts.entry i := Nat.le_add_right _ _
      exact not_fixed_pkts hr (by omega) hx
  · intro axi len hgiven
    rcases hc.fetches f f' hstep axi len hgiven with hgiven | ⟨i, hi, rfl, rfl⟩
    · exact hg axi len hgiven
    · exact ⟨i, hi, hw.buff i hi, hw.length i hi⟩

/-- **The DMA** leaves all of it as it is. -/
theorem At.steps (hc : Channels n wide d step given reset) (hr : Rings n wide d) (h0 : At n wide d given k j h)
    (hf : ReflTransGen step h.fabric f) : At n wide d given k j { h with fabric := f } := by
  have hboth : Wired n wide d f.mem ∧
      ∀ axi len, given f.engine axi len → ∃ i, i < n ∧ axi = d.epkts.axiAddr i ∧ len ≤ d.epkts.packetSize := by
    induction hf with
    | refl => exact ⟨h0.wired, h0.given⟩
    | tail _ hstep ih => exact hc.one_step hr hstep ih.1 ih.2
  exact ⟨hboth.1, hboth.2, h0.dma, h0.wide⟩

/-- What holds of the descriptors after every access. -/
def Stays (n : Nat) (wide : Bool) (d : HsdpDma) (h : Hsdp δ) : Prop := Wired n wide d h.fabric.mem

theorem At.readReg (hc : Channels n wide d step given reset) (hr : Rings n wide d) (h0 : At n wide d given k j h)
    (addr : Nat) : (readReg addr).Always (shared step) (Stays n wide d) (fun _ => At n wide d given k j) h :=
  fun _ hf => ⟨(h0.steps hc hr hf).wired, h0.steps hc hr hf⟩

theorem At.readReg64 (hc : Channels n wide d step given reset) (hr : Rings n wide d) (h0 : At n wide d given k j h)
    (w : Bool) (addr : Nat) :
    (readReg64 w addr).Always (shared step) (Stays n wide d) (fun _ => At n wide d given k j) h :=
  fun _ hf => ⟨(h0.steps hc hr hf).wired, h0.steps hc hr hf⟩

/-- A write that keeps the descriptors. -/
theorem At.write (hc : Channels n wide d step given reset) (hr : Rings n wide d) (h0 : At n wide d given k j h)
    {addr : Nat} {bytes : List UInt8} (hkeep : ∀ m, Wired n wide d m → Wired n wide d (ByteMem.write m addr bytes)) :
    (ask (Access.write addr bytes) : HsdpProg δ (Fabric δ)).Always (shared step) (Stays n wide d)
      (fun _ => At n wide d given k j) h := by
  intro f hf
  have hf := h0.steps hc hr hf
  have hwired := hkeep _ hf.wired
  exact ⟨hwired, hwired, hf.given, hf.dma, hf.wide⟩

theorem At.writeReg (hc : Channels n wide d step given reset) (hr : Rings n wide d) (h0 : At n wide d given k j h)
    {addr value : Nat} (hfree : ∀ x, addr ≤ x → x < addr + 4 → ¬ Fixed n d x) :
    (writeReg addr value).Always (shared step) (Stays n wide d) (fun _ => At n wide d given k j) h :=
  (h0.write hc hr fun _ hm => hm.write fun x h1 h2 => hfree x h1 (by rwa [length_leBytes] at h2)).mono fun _ _ ht => ht

/-- `memcpy` to a packet slot, of any length: what is behind it are packet slots. -/
theorem At.copyIn (hc : Channels n wide d step given reset) (hr : Rings n wide d) (h0 : At n wide d given k j h)
    {addr : Nat} (haddr : d.ipkts.buffer ≤ addr) (l : List UInt8) :
    (copyIn addr l).Always (shared step) (Stays n wide d) (fun _ => At n wide d given k j) h := by
  induction l generalizing addr h with
  | nil => exact h0
  | cons byte l ih =>
    have hkeep : ∀ m, Wired n wide d m → Wired n wide d (ByteMem.write m addr [byte]) :=
      fun m hm => hm.write fun x h1 _ => not_fixed_pkts hr (Nat.le_trans haddr h1)
    exact (h0.write hc hr hkeep).seq fun _ t ht => ih ht (Nat.le_succ_of_le haddr)

theorem At.awaitDesc (hc : Channels n wide d step given reset) (hr : Rings n wide d) (h0 : At n wide d given k j h)
    (addr count : Nat) :
    (awaitDesc addr count).Always (shared step) (Stays n wide d) (fun _ => At n wide d given k j) h := by
  induction count generalizing h with
  | zero => exact h0
  | succ count ih =>
    refine (h0.readReg hc hr addr).seq fun status t ht => ?_
    split
    · exact ht
    split
    · exact ht
    · exact ih ht

/-- The descriptor that is next is filled, and TAIL and `last` go on to it. -/
theorem At.fillDesc (hc : Channels n wide d step given reset) (hr : Rings n wide d) (hpos : 0 < n) {g : Hsdp δ}
    (hg : At n wide d given k j g) (h0 : At n wide d given k j h) (buf : List UInt8) :
    (fillDesc g (k % n) buf).Always (shared step) (Stays n wide d) (fun _ => At n wide d given (k + 1) j) h := by
  obtain ⟨p, q, hdma⟩ := hg.dma
  have hi : k % n < n := Nat.mod_lt k hpos
  have hsize : dmaDescSize = 64 := rfl
  have hdesc : g.dma.idesc.entry (k % n) = d.idesc.entry (k % n) := by
    rw [hdma]
    rfl
  have hslot : d.ipkts.buffer ≤ g.dma.ipkts.entry (k % n) := by
    rw [hdma]
    exact Nat.le_add_right _ _
  have hfree : ∀ x, d.idesc.entry (k % n) + 8 ≤ x → x < d.idesc.entry (k % n) + 32 → ¬ Fixed n d x :=
    fun x h1 h2 => not_fixed_idesc hr hi h1 (by omega)
  have hw := regBytes_le g.wide
  unfold Dpc.fillDesc
  dsimp only
  rw [hdesc]
  refine (h0.copyIn hc hr hslot buf).seq fun _ t ht => ?_
  refine Always.seq (J := fun _ => At n wide d given k j) ?_ fun _ t ht => ?_
  · refine (ht.write hc hr fun m hm => hm.write fun x h1 h2 => hfree x ?_ ?_).mono fun _ _ ht => ht
    · exact h1
    · rw [length_leBytes] at h2
      unfold regDescBuff at h2
      omega
  refine (ht.writeReg hc hr fun x h1 h2 => hfree x ?_ ?_).seq fun _ t ht => ?_
  · exact Nat.le_trans (Nat.add_le_add_left (by decide) _) h1
  · unfold regDescCntl at h2
    omega
  refine (ht.writeReg hc hr fun x h1 h2 => hfree x ?_ ?_).seq fun _ t ht => ?_
  · exact Nat.le_trans (Nat.add_le_add_left (by decide) _) h1
  · unfold regDescSts at h2
    omega
  refine (ht.readReg hc hr _).seq fun _ t ht => ?_
  intro f hf
  have ht := ht.steps hc hr hf
  obtain ⟨p', q', hdma'⟩ := ht.dma
  refine ⟨ht.wired, ht.wired, ht.wired, ht.given, ⟨p', q', ?_⟩, ht.wide⟩
  show { t.dma with idesc := { t.dma.idesc with last := ((k % n : Nat) : Int) } } = _
  rw [show t.dma = _ from hdma', lastOf_succ]
  rfl

/-- **A send** uses one entry if it completes, and none otherwise. -/
theorem At.send (hc : Channels n wide d step given reset) (hr : Rings n wide d) (hpos : 0 < n) (hmax : n < 2 ^ 31)
    (h0 : At n wide d given k j h) (mem : ByteMem) (buf wordCount : Nat) :
    (hsdpSendPacket mem buf wordCount).Always (shared step) (Stays n wide d)
      (fun ret t => ret = 0 ∧ At n wide d given (k + 1) j t ∨ ret = -1 ∧ At n wide d given k j t) h := by
  unfold hsdpSendPacket
  have h1 : At n wide d given k j { h with log := h.log ++ [.send wordCount] } :=
    ⟨h0.wired, h0.given, h0.dma, h0.wide⟩
  rw [always_modify_bind]
  refine ⟨h1.wired, ?_⟩
  rw [always_read_bind]
  obtain ⟨p, q, hdma⟩ := h1.dma
  have hnext : h.dma.idesc.next = k % n := by
    rw [show h.dma = _ from hdma]
    exact (hr.idesc.last _).next_of_last hpos hmax rfl
  dsimp only
  rw [hnext]
  refine (h1.awaitDesc hc hr _ _).seq fun available t ht => ?_
  split
  · exact (h1.fillDesc hc hr hpos ht _).seq fun _ t ht => .inl ⟨rfl, ht⟩
  · exact .inr ⟨rfl, ht⟩

/-- TAIL of the egress ring goes on. -/
theorem At.egressTail (hc : Channels n wide d step given reset) (hr : Rings n wide d) (h0 : At n wide d given k j h)
    (value : Nat) :
    (ask (.egressTail value) : HsdpProg δ (Fabric δ)).Always (shared step) (Stays n wide d)
      (fun _ => At n wide d given k j) h := by
  intro f hf
  have ht := h0.steps hc hr hf
  exact ⟨ht.wired, ht.wired, ht.given, ht.dma, ht.wide⟩

/-- And `last` with it. -/
theorem At.setLast (h0 : At n wide d given k j h) : At n wide d given k (j + 1) (setLast (j % n) h) := by
  obtain ⟨p, q, hdma⟩ := h0.dma
  refine ⟨h0.wired, h0.given, ⟨p, ((j % n : Nat) : Int), ?_⟩, h0.wide⟩
  unfold Receive.setLast
  rw [hdma, ← Nat.add_assoc, lastOf_succ, Nat.add_mod_left]
  rfl

/-- **A poll** uses one entry if it finds one that is done or in error, and none otherwise. -/
theorem At.poll (hc : Channels n wide d step given reset) (hr : Rings n wide d) (hpos : 0 < n) (hmax : n < 2 ^ 31)
    (h0 : At n wide d given k j h) {log : List (Σ c, Found δ c)} {r : Polled} {t : Hsdp δ}
    (hrun : hsdpPollFastPacket.Finishes (shared step) h log r t) :
    At n wide d given k (if found (h.dma.edesc.entry h.dma.edesc.next) log then j + 1 else j) t := by
  obtain ⟨p, q, hdma⟩ := h0.dma
  have hi : j % n < n := Nat.mod_lt j hpos
  have hsize : dmaDescSize = 64 := rfl
  have hnext : h.dma.edesc.next = j % n := by
    rw [hdma, ← Nat.add_mod_left n j]
    exact (hr.edesc.last _).next_of_last hpos hmax rfl
  have hdesc : h.dma.edesc.entry (j % n) = d.edesc.entry (j % n) := by
    rw [hdma]
    rfl
  have hslot : h.dma.epkts.axiAddr (j % n) = d.epkts.axiAddr (j % n) := by
    rw [hdma]
    rfl
  have hsts : ∀ x, d.edesc.entry (j % n) + regDescSts ≤ x → x < d.edesc.entry (j % n) + regDescSts + 4 →
    ¬ Fixed n d x :=
    fun x h1 h2 => not_fixed_edesc hr hi h1 (by unfold regDescSts at h2; omega)
  have hbuff : ∀ {t : Hsdp δ}, At n wide d given k j t →
      (writeReg64 h.wide (d.edesc.entry (j % n) + regDescBuff) (d.epkts.axiAddr (j % n)) : HsdpProg δ Unit).Always
        (shared step) (Stays n wide d) (fun _ => At n wide d given k j) t := by
    intro t ht
    rw [h0.wide]
    exact (ht.write hc hr fun m hm => hm.write_buff hr hi).mono fun _ _ ht => ht
  unfold hsdpPollFastPacket at hrun
  have hbody := finishes_read_bind.mp hrun
  dsimp only at hbody
  rw [hnext, hdesc, hslot] at hbody
  rw [hnext, hdesc]
  obtain ⟨l, status, u, l', hread, hrest, rfl⟩ := hbody.of_bind
  obtain ⟨f, _, hf, rfl, hstatus⟩ := finishes_ask_bind.mp hread
  obtain ⟨rfl, rfl, rfl⟩ := finishes_pure.mp hstatus
  -- The first access finds the status that decides.
  have hu := h0.steps hc hr hf
  have hfound : found (d.edesc.entry (j % n))
      ([(⟨.read (d.edesc.entry (j % n) + regDescSts), f⟩ : Σ c, Found δ c)] ++ l') =
      reports (ofLe (slice f.mem (d.edesc.entry (j % n) + regDescSts) 4)) := by
    simp [found]
  rw [hfound]
  unfold reports
  split at hrest
  · next herror =>
    rw [bne_iff_ne.mpr herror, Bool.true_or, if_pos rfl]
    refine Always.at_end (I := Stays n wide d) (Q := fun _ => At n wide d given k (j + 1)) ?_ hrest
    refine (hu.writeReg hc hr hsts).seq fun _ t ht => ?_
    refine (ht.egressTail hc hr _).seq fun _ t ht => ?_
    refine (hbuff ht).seq fun _ t ht => ?_
    exact ⟨ht.setLast.wired, ht.setLast⟩
  · split at hrest
    · next hdone =>
      rw [bne_iff_ne.mpr hdone, Bool.or_true, if_pos rfl]
      refine Always.at_end (I := Stays n wide d) (Q := fun _ => At n wide d given k (j + 1)) ?_ hrest
      refine (hu.readReg64 hc hr _ _).seq fun buff t ht => ?_
      refine (hbuff ht).seq fun _ t ht => ?_
      refine (ht.writeReg hc hr hsts).seq fun _ t ht => ?_
      refine (ht.egressTail hc hr _).seq fun _ t ht => ?_
      exact ⟨ht.setLast.wired, ht.setLast⟩
    · next herror hdone =>
      rw [not_not.mp herror, not_not.mp hdone]
      obtain ⟨-, -, rfl⟩ := finishes_pure.mp hrest
      exact hu

/-- **A call.** -/
theorem At.call (hc : Channels n wide d step given reset) (hr : Rings n wide d) (hpos : 0 < n) (hmax : n < 2 ^ 31)
    (h0 : At n wide d given k j h) {e : Ended} {t : Hsdp δ} (hcall : Call step e h t) :
    At n wide d given (k + [e].count (.sent 0)) (j + [e].count (.polled true)) t := by
  cases hcall with
  | send hrun =>
    rcases (h0.send hc hr hpos hmax _ _ _).at_end hrun with ⟨rfl, ht⟩ | ⟨rfl, ht⟩
    · exact ht
    · exact ht
  | @poll _ _ log r hrun =>
    have ht := h0.poll hc hr hpos hmax hrun
    generalize found (h.dma.edesc.entry h.dma.edesc.next) log = b at ht
    cases b with
    | false => exact ht
    | true => exact ht

/-- **Any number of calls.** By induction on them. -/
theorem At.run (hc : Channels n wide d step given reset) (hr : Rings n wide d) (hpos : 0 < n) (hmax : n < 2 ^ 31)
    (h0 : At n wide d given k j h) {es : List Ended} {t : Hsdp δ} (hrun : Machine.Run (Call step) h es t) :
    At n wide d given (k + es.count (.sent 0)) (j + es.count (.polled true)) t := by
  induction hrun generalizing k j with
  | nil => exact h0
  | @cons s u t e es hcall _ ih =>
    have ht := ih (h0.call hc hr hpos hmax hcall)
    rwa [Nat.add_assoc, Nat.add_assoc, ← List.count_append, ← List.count_append] at ht

/-! ## Runs -/

theorem chain_axiAddr (m : ByteMem) (r : HsdpRegion) : chain wide m r (r.axiAddr i) = nextOf wide m (r.entry i) := by
  unfold chain
  rw [reach_axiAddr]

/-- A ring that is linked, with its cursor behind `k + 1` entries. -/
theorem ring_follows {r : HsdpRegion} {m : ByteMem} {l : Nat} (h : RingOf n wide r) (hpos : 0 < n) (hmax : n < 2 ^ 31)
    (hlinked : ∀ i, i < n → nextOf wide m (r.entry i) = r.axiAddr ((i + 1) % n)) (hlast : r.last = lastOf n (k + 1))
    (hmod : (k + 1) % n = l % n) : Follows n wide m r l := by
  have hnext := h.next_of_last hpos hmax hlast
  have hlt := Nat.mod_lt k hpos
  rw [lastOf_succ] at hlast
  constructor
  · rw [hlast]
    omega
  · rw [hnext]
    exact Nat.mod_lt _ hpos
  · rw [hnext, hlast, Int.toNat_natCast, hlinked _ hlt, Nat.mod_add_mod]
  · have hchain : ∀ i, i < n → chain wide m r (r.axiAddr i) = r.axiAddr ((i + 1) % n) :=
      fun i hi => (chain_axiAddr m r).trans (hlinked i hi)
    rw [Ring.iterate_linked hpos hchain, hnext, hmod]

theorem ring_oneCycle {r : HsdpRegion} {m : ByteMem} (h : RingOf n wide r) (hpos : 0 < n)
    (hlinked : ∀ i, i < n → nextOf wide m (r.entry i) = r.axiAddr ((i + 1) % n)) :
    Ring.OneCycle (chain wide m r) r.axiAddr n :=
  Ring.oneCycle_of_linked hpos (fun i hi => (chain_axiAddr m r).trans (hlinked i hi))
    fun _ _ _ _ heq => h.axiAddr_inj heq

/-- Between two calls. -/
theorem At.coincide (hr : Rings n wide d) (hpos : 0 < n) (hmax : n < 2 ^ 31) (h0 : At n wide d given k j h) :
    Coincide n k j h := by
  obtain ⟨p, q, hdma⟩ := h0.dma
  obtain ⟨dma, w, fab, log⟩ := h
  obtain rfl : dma = _ := hdma
  obtain rfl : w = wide := h0.wide
  constructor
  · intro hsent
    obtain ⟨k, rfl⟩ : ∃ l, k = l + 1 := ⟨k - 1, by omega⟩
    exact ring_follows (hr.idesc.last _) hpos hmax h0.wired.ingress rfl rfl
  · refine ring_follows (k := n + j - 1) (hr.edesc.last _) hpos hmax h0.wired.egress ?_ ?_
    · show lastOf n (n + j) = _
      rw [Nat.sub_add_cancel (by omega)]
    · rw [Nat.sub_add_cancel (by omega), Nat.add_mod_left]
  · exact h0.wired.buff
  · intro i j hi hj hij
    rcases Nat.lt_or_gt_of_ne hij with hlt | hgt
    · exact .inl (axiAddr_apart d.epkts hlt)
    · exact .inr (axiAddr_apart d.epkts hgt)

theorem setup_at (hc : Channels n wide d step given reset) (hr : Rings n wide d) (hpos : 0 < n) (f : Fabric δ) :
    At n wide d given 0 0 (hsdpSetupDma reset ⟨d, wide, f, []⟩) where
  wired := setup_wired reset ⟨d, wide, f, []⟩ hr
  given axi len hgiven := absurd hgiven (hc.idle _ _ _ _)
  dma := by
    have hlast : lastOf n (n + 0) = -1 + (d.edesc.count : Int) := by
      rw [hr.edesc.count]
      unfold lastOf
      rw [if_neg (by omega), Nat.mod_eq_of_lt (by omega)]
      omega
    refine ⟨-1, -1, ?_⟩
    rw [hlast]
    rfl
  wide := rfl

theorem setUp_of_rings (hc : Channels n wide d step given reset) (hr : Rings n wide d) (hpos : 0 < n)
    (hmax : n < 2 ^ 31)
    (f : Fabric δ) : SetUp n reset (hsdpSetupDma reset ⟨d, wide, f, []⟩) := by
  have h0 := setup_at hc hr hpos f
  have hnext : (hsdpSetupDma reset ⟨d, wide, f, []⟩).dma.idesc.next = 0 ∧
      (hsdpSetupDma reset ⟨d, wide, f, []⟩).dma.edesc.next = 0 := by
    obtain ⟨p, q, hdma⟩ := h0.dma
    rw [hdma]
    refine ⟨((hr.idesc.last _).next_of_last hpos hmax rfl).trans (Nat.zero_mod n), ?_⟩
    exact ((hr.edesc.last _).next_of_last hpos hmax rfl).trans (Nat.mod_self n)
  refine ⟨ring_oneCycle (hr.idesc.last _) hpos h0.wired.ingress,
    ring_oneCycle (hr.edesc.last _) hpos h0.wired.egress, ?_⟩
  rw [hnext.1, hnext.2]
  show reset (d.idesc.axiAddr 0 % 256 ^ regBytes wide) (d.edesc.axiAddr 0 % 256 ^ regBytes wide) =
    reset (d.idesc.axiAddr 0) (d.edesc.axiAddr 0)
  rw [Nat.mod_eq_of_lt (hr.idesc.fits 0 hpos), Nat.mod_eq_of_lt (hr.edesc.fits 0 hpos)]

end Calls

/-- **The cursors and the chains.** For rings of any size, at any addresses that fit, and any DMA: `hsdp_setup_dma`
links each ring to one cycle and leaves CUR at the entry of `HSDP_NEXT`; and after any calls of `hsdp_send_packet` and
`hsdp_poll_fast_packet`, in any order, the cursors have followed the chains: the one by as many entries as sends have
returned 0, the other by as many as polls have found a packet or an error. -/
theorem cursor_follows_chain (n : Nat) (hpos : 1 ≤ n) (hmax : n < 2 ^ 31) (wide : Bool) (d : HsdpDma)
    (hr : Rings n wide d) (step : Fabric δ → Fabric δ → Prop) (given : δ → Nat → Nat → Prop)
    (reset : (ingressCur egressCur : Nat) → δ) (hc : Channels n wide d step given reset) (f : Fabric δ) :
    SetUp n reset (hsdpSetupDma reset ⟨d, wide, f, []⟩) ∧
      ∀ es h, Machine.Run (Call step) (hsdpSetupDma reset ⟨d, wide, f, []⟩) es h →
        ∀ f', ReflTransGen step h.fabric f' →
          Coincide n (es.count (.sent 0)) (es.count (.polled true)) { h with fabric := f' } := by
  refine ⟨setUp_of_rings hc hr hpos hmax f, fun es h hrun f' hsteps => ?_⟩
  have ht := (setup_at hc hr hpos f).run hc hr hpos hmax hrun
  rw [Nat.zero_add, Nat.zero_add] at ht
  exact (ht.steps hc hr hsteps).coincide hr hpos hmax

/-! ### A run -/

/-- A DMA that writes any status into any descriptor of the board. -/
def Reports (f f' : Fabric Unit) : Prop :=
  ∃ i sts, i < 4 ∧ (f' = { f with mem := write f.mem (boardBus.idesc i + regDescSts) (leBytes 4 sts) } ∨
    f' = { f with mem := write f.mem (boardBus.edesc i + regDescSts) (leBytes 4 sts) })

theorem reports_channels : Channels 4 boardBus.wide (hsdpSetup boardBus.buffer boardBus.physical) Reports
    (fun _ _ _ => False) (fun _ _ => ()) where
  writes := by
    have hstatus : ∀ (m : ByteMem) (desc sts x : Nat), write m (desc + regDescSts) (leBytes 4 sts) x ≠ m x →
        desc + regDescSts ≤ x ∧ x < desc + dmaDescSize := by
      intro m desc sts x hx
      have hsize : dmaDescSize = 64 := rfl
      have hin := of_write_ne hx
      rw [length_leBytes] at hin
      unfold regDescSts at hin ⊢
      omega
    rintro f f' ⟨i, sts, hi, rfl | rfl⟩ x hx
    · exact .inl ⟨i, hi, .inl (hstatus f.mem (boardBus.idesc i) sts x hx)⟩
    · exact .inl ⟨i, hi, .inr (hstatus f.mem (boardBus.edesc i) sts x hx)⟩
  fetches _ _ _ _ _ h := h.elim
  idle _ _ _ _ h := h

/-- The board, set up by a driver that has made no call yet. -/
def boardStart : Played (Hsdp Unit) where
  state :=
    hsdpSetupDma (fun _ _ => ()) ⟨hsdpSetup boardBus.buffer boardBus.physical, boardBus.wide,
      ⟨fun _ => 0, 0, 0, ()⟩, []⟩
  turn := 0
  lawful := True

/-- The DMA has done nothing before an access, or it has written this status. -/
def quiet : Tape (Hsdp Unit) Access (Found Unit) := fun _ _ h => h.fabric

def writes (desc sts : Nat) : Tape (Hsdp Unit) Access (Found Unit) :=
  fun _ _ h => { h.fabric with mem := write h.fabric.mem (desc + regDescSts) (leBytes 4 sts) }

theorem quiet_answers (k : Nat) (c : Access) (h : Hsdp Unit) : (shared Reports).answers c (quiet k c h) h := .refl

theorem writes_idesc {i : Nat} (hi : i < 4) (sts k : Nat) (c : Access) (h : Hsdp Unit) :
    (shared Reports).answers c (writes (boardBus.idesc i) sts k c h) h :=
  .single ⟨i, sts, hi, .inl rfl⟩

theorem writes_edesc {i : Nat} (hi : i < 4) (sts k : Nat) (c : Access) (h : Hsdp Unit) :
    (shared Reports).answers c (writes (boardBus.edesc i) sts k c h) h :=
  .single ⟨i, sts, hi, .inr rfl⟩

/-- A send of one word, and a poll. -/
def sendWord (tape : Tape (Hsdp Unit) Access (Found Unit)) (x : Played (Hsdp Unit)) : Int × Played (Hsdp Unit) :=
  (hsdpSendPacket (fun _ => 0) 0 1).play (shared Reports) tape x

def pollOnce (tape : Tape (Hsdp Unit) Access (Found Unit)) (x : Played (Hsdp Unit)) : Bool × Played (Hsdp Unit) :=
  (found (x.state.dma.edesc.entry x.state.dma.edesc.next) (hsdpPollFastPacket.answered (shared Reports) tape x),
    (hsdpPollFastPacket.play (shared Reports) tape x).2)

/-- A run of calls has come to `x`. -/
def Reached (es : List Ended) (x : Played (Hsdp Unit)) : Prop :=
  Machine.Run (Call Reports) boardStart.state es x.state ∧ x.lawful

section Reached

variable {tape : Tape (Hsdp Unit) Access (Found Unit)} {es : List Ended} {x : Played (Hsdp Unit)}

theorem Reached.send (h : Reached es x) (htape : ∀ k c h, (shared Reports).answers c (tape k c h) h) {ret : Int}
    (hret : (sendWord tape x).1 = ret) : Reached (es ++ [.sent ret]) (sendWord tape x).2 := by
  have hlawful : (sendWord tape x).2.lawful := play_lawful htape _ h.2
  exact ⟨h.1.append (.cons (.send (hret ▸ (play_finishes _ hlawful).2)) (.nil _)), hlawful⟩

theorem Reached.poll (h : Reached es x) (htape : ∀ k c h, (shared Reports).answers c (tape k c h) h) {b : Bool}
    (hfound : (pollOnce tape x).1 = b) : Reached (es ++ [.polled b]) (pollOnce tape x).2 := by
  have hlawful : (pollOnce tape x).2.lawful := play_lawful htape _ h.2
  exact ⟨h.1.append (.cons (hfound ▸ .poll (play_finishes _ hlawful).2) (.nil _)), hlawful⟩

end Reached

/-- Four packets are sent. The ring is full then, until the DMA has taken the first of them. -/
def fourSent : Played (Hsdp Unit) := (fun x => (sendWord quiet x).2)^[4] boardStart
def refused : Played (Hsdp Unit) := (sendWord quiet fourSent).2
def fiveSent : Played (Hsdp Unit) := (sendWord (writes (boardBus.idesc 0) 0x80000000) refused).2

/-- A poll finds an error, the next one a packet, and a third one nothing. -/
def twoFound : Played (Hsdp Unit) :=
  (pollOnce (writes (boardBus.edesc 1) 0x80000004) (pollOnce (writes (boardBus.edesc 0) 0x10000000) fiveSent).2).2
def polled : Played (Hsdp Unit) := (pollOnce quiet twoFound).2

/-- How the calls ended. -/
def boardEnds : List Ended :=
  [.sent 0, .sent 0, .sent 0, .sent 0, .sent (-1), .sent 0, .polled true, .polled true, .polled false]

theorem reached_polled : Reached boardEnds polled := by
  have hstart : Reached [] boardStart := ⟨.nil _, trivial⟩
  have hone := hstart.send quiet_answers (show (sendWord quiet _).1 = 0 by decide +kernel)
  have htwo := hone.send quiet_answers (show (sendWord quiet _).1 = 0 by decide +kernel)
  have hthree := htwo.send quiet_answers (show (sendWord quiet _).1 = 0 by decide +kernel)
  have hfour : Reached _ fourSent := hthree.send quiet_answers (show (sendWord quiet _).1 = 0 by decide +kernel)
  have hrefused : Reached _ refused :=
    hfour.send quiet_answers (show (sendWord quiet fourSent).1 = -1 by decide +kernel)
  have hfive : Reached _ fiveSent := hrefused.send (writes_idesc (by decide) _)
    (show (sendWord _ _).1 = 0 by decide +kernel)
  have herror := hfive.poll (writes_edesc (show 0 < 4 by decide) 0x10000000)
    (show (pollOnce _ _).1 = true by decide +kernel)
  have hfound : Reached _ twoFound := herror.poll (writes_edesc (show 1 < 4 by decide) 0x80000004)
    (show (pollOnce _ _).1 = true by decide +kernel)
  exact hfound.poll quiet_answers (show (pollOnce quiet twoFound).1 = false by decide +kernel)

/-- The fifth packet is in the entry of the first. -/
theorem cursor_follows_chain_calls :
    SetUp 4 (fun _ _ => ()) boardStart.state ∧ Machine.Run (Call Reports) boardStart.state boardEnds polled.state ∧
      Coincide 4 5 2 polled.state ∧ polled.state.dma.idesc.last = 0 ∧ polled.state.dma.edesc.last = 1 := by
  have hall : SetUp 4 (fun _ _ => ()) boardStart.state ∧ ∀ es x, Reached es x →
      Coincide 4 (es.count (.sent 0)) (es.count (.polled true)) x.state := by
    have hboard := cursor_follows_chain 4 (by decide) (by decide) boardBus.wide _
      (rings_hsdpSetup boardBus boardBus_fits) Reports (fun _ _ _ => False) (fun _ _ => ()) reports_channels
      ⟨fun _ => 0, 0, 0, ()⟩
    exact ⟨hboard.1, fun es x hx => hboard.2 es _ hx.1 _ .refl⟩
  exact ⟨hall.1, reached_polled.1, hall.2 boardEnds _ reached_polled, by decide +kernel, by decide +kernel⟩

end Cursor
end Dpc
end Xvc
