import Xvc.Dpc.Setup
import Xvc.Lib.Machine
import Xvc.Lib.Play

/-!
# The egress ring at work

The DMA fills the packet buffers of the egress ring, while the handler `edpc` of `dpc/src/xvc_dpc.c` takes the
packets from there: `hsdp_poll_fast_packet` of `hsdp.c` finds a packet and gives its descriptor back, and
`read_packet` of `xvcserver.c` copies the packet after that.

* `edpcMessage`: the message `edpc:`, from the poll to the copy.
* `S2mm.Step`: a step of the DMA. It takes the next packet, stores a byte of it, or is done with the descriptor.
* `Untouched`: the DMA stores nothing into a buffer while it is copied.
* `lossless_untouched`: in every run where that is kept, the client gets the packets as the DMA received them.
  `egress_mixes_packets` is a run where it is not.
-/

namespace Xvc
namespace Dpc
namespace Receive

open ByteMem Program Relation Ring

variable {δ : Type}

/-! ## The code -/

/-- `REG_EGRESS_DESC64`, read. -/
def readReg64 (wide : Bool) (addr : Nat) : HsdpProg δ Nat := do
  let f ← ask (.read addr)
  pure (ofLe (slice f.mem addr (regBytes wide)))

/-- `*buf` and `*word_count`. -/
structure Polled where
  buf : Option Nat
  wordCount : Nat

/-- The entry `ie` was used last. -/
def setLast (ie : Nat) (h : Hsdp δ) : Hsdp δ :=
  { h with dma := { h.dma with epkts := { h.dma.epkts with last := ie }, edesc := { h.dma.edesc with last := ie } } }

/-- `hsdp_poll_fast_packet`, with `*buf` NULL before it and without `pkt`. -/
def hsdpPollFastPacket : HsdpProg δ Polled := do
  let h ← Program.read
  let ie := h.dma.edesc.next
  let desc := h.dma.edesc.entry ie
  let tail := h.dma.edesc.axiAddr ie % 256 ^ regBytes h.wide
  let status ← readReg (desc + regDescSts)
  if status &&& 0x70000000 ≠ 0 then do
    writeReg (desc + regDescSts) 0
    let _ ← ask (.egressTail tail)
    writeReg64 h.wide (desc + regDescBuff) (h.dma.epkts.axiAddr ie)
    modify (setLast ie)
    pure ⟨none, 0⟩
  else if (status >>> 31) &&& 1 ≠ 0 then do
    let size := status &&& 0x3FFFFFF
    let buff ← readReg64 h.wide (desc + regDescBuff)
    let packetOffset := (((buff : Int) - h.dma.epkts.axiAddr 0) % 2 ^ 64).toNat
    writeReg64 h.wide (desc + regDescBuff) (h.dma.epkts.axiAddr ie)
    writeReg (desc + regDescSts) 0
    let _ ← ask (.egressTail tail)
    modify (setLast ie)
    pure ⟨some (h.dma.epkts.entry 0 + packetOffset), size >>> 2⟩
  else pure ⟨none, 0⟩

/-- The loop of `hsdp_receive_fast_packet`, for `max_polls`. -/
def receiveLoop : (maxPolls : Nat) → HsdpProg δ Polled
  | 0 => hsdpPollFastPacket
  | maxPolls + 1 => do
    let r ← hsdpPollFastPacket
    if 0 < maxPolls ∧ r.wordCount = 0 then receiveLoop maxPolls else pure r

/-- `hsdp_receive_fast_packet`. -/
def hsdpReceiveFastPacket : HsdpProg δ Polled := receiveLoop 1

/-- `edpc`: `*num_words`, and `*buf` unless it is left as it was. -/
def edpc : HsdpProg δ Polled := do
  let r ← hsdpReceiveFastPacket
  if r.wordCount = 0 then pure ⟨none, 0⟩ else pure r

/-- `memcpy` out of the memory, byte by byte. -/
def copyOut : (addr n : Nat) → HsdpProg δ (List UInt8)
  | _, 0 => pure []
  | addr, n + 1 => do
    let f ← ask (.read addr)
    let l ← copyOut (addr + 1) n
    pure (f.mem addr :: l)

/-- The bytes of the packet in the reply to `edpc:`, with no error pending; none without a packet. -/
def edpcReply : HsdpProg δ (Option (List UInt8)) := do
  let r ← edpc
  match r.buf with
  | none => pure none
  | some buf => do
    let l ← copyOut buf (r.wordCount * 4)
    pure (some l)

/-! ## The DMA -/

/-- The packet that is being stored: NEXT and BUFF of its descriptor, and the bytes that have been stored. -/
structure Arrival where
  next : Nat
  buff : Nat
  packet : List UInt8
  stored : Nat

/-- The channel from the stream to the memory: whether it runs, the descriptor that it has come to, and the packets
that it has received. `delivered` is for the statements: the packets in the replies to the client. -/
structure S2mm where
  running : Bool
  cur : Nat
  job : Option Arrival
  received : List (List UInt8)
  delivered : List (List UInt8)

/-- After `hsdp_setup_dma`, which writes TAIL at its end. -/
def S2mm.reset (_ingressCur egressCur : Nat) : S2mm := ⟨true, egressCur, none, [], []⟩

/-- A positive whole number of words, of at most `epkts.packet_size` bytes. -/
def Fit (l : List UInt8) : Prop := 0 < l.length ∧ l.length % 4 = 0 ∧ l.length ≤ dmaPacketBuffSizeDefault

/-- The DMA reads the descriptor that it has come to, for the packet `l`. -/
def S2mm.take (b : Bus) (f : Fabric S2mm) (l : List UInt8) : Fabric S2mm :=
  let desc := b.reach f.engine.cur
  let j := ⟨nextOf b.wide f.mem desc, buffOf b.wide f.mem desc, l, 0⟩
  { f with engine := { f.engine with job := some j } }

/-- It stores a byte. -/
def S2mm.store (b : Bus) (f : Fabric S2mm) (j : Arrival) (byte : UInt8) : Fabric S2mm :=
  { f with
    mem := write f.mem (b.reach (j.buff + j.stored)) [byte]
    engine := { f.engine with job := some { j with stored := j.stored + 1 } } }

/-- It sets STS, and goes on along NEXT unless it has come to TAIL. -/
def S2mm.complete (b : Bus) (f : Fabric S2mm) (j : Arrival) : Fabric S2mm :=
  { f with
    mem := write f.mem (b.reach f.engine.cur + regDescSts) (leBytes 4 (0x80000000 ||| j.packet.length))
    engine :=
      { f.engine with
        running := decide (f.engine.cur ≠ f.egressTail)
        cur := j.next
        job := none
        received := f.engine.received ++ [j.packet] } }

/-- A step of the DMA. -/
inductive S2mm.Step (b : Bus) : Fabric S2mm → Fabric S2mm → Prop
  | take {f : Fabric S2mm} (hrun : f.engine.running = true) (hjob : f.engine.job = none) {l : List UInt8} (hl : Fit l) :
      Step b f (S2mm.take b f l)
  | store {f : Fabric S2mm} {j : Arrival} (hjob : f.engine.job = some j) {byte : UInt8}
      (hbyte : j.packet[j.stored]? = some byte) : Step b f (S2mm.store b f j byte)
  | complete {f : Fabric S2mm} {j : Arrival} (hjob : f.engine.job = some j) (hstored : j.stored = j.packet.length) :
      Step b f (S2mm.complete b f j)

/-- Writing TAIL makes the DMA run. -/
def start (h : Hsdp S2mm) : Hsdp S2mm :=
  { h with fabric := { h.fabric with engine := { h.fabric.engine with running := true } } }

/-- The DMA takes any number of its steps before each access. -/
def ring (b : Bus) : World (Hsdp S2mm) Access (Found S2mm) where
  answers _ f h := ReflTransGen (S2mm.Step b) h.fabric f
  effect c f h :=
    match c with
    | .egressTail _ => start (h.access c f)
    | _ => h.access c f

/-! ## Messages -/

/-- The reply goes to the client. -/
def deliver (reply : Option (List UInt8)) (h : Hsdp S2mm) : Hsdp S2mm :=
  { h with
    fabric :=
      { h.fabric with engine := { h.fabric.engine with delivered := h.fabric.engine.delivered ++ reply.toList } } }

/-- The message `edpc:`. -/
def edpcMessage : HsdpProg S2mm Unit := do
  let reply ← edpcReply
  modify (deliver reply)

/-- Messages one after the other. -/
def messages (b : Bus) : Session (Hsdp S2mm) Access (Found S2mm) where
  world := ring b
  Job := Unit
  may _ _ := True
  body _ := edpcMessage

/-- The packets sent to the client are a beginning of those that the DMA received. -/
def Lossless (f : Fabric S2mm) : Prop := f.engine.delivered <+: f.engine.received

/-- When a byte of a packet buffer is read, the DMA has not begun to store another packet there: STS of the
descriptor, which the poll has cleared, is still 0, and the DMA is not storing into it. -/
def Untouched (b : Bus) (c : Access) (f : Fabric S2mm) (_h : Hsdp S2mm) : Prop :=
  ∀ addr i, c = .read addr → i < 4 → b.epkt i ≤ addr → addr < b.epkt i + dmaPacketBuffSizeDefault →
    stsOf f.mem (b.edesc i) = 0 ∧
      ∀ j, f.engine.job = some j → f.engine.cur = b.axi (b.edesc i) → j.stored = 0

/-! ## The ring -/

/-- The packets that have been received; item `k` of the ring is packet `k`. -/
def count (f : Fabric S2mm) : Nat := f.engine.received.length

/-- A byte of descriptor `i` or of its packet buffer. -/
def Entry (b : Bus) (i x : Nat) : Prop :=
  b.edesc i ≤ x ∧ x < b.edesc i + 64 ∨ b.epkt i ≤ x ∧ x < b.epkt i + 1040

theorem entry_apart (b : Bus) {i j x : Nat} (hi : i < 4) (hj : j < 4) (h : Entry b i x) (h' : Entry b j x) : i = j := by
  unfold Entry Bus.edesc Bus.epkt at h h'
  omega

/-- Entry `i` holds the packet `l`. -/
structure Full (b : Bus) (m : ByteMem) (i : Nat) (l : List UInt8) : Prop where
  sts : stsOf m (b.edesc i) = 0x80000000 ||| l.length
  buff : buffOf b.wide m (b.edesc i) = b.axi (b.epkt i)
  bytes : slice m (b.epkt i) l.length = l

theorem Full.congr {b : Bus} {m m' : ByteMem} {i : Nat} {l : List UInt8} (h : Full b m i l) (hl : Fit l)
    (hm : ∀ x, Entry b i x → m' x = m x) : Full b m' i l where
  sts := (stsOf_congr fun x h1 h2 => hm x (.inl ⟨by omega, by omega⟩)).trans h.sts
  buff := (buffOf_congr fun x h1 h2 => hm x (.inl ⟨by omega, by omega⟩)).trans h.buff
  bytes := by
    have hsize : l.length ≤ 1040 := hl.2.2
    exact (slice_congr fun k hk => hm _ (.inr ⟨by omega, by omega⟩)).trans h.bytes

/-- The DMA stores the packet that is the next to be received. -/
structure Storing (b : Bus) (f : Fabric S2mm) (j : Arrival) : Prop where
  next : j.next = b.axi (b.edesc ((count f + 1) % 4))
  buff : j.buff = b.axi (b.epkt (count f % 4))
  fit : Fit j.packet
  stored : j.stored ≤ j.packet.length
  bytes : slice f.mem (b.epkt (count f % 4)) j.stored = j.packet.take j.stored

/-- The invariant of the ring: the packets from `lo` on have not been taken, and the DMA has been given the entries
up to `hi`. -/
structure Sound (b : Bus) (lo hi : Nat) (f : Fabric S2mm) : Prop where
  low : lo ≤ count f
  high : count f ≤ hi
  room : hi ≤ lo + 4
  cur : f.engine.cur = b.axi (b.edesc (count f % 4))
  running : f.engine.running = decide (count f < hi)
  tail : f.egressTail = b.axi (b.edesc ((hi + 3) % 4))
  chain : ∀ i, i < 4 → nextOf b.wide f.mem (b.edesc i) = b.axi (b.edesc ((i + 1) % 4))
  armed : ∀ i, Holds 4 (count f) hi i → stsOf f.mem (b.edesc i) = 0 ∧ buffOf b.wide f.mem (b.edesc i) = b.axi (b.epkt i)
  full : ∀ k l, lo ≤ k → f.engine.received[k]? = some l → Full b f.mem (k % 4) l
  fits : ∀ l ∈ f.engine.received, Fit l
  job : ∀ j, f.engine.job = some j → count f < hi ∧ Storing b f j

/-- What the DMA leaves as it is. -/
structure Later (b : Bus) (hi : Nat) (f f' : Fabric S2mm) : Prop where
  received : f.engine.received <+: f'.engine.received
  delivered : f'.engine.delivered = f.engine.delivered
  frame : ∀ i, i < 4 → ¬ Holds 4 (count f) hi i → ∀ x, Entry b i x → f'.mem x = f.mem x

theorem Later.refl (b : Bus) (hi : Nat) (f : Fabric S2mm) : Later b hi f f :=
  ⟨List.prefix_refl _, rfl, fun _ _ _ _ _ => rfl⟩

theorem Later.trans {b : Bus} {hi : Nat} {f f' f'' : Fabric S2mm} (h : Later b hi f f') (h' : Later b hi f' f'') :
    Later b hi f f'' where
  received := h.received.trans h'.received
  delivered := h'.delivered.trans h.delivered
  frame i hi hfree x hx :=
    (h'.frame i hi (fun hh => hfree (hh.mono h.received.length_le (Nat.le_refl _))) x hx).trans
      (h.frame i hi hfree x hx)

/-- The DMA has not begun to store packet `n`. -/
def Fresh (n : Nat) (f : Fabric S2mm) : Prop :=
  count f < n ∨ count f = n ∧ ∀ j, f.engine.job = some j → j.stored = 0

/-! ## What the DMA does -/

section Steps

variable {b : Bus} {lo hi : Nat} {f f' : Fabric S2mm}

theorem Sound.reach_cur (h : Sound b lo hi f) : b.reach f.engine.cur = b.edesc (count f % 4) := by
  rw [h.cur]
  exact b.reach_axi (by unfold Bus.edesc; omega)

theorem Sound.take (h : Sound b lo hi f) (hrun : f.engine.running = true) {l : List UInt8} (hl : Fit l) :
    Sound b lo hi (S2mm.take b f l) where
  low := h.low
  high := h.high
  room := h.room
  cur := h.cur
  running := h.running
  tail := h.tail
  chain := h.chain
  armed := h.armed
  full := h.full
  fits := h.fits
  job j hj := by
    have hlt : count f < hi := by
      rw [h.running] at hrun
      exact of_decide_eq_true hrun
    have hmod : count f % 4 < 4 := Nat.mod_lt _ (by decide)
    obtain rfl := (Option.some.inj hj).symm
    refine ⟨hlt, ?_, ?_, hl, Nat.zero_le _, rfl⟩
    · rw [h.reach_cur, h.chain _ hmod, Nat.mod_add_mod]
      rfl
    · rw [h.reach_cur, (h.armed _ (holds_of_mem (Nat.le_refl _) hlt)).2]
      rfl

/-- The byte goes to the buffer of the entry that the DMA has come to. -/
theorem Sound.store_mem (h : Sound b lo hi f) {j : Arrival} (hjob : f.engine.job = some j) (byte : UInt8) :
    (S2mm.store b f j byte).mem = write f.mem (b.epkt (count f % 4) + j.stored) [byte] := by
  have hreach : b.reach (j.buff + j.stored) = b.epkt (count f % 4) + j.stored := by
    rw [(h.job j hjob).2.buff]
    unfold Bus.reach Bus.axi Bus.epkt
    omega
  unfold S2mm.store
  rw [hreach]

theorem Sound.store_other (h : Sound b lo hi f) {j : Arrival} (hjob : f.engine.job = some j) {byte : UInt8}
    (hbyte : j.packet[j.stored]? = some byte) {x : Nat}
    (hx : x < b.epkt (count f % 4) ∨ b.epkt (count f % 4) + 1040 ≤ x) : (S2mm.store b f j byte).mem x = f.mem x := by
  have hlt : j.stored < j.packet.length := (List.getElem?_eq_some_iff.mp hbyte).1
  have hsize : j.packet.length ≤ 1040 := (h.job j hjob).2.fit.2.2
  rw [h.store_mem hjob]
  exact write_of_disjoint _ _ (by simp only [List.length_singleton]; omega)

/-- The packets that have not been taken are in other entries. -/
theorem Sound.apart (h : Sound b lo hi f) (hlt : count f < hi) {k : Nat} {l : List UInt8} (hk : lo ≤ k)
    (hkl : f.engine.received[k]? = some l) : k % 4 ≠ count f % 4 := by
  have hroom := h.room
  have hk' : k < count f := (List.getElem?_eq_some_iff.mp hkl).1
  intro heq
  have := mod_inj heq (by omega) (by omega)
  omega

theorem Sound.store (h : Sound b lo hi f) {j : Arrival} (hjob : f.engine.job = some j) {byte : UInt8}
    (hbyte : j.packet[j.stored]? = some byte) : Sound b lo hi (S2mm.store b f j byte) := by
  obtain ⟨hlt, hs⟩ := h.job j hjob
  have hstored : j.stored < j.packet.length := (List.getElem?_eq_some_iff.mp hbyte).1
  have hmod : count f % 4 < 4 := Nat.mod_lt _ (by decide)
  have hdesc : ∀ {i x : Nat}, i < 4 → b.edesc i ≤ x → x < b.edesc i + 64 → (S2mm.store b f j byte).mem x = f.mem x := by
    intro i x hi h1 h2
    refine h.store_other hjob hbyte ?_
    unfold Bus.edesc at h1 h2
    unfold Bus.epkt
    omega
  refine ⟨h.low, h.high, h.room, h.cur, h.running, h.tail, ?_, ?_, ?_, h.fits, ?_⟩
  · intro i hi
    rw [nextOf_congr fun x h1 h2 => hdesc hi h1 (by omega), h.chain i hi]
  · intro i hi
    have hi4 : i < 4 := by
      obtain ⟨k, -, -, rfl⟩ := hi
      exact Nat.mod_lt _ (by decide)
    rw [stsOf_congr fun x h1 h2 => hdesc hi4 (by omega) (by omega),
      buffOf_congr fun x h1 h2 => hdesc hi4 (by omega) (by omega)]
    exact h.armed i hi
  · intro k l hk hkl
    have hne := h.apart hlt hk hkl
    refine (h.full k l hk hkl).congr (h.fits l (List.mem_of_getElem? hkl)) fun x hx => h.store_other hjob hbyte ?_
    by_contra hin
    exact hne (entry_apart b (Nat.mod_lt _ (by decide)) hmod hx (.inr ⟨by omega, by omega⟩))
  · intro j' hj'
    obtain rfl : { j with stored := j.stored + 1 } = j' := Option.some.inj hj'
    refine ⟨hlt, hs.next, hs.buff, hs.fit, hstored, ?_⟩
    show slice (S2mm.store b f j byte).mem (b.epkt (count f % 4)) (j.stored + 1) = j.packet.take (j.stored + 1)
    have hone : slice (write f.mem (b.epkt (count f % 4) + j.stored) [byte])
      (b.epkt (count f % 4) + j.stored) 1 = [byte] :=
      slice_write _ _ [byte]
    rw [h.store_mem hjob, slice_append, slice_write_of_disjoint _ (.inl (Nat.le_refl _)), hs.bytes, hone,
      List.take_add_one, hbyte]
    rfl

theorem count_complete (b : Bus) (f : Fabric S2mm) (j : Arrival) : count (S2mm.complete b f j) = count f + 1 :=
  List.length_append

/-- Only STS of the entry that the DMA has come to changes. -/
theorem Sound.complete_mem (h : Sound b lo hi f) (j : Arrival) {x : Nat}
    (hx : x < b.edesc (count f % 4) + 28 ∨ b.edesc (count f % 4) + 32 ≤ x) :
    (S2mm.complete b f j).mem x = f.mem x := by
  unfold S2mm.complete
  rw [h.reach_cur]
  exact write_of_disjoint _ _ (by rw [length_leBytes]; unfold regDescSts; omega)

/-- STS of a descriptor with a packet of `n` bytes. -/
theorem status_eq {n : Nat} (h : n < 2 ^ 26) : 0x80000000 ||| n = 2 ^ 31 + n :=
  (Nat.two_pow_add_eq_or_of_lt (i := 31) (by omega) 1).symm

theorem Fit.lt {l : List UInt8} (h : Fit l) : l.length < 2 ^ 26 := Nat.lt_of_le_of_lt h.2.2 (by decide)

theorem Sound.complete_full (h : Sound b lo hi f) {j : Arrival} (hjob : f.engine.job = some j)
    (hstored : j.stored = j.packet.length) : Full b (S2mm.complete b f j).mem (count f % 4) j.packet := by
  obtain ⟨hlt, hs⟩ := h.job j hjob
  have hsize : j.packet.length ≤ 1040 := hs.fit.2.2
  refine ⟨?_, ?_, ?_⟩
  · unfold S2mm.complete stsOf
    have hbits := hs.fit.lt
    rw [h.reach_cur, ofLe_write, status_eq hbits, Nat.mod_eq_of_lt (by omega)]
  · rw [buffOf_congr fun x h1 h2 => h.complete_mem j (by omega)]
    exact (h.armed _ (holds_of_mem (Nat.le_refl _) hlt)).2
  · have hkeep : slice (S2mm.complete b f j).mem (b.epkt (count f % 4)) j.packet.length =
        slice f.mem (b.epkt (count f % 4)) j.packet.length :=
      slice_congr fun k hk => h.complete_mem j (by unfold Bus.epkt Bus.edesc; omega)
    have hbytes := hs.bytes
    rw [hstored, List.take_length] at hbytes
    rw [hkeep, hbytes]

theorem Sound.complete (h : Sound b lo hi f) {j : Arrival} (hjob : f.engine.job = some j)
    (hstored : j.stored = j.packet.length) : Sound b lo hi (S2mm.complete b f j) := by
  obtain ⟨hlt, hs⟩ := h.job j hjob
  have hcount := count_complete b f j
  have hmod : count f % 4 < 4 := Nat.mod_lt _ (by decide)
  have hlow := h.low
  have hroom := h.room
  have hreceived : (S2mm.complete b f j).engine.received = f.engine.received ++ [j.packet] := rfl
  refine ⟨?_, ?_, hroom, ?_, ?_, h.tail, ?_, ?_, ?_, ?_, fun j' hj' => by cases hj'⟩
  · rw [hcount]
    omega
  · rw [hcount]
    omega
  · rw [hcount]
    exact hs.next
  · -- It has come to TAIL when the entry was the last that it was given.
    have hiff : f.engine.cur ≠ f.egressTail ↔ count f + 1 < hi := by
      rw [h.cur, h.tail, ne_eq, b.axi_inj (by unfold Bus.edesc; omega) (by unfold Bus.edesc; omega)]
      unfold Bus.edesc
      omega
    rw [hcount]
    exact decide_eq_decide.mpr hiff
  · intro i hi
    rw [nextOf_congr fun x h1 h2 => h.complete_mem j (by unfold Bus.edesc at h1 h2 ⊢; omega), h.chain i hi]
  · intro i hi
    rw [hcount, holds_pop (by omega)] at hi
    obtain ⟨hheld, hne⟩ := hi
    have hi4 : i < 4 := by
      obtain ⟨k, -, -, rfl⟩ := hheld
      exact Nat.mod_lt _ (by decide)
    rw [stsOf_congr fun x h1 h2 => h.complete_mem j (by unfold Bus.edesc at h1 h2 ⊢; omega),
      buffOf_congr fun x h1 h2 => h.complete_mem j (by unfold Bus.edesc at h1 h2 ⊢; omega)]
    exact h.armed i hheld
  · intro k l hk hkl
    rw [hreceived] at hkl
    rcases Nat.lt_or_ge k (count f) with hold | hge
    · rw [List.getElem?_append_left hold] at hkl
      have hne := h.apart hlt hk hkl
      refine (h.full k l hk hkl).congr (h.fits l (List.mem_of_getElem? hkl)) fun x hx => h.complete_mem j ?_
      by_contra hin
      exact hne (entry_apart b (Nat.mod_lt _ (by decide)) hmod hx (.inl ⟨by omega, by omega⟩))
    · have hk' : k < (f.engine.received ++ [j.packet]).length := (List.getElem?_eq_some_iff.mp hkl).1
      rw [List.length_append, List.length_singleton] at hk'
      obtain rfl : k = count f := Nat.le_antisymm (Nat.le_of_lt_succ hk') hge
      rw [count, List.getElem?_concat_length] at hkl
      rw [← Option.some.inj hkl]
      exact h.complete_full hjob hstored
  · rw [hreceived]
    intro l hl
    rcases List.mem_append.mp hl with hl | hl
    · exact h.fits l hl
    · rw [List.mem_singleton] at hl
      rw [hl]
      exact hs.fit

/-- **A step of the DMA.** -/
theorem Sound.step (h : Sound b lo hi f) (hs : S2mm.Step b f f') : Sound b lo hi f' ∧ Later b hi f f' := by
  have hmod : count f % 4 < 4 := Nat.mod_lt _ (by decide)
  cases hs with
  | take hrun hjob hl => exact ⟨h.take hrun hl, List.prefix_refl _, rfl, fun _ _ _ _ _ => rfl⟩
  | store hjob hbyte =>
    refine ⟨h.store hjob hbyte, List.prefix_refl _, rfl, fun i hi hfree x hx => h.store_other hjob hbyte ?_⟩
    by_contra hin
    have heq := entry_apart b hi hmod hx (.inr ⟨by omega, by omega⟩)
    exact hfree (heq ▸ holds_of_mem (Nat.le_refl _) (h.job _ hjob).1)
  | complete hjob hstored =>
    refine ⟨h.complete hjob hstored, List.prefix_append _ _, rfl, fun i hi hfree x hx => h.complete_mem _ ?_⟩
    by_contra hin
    have heq := entry_apart b hi hmod hx (.inl ⟨by omega, by omega⟩)
    exact hfree (heq ▸ holds_of_mem (Nat.le_refl _) (h.job _ hjob).1)

/-- **A run of the DMA.** -/
theorem Sound.steps (h : Sound b lo hi f) (hs : ReflTransGen (S2mm.Step b) f f') :
    Sound b lo hi f' ∧ Later b hi f f' := by
  induction hs with
  | refl => exact ⟨h, .refl b hi f⟩
  | tail _ hstep ih => exact ⟨(ih.1.step hstep).1, ih.2.trans (ih.1.step hstep).2⟩

/-- Up to when it begins to store packet `n`, the DMA leaves its buffer as it is. -/
theorem Sound.step_fresh (h : Sound b lo hi f) {n : Nat} (hn : n < lo + 4) (hs : S2mm.Step b f f')
    (hfresh : Fresh n f') :
    Fresh n f ∧ ∀ x, b.epkt (n % 4) ≤ x → x < b.epkt (n % 4) + 1040 → f'.mem x = f.mem x := by
  have hlow := h.low
  cases hs with
  | take hrun hjob hl =>
    refine ⟨hfresh.imp id fun hf => ⟨hf.1, fun j hj => ?_⟩, fun _ _ _ => rfl⟩
    rw [hjob] at hj
    cases hj
  | store hjob hbyte =>
    have hlt : count f < n := hfresh.resolve_right fun hf => Nat.succ_ne_zero _ (hf.2 _ rfl)
    have hne : count f % 4 ≠ n % 4 := fun heq => by
      have := mod_inj heq (by omega) (by omega)
      omega
    refine ⟨.inl hlt, fun x h1 h2 => h.store_other hjob hbyte ?_⟩
    unfold Bus.epkt at h1 h2 ⊢
    omega
  | complete hjob hstored =>
    have hlt : count f < n := by
      rcases hfresh with hf | hf
      · rw [count_complete] at hf
        omega
      · have := hf.1
        rw [count_complete] at this
        omega
    refine ⟨.inl hlt, fun x h1 h2 => h.complete_mem _ ?_⟩
    unfold Bus.epkt at h1 h2
    unfold Bus.edesc
    omega

theorem Sound.steps_fresh (h : Sound b lo hi f) {n : Nat} (hn : n < lo + 4) (hs : ReflTransGen (S2mm.Step b) f f')
    (hfresh : Fresh n f') :
    Fresh n f ∧ ∀ x, b.epkt (n % 4) ≤ x → x < b.epkt (n % 4) + 1040 → f'.mem x = f.mem x := by
  induction hs with
  | refl => exact ⟨hfresh, fun _ _ _ => rfl⟩
  | tail hrun hstep ih =>
    obtain ⟨h1, h2⟩ := (h.steps hrun).1.step_fresh hn hstep hfresh
    obtain ⟨k1, k2⟩ := ih h1
    exact ⟨k1, fun x hx hx' => (h2 x hx hx').trans (k2 x hx hx')⟩

end Steps

/-! ## What the driver does -/

/-- The runs in which `Untouched` is kept. -/
abbrev kept (b : Bus) : Session (Hsdp S2mm) Access (Found S2mm) := (messages b).under (Untouched b) fun _ _ => True

/-- `edesc.last` when `n` packets have been taken. -/
def LastAt (b : Bus) (n : Nat) (d : HsdpDma) : Prop := ∃ p : Int, d = b.dma (-1) p (-1) ((n + 3) % 4 : Nat)

/-- What holds between any two messages. -/
structure Inv (b : Bus) (n : Nat) (h : Hsdp S2mm) : Prop where
  sound : Sound b n (n + 4) h.fabric
  delivered : h.fabric.engine.delivered.length = n
  lossless : Lossless h.fabric
  dma : LastAt b n h.dma
  wide : h.wide = b.wide

/-- Packet `n`, which is `l`, has been found, and its entry holds what it holds in `m`. -/
structure Taking (b : Bus) (n : Nat) (l : List UInt8) (m : ByteMem) (h : Hsdp S2mm) : Prop where
  sound : Sound b (n + 1) (n + 4) h.fabric
  packet : h.fabric.engine.received[n]? = some l
  delivered : h.fabric.engine.delivered.length = n
  lossless : Lossless h.fabric
  view : ∀ x, Entry b (n % 4) x → h.fabric.mem x = m x
  dma : LastAt b n h.dma
  wide : h.wide = b.wide

/-- The entry of packet `n` has been given back, and the packet is copied. -/
structure Copying (b : Bus) (n : Nat) (l : List UInt8) (h : Hsdp S2mm) : Prop where
  sound : Sound b (n + 1) (n + 5) h.fabric
  packet : h.fabric.engine.received[n]? = some l
  delivered : h.fabric.engine.delivered.length = n
  lossless : Lossless h.fabric
  buffer : Fresh (n + 4) h.fabric → slice h.fabric.mem (b.epkt (n % 4)) l.length = l

theorem Lossless.later {b : Bus} {hi : Nat} {f f' : Fabric S2mm} (h : Lossless f) (hl : Later b hi f f') :
    Lossless f' := by
  unfold Lossless
  rw [hl.delivered]
  exact h.trans hl.received

theorem Lossless.steps {b : Bus} {f f' : Fabric S2mm} (h : Lossless f) (hs : ReflTransGen (S2mm.Step b) f f') :
    Lossless f' := by
  induction hs with
  | refl => exact h
  | tail _ hstep ih =>
    cases hstep with
    | take => exact ih
    | store => exact ih
    | complete => exact ih.trans (List.prefix_append _ _)

section Accesses

variable {b : Bus} {h : Hsdp S2mm} {f : Fabric S2mm} {n : Nat} {l : List UInt8} {m : ByteMem}

theorem Inv.steps (hinv : Inv b n h) (hf : ReflTransGen (S2mm.Step b) h.fabric f) : Inv b n { h with fabric := f } := by
  obtain ⟨hsound, hlater⟩ := hinv.sound.steps hf
  exact ⟨hsound, (congrArg List.length hlater.delivered).trans hinv.delivered, hinv.lossless.later hlater,
    hinv.dma, hinv.wide⟩

theorem Taking.steps (ht : Taking b n l m h) (hf : ReflTransGen (S2mm.Step b) h.fabric f) :
    Taking b n l m { h with fabric := f } := by
  obtain ⟨hsound, hlater⟩ := ht.sound.steps hf
  refine ⟨hsound, prefix_getElem? hlater.received ht.packet, (congrArg List.length hlater.delivered).trans ht.delivered,
    ht.lossless.later hlater, fun x hx => ?_, ht.dma, ht.wide⟩
  have hlow := ht.sound.low
  have hnot : ¬ Holds 4 (count h.fabric) (n + 4) (n % 4) := by
    rw [← Nat.add_mod_right n 4]
    exact not_holds_next (by omega)
  exact (hlater.frame _ (Nat.mod_lt _ (by decide)) hnot x hx).trans (ht.view x hx)

theorem Copying.steps (hc : Copying b n l h) (hsize : l.length ≤ 1040) (hf : ReflTransGen (S2mm.Step b) h.fabric f) :
    Copying b n l { h with fabric := f } := by
  obtain ⟨hsound, hlater⟩ := hc.sound.steps hf
  refine ⟨hsound, prefix_getElem? hlater.received hc.packet, (congrArg List.length hlater.delivered).trans hc.delivered,
    hc.lossless.later hlater, fun hfresh => ?_⟩
  obtain ⟨hfresh', hkeep⟩ := hc.sound.steps_fresh (by omega) hf hfresh
  rw [Nat.add_mod_right] at hkeep
  have hslice : slice f.mem (b.epkt (n % 4)) l.length = slice h.fabric.mem (b.epkt (n % 4)) l.length :=
    slice_congr fun k hk => hkeep _ (by omega) (by omega)
  exact hslice.trans (hc.buffer hfresh')

/-- A write to a descriptor that the DMA has not been given, behind NEXT. -/
theorem Sound.storing {lo hi : Nat} (hs : Sound b lo hi f) (hroom : hi < lo + 4) {addr : Nat} {bytes : List UInt8}
    (h1 : b.edesc (hi % 4) + 8 ≤ addr) (h2 : addr + bytes.length ≤ b.edesc (hi % 4) + 64) :
    Sound b lo hi { f with mem := write f.mem addr bytes } := by
  have hlow := hs.low
  have hmod : hi % 4 < 4 := Nat.mod_lt _ (by decide)
  have hother : ∀ {i x : Nat}, i < 4 → i ≠ hi % 4 → Entry b i x → write f.mem addr bytes x = f.mem x := by
    intro i x hi4 hne hx
    refine write_of_disjoint _ _ ?_
    by_contra hin
    exact hne (entry_apart b hi4 hmod hx (.inl ⟨by omega, by omega⟩))
  refine ⟨hs.low, hs.high, hs.room, hs.cur, hs.running, hs.tail, ?_, ?_, ?_, hs.fits, ?_⟩
  · intro i hi
    rw [nextOf_congr fun x k1 k2 => write_of_disjoint _ _ ?_]
    · exact hs.chain i hi
    · unfold Bus.edesc at h1 h2 k1 k2
      omega
  · intro i hi
    have hi4 : i < 4 := by
      obtain ⟨k, -, -, rfl⟩ := hi
      exact Nat.mod_lt _ (by decide)
    have hne : i ≠ _ % 4 := fun heq => not_holds_next (show _ < count f + 4 by omega) (heq ▸ hi)
    have hkeep : ∀ x, b.edesc i ≤ x → x < b.edesc i + 64 → write f.mem addr bytes x = f.mem x :=
      fun x k1 k2 => hother hi4 hne (.inl ⟨k1, k2⟩)
    rw [stsOf_congr fun x k1 k2 => hkeep x (by omega) (by omega),
      buffOf_congr fun x k1 k2 => hkeep x (by omega) (by omega)]
    exact hs.armed i hi
  · intro k l' hk hkl
    have hlt : k < count f := (List.getElem?_eq_some_iff.mp hkl).1
    have hhigh := hs.high
    have hne : k % 4 ≠ hi % 4 := fun heq => by
      have := mod_inj heq (by omega) (by omega)
      omega
    exact (hs.full k l' hk hkl).congr (hs.fits l' (List.mem_of_getElem? hkl)) fun x hx =>
      hother (Nat.mod_lt _ (by decide)) hne hx
  · intro j hj
    obtain ⟨hlt, hst⟩ := hs.job j hj
    have hsize : j.packet.length ≤ 1040 := hst.fit.2.2
    have hstored := hst.stored
    refine ⟨hlt, hst.next, hst.buff, hst.fit, hst.stored, ?_⟩
    have hkeep : slice (write f.mem addr bytes) (b.epkt (count f % 4)) j.stored =
        slice f.mem (b.epkt (count f % 4)) j.stored :=
      slice_write_of_disjoint _ (by unfold Bus.edesc at h1 h2; unfold Bus.epkt; omega)
    exact hkeep.trans hst.bytes

theorem Taking.storing (ht : Taking b n l m h) (hf : ReflTransGen (S2mm.Step b) h.fabric f) {addr : Nat}
    {bytes : List UInt8} (h1 : b.edesc (n % 4) + 8 ≤ addr) (h2 : addr + bytes.length ≤ b.edesc (n % 4) + 64) :
    Taking b n l (write m addr bytes) (h.access (.write addr bytes) f) := by
  obtain ⟨hsound, hpacket, hdelivered, hlossless, hview, hdma, hwide⟩ := ht.steps hf
  rw [← Nat.add_mod_right n 4] at h1 h2
  refine ⟨hsound.storing (by omega) h1 h2, hpacket, hdelivered, hlossless, fun x hx => ?_, hdma, hwide⟩
  show write f.mem addr bytes x = write m addr bytes x
  unfold write
  split
  · rfl
  · exact hview x hx

/-- TAIL is written: the DMA has been given another entry. -/
theorem Sound.starting {lo hi : Nat} (hs : Sound b lo hi f) (hroom : hi < lo + 4)
    (hsts : stsOf f.mem (b.edesc (hi % 4)) = 0)
    (hbuff : buffOf b.wide f.mem (b.edesc (hi % 4)) = b.axi (b.epkt (hi % 4)))
    {tail : Nat} (htail : tail = b.axi (b.edesc (hi % 4))) :
    Sound b lo (hi + 1) { f with egressTail := tail, engine := { f.engine with running := true } } := by
  have hlow := hs.low
  have hhigh := hs.high
  refine ⟨hlow, Nat.le_succ_of_le hhigh, by omega, hs.cur, ?_, ?_, hs.chain, ?_, hs.full, hs.fits, ?_⟩
  · exact (decide_eq_true (Nat.lt_succ_of_le hhigh)).symm
  · rw [show (hi + 1 + 3) % 4 = hi % 4 by omega]
    exact htail
  · intro i hi
    rcases (holds_push hhigh).mp hi with hold | rfl
    · exact hs.armed i hold
    · exact ⟨hsts, hbuff⟩
  · intro j hj
    obtain ⟨hlt, hst⟩ := hs.job j hj
    exact ⟨Nat.lt_succ_of_lt hlt, hst.next, hst.buff, hst.fit, hst.stored, hst.bytes⟩

/-! ## The message -/

/-- What the poll makes of STS. -/
theorem status_full {n : Nat} (h : n < 2 ^ 26) :
    (0x80000000 ||| n) &&& 0x70000000 = 0 ∧ ((0x80000000 ||| n) >>> 31) &&& 1 ≠ 0 ∧
    (0x80000000 ||| n) &&& 0x3FFFFFF = n := by
  rw [status_eq h]
  refine ⟨?_, ?_, ?_⟩
  · have hhigh : ((2 ^ 31 + n) &&& 0x70000000) >>> 28 = 0 := by
      rw [Nat.shiftRight_and_distrib, Nat.shiftRight_eq_div_pow, show (2 ^ 31 + n) / 2 ^ 28 = 8 by omega]
      rfl
    have hlow : ((2 ^ 31 + n) &&& 0x70000000) % 2 ^ 28 = 0 := by
      rw [Nat.and_mod_two_pow, show 0x70000000 % 2 ^ 28 = 0 from rfl, Nat.and_zero]
    rw [Nat.shiftRight_eq_div_pow] at hhigh
    omega
  · rw [Nat.shiftRight_eq_div_pow, show (2 ^ 31 + n) / 2 ^ 31 = 1 by omega]
    decide
  · rw [show 0x3FFFFFF = 2 ^ 26 - 1 from rfl, Nat.and_two_pow_sub_one_eq_mod]
    omega

/-- Between any two accesses. -/
abbrev Keeps (h : Hsdp S2mm) : Prop := Lossless h.fabric

theorem always_taking (ht : Taking b n l m h) {addr : Nat} {bytes : List UInt8} (h1 : b.edesc (n % 4) + 8 ≤ addr)
    (h2 : addr + bytes.length ≤ b.edesc (n % 4) + 64) :
    (ask (Access.write addr bytes) : HsdpProg S2mm (Fabric S2mm)).Always (ring b) Keeps
      (fun _ => Taking b n l (write m addr bytes)) h :=
  fun _ hf => ⟨(ht.storing hf h1 h2).lossless, ht.storing hf h1 h2⟩

theorem writeReg_taking (ht : Taking b n l m h) {addr value : Nat} (h1 : b.edesc (n % 4) + 8 ≤ addr)
    (h2 : addr + 4 ≤ b.edesc (n % 4) + 64) :
    (writeReg addr value).Always (ring b) Keeps (fun _ => Taking b n l (write m addr (leBytes 4 value))) h :=
  (always_taking ht h1 (by rw [length_leBytes]; exact h2)).seq fun _ _ ht => ht

theorem writeReg64_taking (ht : Taking b n l m h) {addr value : Nat} (h1 : b.edesc (n % 4) + 8 ≤ addr)
    (h2 : addr + regBytes b.wide ≤ b.edesc (n % 4) + 64) :
    (writeReg64 b.wide addr value).Always (ring b) Keeps
      (fun _ => Taking b n l (write m addr (leBytes (regBytes b.wide) value))) h :=
  (always_taking ht h1 (by rw [length_leBytes]; exact h2)).seq fun _ _ ht => ht

/-- `HSDP_NEXT`: the entry of the packet that is taken next. -/
theorem LastAt.next (hb : b.Fits) {d : HsdpDma} (hd : LastAt b n d) : d.edesc.next = n % 4 := by
  obtain ⟨p, rfl⟩ := hd
  have hring : RingOf 4 b.wide (b.dma (-1) p (-1) ((n + 3) % 4 : Nat)).edesc := (rings_hsdpSetup b hb).edesc.last _
  rw [← Nat.add_mod_right n 4]
  exact hring.next_of_last (by decide) (by decide) (lastOf_succ 4 (n + 3)).symm

/-- The descriptor of packet `n` as the poll leaves it, behind what it held. -/
def returned (b : Bus) (i : Nat) (m : ByteMem) : ByteMem :=
  write (write m (b.edesc i + regDescBuff) (leBytes (regBytes b.wide) (b.axi (b.epkt i)))) (b.edesc i + regDescSts)
    (leBytes 4 0)

theorem returned_spec (hb : b.Fits) {i : Nat} (hi : i < 4) (m : ByteMem) (hsize : l.length ≤ 1040) :
    stsOf (returned b i m) (b.edesc i) = 0 ∧ buffOf b.wide (returned b i m) (b.edesc i) = b.axi (b.epkt i) ∧
      slice (returned b i m) (b.epkt i) l.length = slice m (b.epkt i) l.length := by
  have hw := regBytes_le b.wide
  have hpkt : b.epkt i < b.buffer + 0x2280 := by unfold Bus.epkt; omega
  refine ⟨?_, ?_, ?_⟩
  · unfold stsOf returned
    rw [ofLe_write]
    rfl
  · unfold buffOf returned
    rw [slice_write_of_disjoint _ (by unfold regDescBuff regDescSts; omega), ofLe_write, Bus.axi_mod hb hpkt]
  · unfold returned
    rw [slice_write_of_disjoint _ (by rw [length_leBytes]; unfold Bus.epkt Bus.edesc regDescSts; omega),
      slice_write_of_disjoint _ (by rw [length_leBytes]; unfold Bus.epkt Bus.edesc regDescBuff; omega)]

/-- The write of TAIL. -/
theorem Taking.starting (hb : b.Fits) (hsize : l.length ≤ 1040) (ht : Taking b n l (returned b (n % 4) m) h)
    (hbytes : slice m (b.epkt (n % 4)) l.length = l) (hf : ReflTransGen (S2mm.Step b) h.fabric f) {tail : Nat}
    (htail : tail = b.axi (b.edesc (n % 4))) :
    let t := start (h.access (.egressTail tail) f)
    Copying b n l t ∧ LastAt b (n + 1) (setLast (n % 4) t).dma ∧ t.wide = b.wide := by
  intro t
  obtain ⟨hsound, hpacket, hdelivered, hlossless, hview, hdma, hwide⟩ := ht.steps hf
  obtain ⟨hsts, hbuff, hslot⟩ := returned_spec hb (Nat.mod_lt n (by decide)) m hsize
  have hsts' : stsOf f.mem (b.edesc (n % 4)) = 0 :=
    (stsOf_congr fun x h1 h2 => hview x (.inl ⟨by omega, by omega⟩)).trans hsts
  have hbuff' : buffOf b.wide f.mem (b.edesc (n % 4)) = b.axi (b.epkt (n % 4)) :=
    (buffOf_congr fun x h1 h2 => hview x (.inl ⟨by omega, by omega⟩)).trans hbuff
  have hslot' : slice f.mem (b.epkt (n % 4)) l.length = l := by
    have hkeep : slice f.mem (b.epkt (n % 4)) l.length = slice (returned b (n % 4) m) (b.epkt (n % 4)) l.length :=
      slice_congr fun k hk => hview _ (.inr ⟨by omega, by omega⟩)
    rw [hkeep, hslot, hbytes]
  rw [← Nat.add_mod_right n 4] at hsts' hbuff' htail
  refine ⟨⟨hsound.starting (by omega) hsts' hbuff' htail, hpacket, hdelivered, hlossless, fun _ => hslot'⟩, ?_, hwide⟩
  obtain ⟨p, hp⟩ := hdma
  refine ⟨(n % 4 : Nat), ?_⟩
  have hlast : (n + 1 + 3) % 4 = n % 4 := by omega
  show HsdpDma.mk h.dma.ipkts { h.dma.epkts with last := (n % 4 : Nat) } h.dma.idesc
    { h.dma.edesc with last := (n % 4 : Nat) } = _
  rw [show h.dma = _ from hp, hlast]
  rfl

/-- A packet is taken from the ring. -/
theorem Sound.pass {lo hi : Nat} (hs : Sound b lo hi f) (hlt : lo < count f) : Sound b (lo + 1) hi f where
  low := hlt
  high := hs.high
  room := Nat.le_trans hs.room (by omega)
  cur := hs.cur
  running := hs.running
  tail := hs.tail
  chain := hs.chain
  armed := hs.armed
  full k l hk hkl := hs.full k l (Nat.le_of_succ_le hk) hkl
  fits := hs.fits
  job := hs.job

/-- What the poll comes to: there is no packet, or the next one has been found and its entry given back. -/
def Outcome (b : Bus) (n : Nat) (r : Polled) (t : Hsdp S2mm) : Prop :=
  r = ⟨none, 0⟩ ∧ Inv b n t ∧ count t.fabric = n ∨
    ∃ l, Fit l ∧ r = ⟨some (b.epkt (n % 4)), l.length / 4⟩ ∧ Copying b n l t ∧ LastAt b (n + 1) t.dma ∧ t.wide = b.wide

/-- **The poll.** -/
theorem poll_rule (hb : b.Fits) (hinv : Inv b n h) :
    (hsdpPollFastPacket : HsdpProg S2mm Polled).Always (ring b) Keeps (Outcome b n) h := by
  have hw := regBytes_le b.wide
  have hwide := hinv.wide
  have hmod : n % 4 < 4 := Nat.mod_lt _ (by decide)
  have hnext := hinv.dma.next hb
  obtain ⟨p, hdma⟩ := hinv.dma
  have hentry : h.dma.edesc.entry (n % 4) = b.edesc (n % 4) := by rw [hdma, b.entry_edesc]
  have htail : h.dma.edesc.axiAddr h.dma.edesc.next % 256 ^ regBytes h.wide = b.axi (b.edesc (n % 4)) := by
    rw [hnext, hwide, hdma, b.axiAddr_edesc, Bus.axi_mod hb (by unfold Bus.edesc; omega)]
  have hbuff : h.dma.epkts.axiAddr (n % 4) = b.axi (b.epkt (n % 4)) := by rw [hdma, b.axiAddr_epkts]
  -- The offset of the buffer from that of entry 0.
  have hoffset : h.dma.epkts.entry 0 + (((b.axi (b.epkt (n % 4)) : Int) - h.dma.epkts.axiAddr 0) % 2 ^ 64).toNat =
      b.epkt (n % 4) := by
    rw [hdma, b.entry_epkts, b.axiAddr_epkts]
    unfold Bus.axi Bus.epkt
    omega
  have hread : (readReg (b.edesc (n % 4) + regDescSts)).Always (ring b) Keeps
      (fun status t => ∃ f, t = { h with fabric := f } ∧ Inv b n t ∧ status = stsOf f.mem (b.edesc (n % 4))) h :=
    fun f hf => ⟨(hinv.steps hf).lossless, f, rfl, hinv.steps hf, rfl⟩
  unfold hsdpPollFastPacket
  simp only [always_read_bind, hnext, hentry, hwide, hbuff]
  refine hread.seq fun status t ht => ?_
  obtain ⟨f, rfl, hinv', rfl⟩ := ht
  have hlow : n ≤ count f := hinv'.sound.low
  rcases Nat.lt_or_eq_of_le hlow with hlt | heq
  · -- A packet is there.
    obtain ⟨l, hl⟩ : ∃ l, f.engine.received[n]? = some l := ⟨_, List.getElem?_eq_getElem hlt⟩
    have hfull := hinv'.sound.full n l (Nat.le_refl n) hl
    have hfit := hinv'.sound.fits l (List.mem_of_getElem? hl)
    have hsize : l.length ≤ 1040 := hfit.2.2
    obtain ⟨h1, h2, h3⟩ := status_full hfit.lt
    rw [hfull.sts, if_neg (not_not_intro h1), if_pos h2, h3]
    have htaking : Taking b n l f.mem { h with fabric := f } :=
      ⟨hinv'.sound.pass hlt, hl, hinv'.delivered, hinv'.lossless, fun _ _ => rfl, hinv'.dma, hwide⟩
    have hread64 : (readReg64 b.wide (b.edesc (n % 4) + regDescBuff)).Always (ring b) Keeps
        (fun buff t => buff = b.axi (b.epkt (n % 4)) ∧ Taking b n l f.mem t) { h with fabric := f } := by
      intro f' hf'
      have ht := htaking.steps hf'
      have hkeep : buffOf b.wide f'.mem (b.edesc (n % 4)) = buffOf b.wide f.mem (b.edesc (n % 4)) :=
        buffOf_congr fun x h1 h2 => ht.view x (.inl ⟨by omega, by omega⟩)
      exact ⟨ht.lossless, hkeep.trans hfull.buff, ht⟩
    refine hread64.seq fun buff t ht => ?_
    obtain ⟨rfl, ht⟩ := ht
    rw [hoffset]
    refine (writeReg64_taking ht (by unfold regDescBuff; omega) (by unfold regDescBuff; omega)).seq fun _ t ht => ?_
    refine (writeReg_taking ht (by unfold regDescSts; omega) (by unfold regDescSts; omega)).seq fun _ t ht => ?_
    simp only [always_ask_bind, always_modify_bind]
    intro f' hf'
    obtain ⟨hcopy, hlast, hwide'⟩ := ht.starting hb hsize hfull.bytes hf' htail
    refine ⟨hcopy.lossless, hcopy.lossless, .inr ⟨l, hfit, ?_, ?_, hlast, hwide'⟩⟩
    · rw [Nat.shiftRight_eq_div_pow]
    · exact ⟨hcopy.sound, hcopy.packet, hcopy.delivered, hcopy.lossless, hcopy.buffer⟩
  · -- The DMA holds the entry.
    have hsts := (hinv'.sound.armed (n % 4) ⟨n, by simp only [← heq]; omega, by omega, rfl⟩).1
    rw [hsts]
    exact .inl ⟨rfl, hinv', heq.symm⟩

theorem edpc_rule (hb : b.Fits) (hinv : Inv b n h) :
    (edpc : HsdpProg S2mm Polled).Always (ring b) Keeps (Outcome b n) h := by
  have hreceive : (hsdpReceiveFastPacket : HsdpProg S2mm Polled).Always (ring b) Keeps (Outcome b n) h := by
    unfold hsdpReceiveFastPacket receiveLoop
    refine (poll_rule hb hinv).seq fun r t ht => ?_
    rw [if_neg fun hagain => Nat.lt_irrefl 0 hagain.1]
    exact ht
  unfold edpc
  refine hreceive.seq fun r t ht => ?_
  rcases ht with ⟨rfl, ht⟩ | ⟨l, hfit, rfl, ht⟩
  · exact .inl ⟨rfl, ht⟩
  · have hwords : l.length / 4 ≠ 0 := by
      obtain ⟨hpos, haligned, -⟩ := hfit
      omega
    rw [if_neg hwords]
    exact .inr ⟨l, hfit, rfl, ht⟩

/-- **The copy**: what is read is the packet, as far as `Untouched` is kept. The induction is on the bytes. -/
theorem copyOut_rule (hfit : Fit l) (k c : Nat) (hk : k + c ≤ l.length) (hc : Copying b n l h) :
    (copyOut (b.epkt (n % 4) + k) c).Always (kept b).world Keeps
      (fun bytes t => bytes = (l.drop k).take c ∧ Copying b n l t ∧ t.dma = h.dma ∧ t.wide = h.wide) h := by
  have hsize : l.length ≤ 1040 := hfit.2.2
  induction c generalizing k h with
  | zero => exact ⟨rfl, hc, rfl, rfl⟩
  | succ c ih =>
    rw [copyOut]
    simp only [always_ask_bind]
    intro f hf
    have hc' := hc.steps hsize hf.1
    have hmod : n % 4 < 4 := Nat.mod_lt _ (by decide)
    -- The DMA has not come to store the packet that follows in this entry.
    have hfresh : Fresh (n + 4) f := by
      obtain ⟨hsts, hcur⟩ := hf.2 (b.epkt (n % 4) + k) (n % 4) rfl hmod (by omega)
        (by unfold dmaPacketBuffSizeDefault; omega)
      have hhigh : count f ≤ n + 5 := hc'.sound.high
      rcases Nat.lt_trichotomy (count f) (n + 4) with hlt | heq | hgt
      · exact .inl hlt
      · refine .inr ⟨heq, fun j hj => hcur j hj ?_⟩
        have := hc'.sound.cur
        simp only at this
        rw [this, heq, Nat.add_mod_right]
      · have hlt : n + 4 < f.engine.received.length := hgt
        have hfull := hc'.sound.full (n + 4) _ (by omega) (List.getElem?_eq_getElem hlt)
        have hlen := (hc'.sound.fits _ (List.getElem_mem hlt)).lt
        have hne := hfull.sts
        rw [Nat.add_mod_right, status_eq hlen] at hne
        simp only at hne
        omega
    have hbyte : l[k]? = some (f.mem (b.epkt (n % 4) + k)) := by
      have hbytes : slice f.mem (b.epkt (n % 4)) l.length = l := hc'.buffer hfresh
      have hget := getElem_slice f.mem (b.epkt (n % 4)) l.length k (by rw [length_slice]; omega)
      rw [← hget, ← List.getElem?_eq_getElem, hbytes]
    refine ⟨hc'.lossless, ?_⟩
    have hrest := ih (k + 1) (by omega) hc'
    rw [← Nat.add_assoc] at hrest
    refine hrest.seq fun bytes t ht => ?_
    obtain ⟨rfl, ht⟩ := ht
    refine ⟨?_, ht⟩
    have hlt : k < l.length := by omega
    rw [List.drop_eq_getElem_cons hlt, List.take_succ_cons]
    congr 1
    rw [List.getElem?_eq_getElem hlt] at hbyte
    exact (Option.some.inj hbyte).symm

theorem Sound.deliver {lo hi : Nat} (hs : Sound b lo hi h.fabric) (reply : Option (List UInt8)) :
    Sound b lo hi (deliver reply h).fabric where
  low := hs.low
  high := hs.high
  room := hs.room
  cur := hs.cur
  running := hs.running
  tail := hs.tail
  chain := hs.chain
  armed := hs.armed
  full := hs.full
  fits := hs.fits
  job j hj := by
    obtain ⟨hlt, hst⟩ := hs.job j hj
    exact ⟨hlt, hst.next, hst.buff, hst.fit, hst.stored, hst.bytes⟩

theorem Inv.deliver_none (hinv : Inv b n h) : Inv b n (deliver none h) := by
  have hsame : (deliver none h).fabric.engine.delivered = h.fabric.engine.delivered := List.append_nil _
  have hlossless := hinv.lossless
  refine ⟨hinv.sound.deliver none, ?_, ?_, hinv.dma, hinv.wide⟩
  · rw [hsame]
    exact hinv.delivered
  · unfold Lossless
    rw [hsame]
    exact hlossless

theorem Copying.deliver (hc : Copying b n l h) (hdma : LastAt b (n + 1) h.dma) (hwide : h.wide = b.wide) :
    Inv b (n + 1) (deliver (some l) h) := by
  refine ⟨?_, ?_, ?_, hdma, hwide⟩
  · rw [show n + 1 + 4 = n + 5 by omega]
    exact hc.sound.deliver _
  · show (h.fabric.engine.delivered ++ [l]).length = n + 1
    rw [List.length_append, hc.delivered]
    rfl
  · exact prefix_snoc hc.lossless (by rw [hc.delivered]; exact hc.packet)

/-- **The message.** -/
theorem edpcMessage_rule (hb : b.Fits) (hinv : Inv b n h) :
    edpcMessage.Always (kept b).world Keeps (fun _ t => ∃ n, Inv b n t) h := by
  have hreply : (edpcReply : HsdpProg S2mm (Option (List UInt8))).Always (kept b).world Keeps
      (fun reply t => ∃ n, Inv b n (deliver reply t)) h := by
    unfold edpcReply
    have hedpc : (edpc : HsdpProg S2mm Polled).Always (kept b).world Keeps (Outcome b n) h :=
      (edpc_rule hb hinv).narrow (fun _ _ _ hr => hr.1) rfl
    refine hedpc.seq fun r t ht => ?_
    rcases ht with ⟨rfl, ht, -⟩ | ⟨l, hfit, rfl, ht, hdma, hwide⟩
    · exact ⟨n, ht.deliver_none⟩
    · have hwords : l.length / 4 * 4 = l.length := Nat.div_mul_cancel (Nat.dvd_of_mod_eq_zero hfit.2.1)
      have hcopy := copyOut_rule hfit 0 l.length (by omega) ht
      simp only [hwords]
      refine hcopy.seq fun bytes t ht => ?_
      obtain ⟨rfl, hc, hd, hw⟩ := ht
      rw [List.drop_zero, List.take_length]
      exact ⟨n + 1, hc.deliver (hd ▸ hdma) (hw.trans hwide)⟩
  unfold edpcMessage
  refine hreply.seq fun reply t ht => ?_
  obtain ⟨n, hinv⟩ := ht
  rw [always_modify]
  exact ⟨hinv.lossless, n, hinv⟩

end Accesses

/-! ## A packet in the place of another -/

section Mixed

variable {b : Bus} {lo hi : Nat} {f : Fabric S2mm} {h : Hsdp S2mm} {l : List UInt8}

/-- The DMA stores `k` bytes of the packet that it has taken. -/
theorem Sound.store_run (hs : Sound b lo hi f) (hjob : f.engine.job = none) (hlt : count f < hi) (hl : Fit l) (k : Nat)
    (hk : k ≤ l.length) :
    ∃ f' j, ReflTransGen (S2mm.Step b) f f' ∧ f'.engine.job = some j ∧ j.packet = l ∧ j.stored = k ∧
      f'.engine.received = f.engine.received := by
  induction k with
  | zero =>
    have hrun : f.engine.running = true := hs.running.trans (decide_eq_true hlt)
    exact ⟨_, _, .single (.take hrun hjob hl), rfl, rfl, rfl, rfl⟩
  | succ k ih =>
    obtain ⟨f', j, hsteps, hj, rfl, rfl, hreceived⟩ := ih (Nat.le_of_succ_le hk)
    exact ⟨_, _, hsteps.tail (.store hj (List.getElem?_eq_getElem hk)), rfl, rfl, rfl, hreceived⟩

/-- It receives packets. -/
theorem Sound.receive_run (hs : Sound b lo hi f) (hjob : f.engine.job = none) (ls : List (List UInt8))
    (hfits : ∀ l ∈ ls, Fit l) (hroom : count f + ls.length ≤ hi) :
    ∃ f', ReflTransGen (S2mm.Step b) f f' ∧ f'.engine.job = none ∧
      f'.engine.received = f.engine.received ++ ls := by
  induction ls generalizing f with
  | nil => exact ⟨f, .refl, hjob, (List.append_nil _).symm⟩
  | cons l ls ih =>
    rw [List.length_cons] at hroom
    obtain ⟨f₁, j, hsteps, hj, rfl, hstored, hreceived⟩ :=
      hs.store_run hjob (by omega) (hfits l List.mem_cons_self) l.length (Nat.le_refl _)
    have hsteps' := hsteps.tail (.complete hj hstored)
    have hcount : count (S2mm.complete b f₁ j) = count f + 1 := by rw [count_complete, count, hreceived, count]
    obtain ⟨f', hrest, hjob', hreceived'⟩ :=
      ih (hs.steps hsteps').1 rfl (fun l hl => hfits l (List.mem_cons_of_mem _ hl)) (by omega)
    refine ⟨f', hsteps'.trans hrest, hjob', ?_⟩
    rw [hreceived']
    show (f₁.engine.received ++ [j.packet]) ++ ls = _
    rw [hreceived, List.append_assoc, List.singleton_append]

/-- The DMA takes no step. -/
def still (b : Bus) : World (Hsdp S2mm) Access (Found S2mm) where
  answers _ f h := f = h.fabric
  effect := (ring b).effect

theorem always_still {α : Type} {p : HsdpProg S2mm α} {I : Hsdp S2mm → Prop} {Q : α → Hsdp S2mm → Prop}
    (hp : p.Always (ring b) I Q h) : p.Always (still b) I Q h :=
  hp.narrow (fun _ _ _ hr => hr ▸ .refl) rfl

theorem still_ends {α : Type} {p : HsdpProg S2mm α} {I : Hsdp S2mm → Prop} {Q : α → Hsdp S2mm → Prop}
    (hp : p.Always (still b) I Q h) : ∃ a t, Q a t := by
  obtain ⟨log, a, t, hrun⟩ := exists_finishes (w := still b) (fun _ s => ⟨s.fabric, rfl⟩) p h
  exact ⟨a, t, hp.at_end hrun⟩

/-- The DMA takes its steps before the poll, and none during it. -/
theorem poll_still {I : Hsdp S2mm → Prop} {Q : Polled → Hsdp S2mm → Prop}
    (hp : hsdpPollFastPacket.Always (ring b) I Q h)
    (hf : ReflTransGen (S2mm.Step b) h.fabric f) : hsdpPollFastPacket.Always (still b) I Q { h with fabric := f } := by
  unfold hsdpPollFastPacket at hp ⊢
  simp only [always_read_bind] at hp ⊢
  intro f' hf'
  obtain rfl : f' = f := hf'
  exact ⟨(hp f' hf).1, always_still (hp f' hf).2⟩

/-- A program that receives nothing while the DMA takes no step. -/
def Steady (b : Bus) {α : Type} (p : HsdpProg S2mm α) : Prop :=
  ∀ h, p.Always (still b) (fun _ => True)
    (fun _ t => t.fabric.engine.received = h.fabric.engine.received ∧ t.fabric.engine.job = h.fabric.engine.job) h

theorem Steady.bind {α β : Type} {p : HsdpProg S2mm α} {k : α → HsdpProg S2mm β} (hp : Steady b p)
    (hk : ∀ a, Steady b (k a)) : Steady b (p >>= k) :=
  fun h => (hp h).seq fun a t ht => (hk a t).mono fun _ _ ht' => ⟨ht'.1.trans ht.1, ht'.2.trans ht.2⟩

theorem steady_pure {α : Type} (a : α) : Steady b (pure a) := fun _ => ⟨rfl, rfl⟩

theorem steady_ask (c : Access) : Steady b (ask c) := by
  rintro h f rfl
  cases c <;> exact ⟨trivial, rfl, rfl⟩

theorem steady_setLast (ie : Nat) : Steady b (modify (setLast ie)) := fun _ => ⟨trivial, rfl, rfl⟩

theorem steady_readReg (addr : Nat) : Steady b (readReg addr) := (steady_ask _).bind fun _ => steady_pure _

theorem steady_readReg64 (wide : Bool) (addr : Nat) : Steady b (readReg64 wide addr) :=
  (steady_ask _).bind fun _ => steady_pure _

theorem steady_writeReg (addr value : Nat) : Steady b (writeReg addr value) :=
  (steady_ask _).bind fun _ => steady_pure _

theorem steady_writeReg64 (wide : Bool) (addr value : Nat) : Steady b (writeReg64 wide addr value) :=
  (steady_ask _).bind fun _ => steady_pure _

theorem steady_poll : Steady b hsdpPollFastPacket := by
  intro h
  unfold hsdpPollFastPacket
  rw [always_read_bind]
  refine (steady_readReg _).bind (fun status => ?_) h
  split
  · exact (steady_writeReg _ _).bind fun _ => (steady_ask _).bind fun _ => (steady_writeReg64 _ _ _).bind fun _ =>
      (steady_setLast _).bind fun _ => steady_pure _
  · split
    · exact (steady_readReg64 _ _).bind fun _ =>
        (steady_writeReg64 _ _ _).bind fun _ => (steady_writeReg _ _).bind fun _ =>
        (steady_ask _).bind fun _ => (steady_setLast _).bind fun _ => steady_pure _
    · exact steady_pure _

/-- What the copy reads when the DMA takes no step. -/
theorem copyOut_slice (addr n : Nat) :
    (copyOut addr n).Always (still b) (fun _ => True) (fun l t => l = slice h.fabric.mem addr n ∧ t = h) h := by
  induction n generalizing addr with
  | zero => exact ⟨rfl, rfl⟩
  | succ n ih =>
    unfold copyOut
    rintro f rfl
    refine ⟨trivial, (ih (addr + 1)).seq fun l t ht => ?_⟩
    obtain ⟨rfl, rfl⟩ := ht
    exact ⟨rfl, rfl⟩

/-- The DMA takes its steps before the copy, and none during it. -/
theorem copyOut_still {I : Hsdp S2mm → Prop} {Q : List UInt8 → Hsdp S2mm → Prop} {addr n : Nat}
    (hp : (copyOut addr (n + 1)).Always (ring b) I Q h) (hf : ReflTransGen (S2mm.Step b) h.fabric f) :
    (copyOut addr (n + 1)).Always (still b) I Q { h with fabric := f } := by
  intro f' hf'
  obtain rfl : f' = f := hf'
  exact ⟨(hp f' hf).1, always_still (hp f' hf).2⟩

/-- A packet of one word. -/
def word (x : UInt8) : List UInt8 := [x, 0, 0, 0]

theorem fit_word (x : UInt8) : Fit (word x) := by
  unfold Fit word dmaPacketBuffSizeDefault
  simp

/-- **The reply with another packet.** The DMA fills the ring before the poll; when the poll has given the first entry
back, it stores the next packet there; then the packet is copied. -/
theorem edpcMessage_mixes {n : Nat} (hb : b.Fits) (hinv : Inv b n h) (hempty : count h.fabric = n)
    (hjob : h.fabric.engine.job = none) : ¬ edpcMessage.Always (ring b) Keeps (fun _ _ => True) h := by
  intro halways
  obtain ⟨f, hf, hjob', hreceived⟩ := hinv.sound.receive_run hjob [word 1, word 2, word 3, word 4]
    (by simp [fit_word]) (by rw [hempty]; exact Nat.le_refl _)
  -- The poll.
  unfold edpcMessage edpcReply edpc hsdpReceiveFastPacket receiveLoop at halways
  have hpoll := poll_still halways.of_bind.of_bind.of_bind.of_bind hf
  have hrule := always_still (poll_rule hb (hinv.steps hf))
  obtain ⟨r, t, ⟨hnext, hout⟩, hsame, hjob''⟩ := still_ends ((hpoll.and hrule).and (steady_poll _))
  have hreceived' : t.fabric.engine.received = h.fabric.engine.received ++ [word 1, word 2, word 3, word 4] :=
    hsame.trans hreceived
  have hcount : count t.fabric = n + 4 := by rw [count, hreceived', List.length_append, ← hempty]; rfl
  rcases hout with ⟨-, -, hnone⟩ | ⟨l, hfit, rfl, hc, -, -⟩
  · omega
  · obtain rfl : word 1 = l := by
      have hpacket := hc.packet
      rw [hreceived', ← hempty, count, List.getElem?_append_right (Nat.le_refl _), Nat.sub_self] at hpacket
      exact Option.some.inj hpacket
    -- The next packet.
    obtain ⟨f', j, hf', hj, hpacket, hstored, hreceived''⟩ :=
      hc.sound.store_run (hjob''.trans hjob') (by omega) (fit_word 5) 4 (Nat.le_refl _)
    have hc' := hc.steps hfit.2.2 hf'
    have hbytes : slice f'.mem (b.epkt (n % 4)) 4 = word 5 := by
      have hs := (hc'.sound.job j hj).2.bytes
      simp only [count, hreceived''] at hs
      rw [← count, hcount, Nat.add_mod_right, hpacket, hstored] at hs
      exact hs
    -- The copy.
    have hcopy := copyOut_still (n := 3) hnext.of_bind hf'
    obtain ⟨bytes, t', hdeliver, rfl, rfl⟩ := still_ends (hcopy.and (copyOut_slice _ _))
    have hkeeps : Keeps (deliver (some (slice f'.mem (b.epkt (n % 4)) 4)) { t with fabric := f' }) := hdeliver.1
    rw [hbytes] at hkeeps
    have hlast : (f'.engine.delivered ++ [word 5])[n]? = some (word 5) := by
      have hlen := hc'.delivered
      simp only at hlen
      rw [← hlen, List.getElem?_concat_length]
    have heq : some (word 1) = some (word 5) := hc'.packet.symm.trans (prefix_getElem? hkeeps hlast)
    exact absurd heq (by decide)

end Mixed

/-! ## Runs -/

theorem inv_open {b : Bus} (hb : b.Fits) (m : ByteMem) : Inv b 0 (hsdpOpen b S2mm.reset m) := by
  obtain ⟨hengine, htail⟩ := hsdpOpen_registers b S2mm.reset m hb
  have hreceived : (hsdpOpen b S2mm.reset m).fabric.engine.received = [] := by rw [hengine]; rfl
  have hcount : count (hsdpOpen b S2mm.reset m).fabric = 0 := by rw [count, hreceived]; rfl
  have hdelivered : (hsdpOpen b S2mm.reset m).fabric.engine.delivered = [] := by rw [hengine]; rfl
  refine ⟨⟨Nat.zero_le _, ?_, Nat.le_refl _, ?_, ?_, ?_, ?_, ?_, ?_, ?_, ?_⟩, ?_, ?_, ?_, rfl⟩
  · rw [hcount]
    exact Nat.zero_le _
  · rw [hcount, hengine]
    rfl
  · rw [hcount, hengine]
    rfl
  · exact htail
  · exact fun i hi => (open_edesc b S2mm.reset m hb hi).1
  · rintro i ⟨k, -, -, rfl⟩
    obtain ⟨-, hbuff, hsts⟩ := open_edesc b S2mm.reset m hb (Nat.mod_lt k (by decide))
    exact ⟨hsts, hbuff⟩
  · intro k l _ hkl
    rw [hreceived] at hkl
    cases hkl
  · rw [hreceived]
    intro l hl
    cases hl
  · rw [hengine]
    intro j hj
    cases hj
  · rw [hdelivered]
    rfl
  · unfold Lossless
    rw [hdelivered]
    exact List.nil_prefix
  · exact ⟨-1, hsdpOpen_dma b S2mm.reset m⟩

/-- **The egress ring.** In every run of messages `edpc:` after `hsdp_setup_dma`, with steps of the DMA between any
two accesses, in which no packet buffer is touched while it is copied: the packets sent to the client are a beginning,
in order, of those that the DMA has received. -/
theorem lossless_untouched (b : Bus) (hb : b.Fits) (m : ByteMem) {c : Hsdp S2mm × HsdpProg S2mm Unit}
    (h : (kept b).Reaches (hsdpOpen b S2mm.reset m) c) :
    ∀ f, ReflTransGen (S2mm.Step b) c.1.fabric f → Lossless f := by
  have hkeep : ∀ s j, (∃ n, Inv b n s) → (kept b).may s j →
      ((kept b).body j).Always (kept b).world Keeps (fun _ s => ∃ n, Inv b n s) s := by
    rintro s j ⟨n, hinv⟩ -
    exact edpcMessage_rule hb hinv
  obtain ⟨hlossless, -⟩ := Session.invariant (fun s ⟨n, hinv⟩ => hinv.lossless) hkeep ⟨0, inv_open hb m⟩ h
  exact fun f hf => hlossless.steps hf

/-! ### A run -/

instance (l : List UInt8) : Decidable (Fit l) := inferInstanceAs (Decidable (_ ∧ _ ∧ _))

/-- The next step of the DMA, if there is one; the packets that arrive are `ls`. -/
def S2mm.act (b : Bus) (ls : List (List UInt8)) (f : Fabric S2mm) : Fabric S2mm :=
  match f.engine.job with
  | some j =>
    match j.packet[j.stored]? with
    | some byte => S2mm.store b f j byte
    | none => if j.stored = j.packet.length then S2mm.complete b f j else f
  | none =>
    match ls[f.engine.received.length]? with
    | some l => if f.engine.running = true ∧ Fit l then S2mm.take b f l else f
    | none => f

theorem S2mm.act_step (b : Bus) (ls : List (List UInt8)) (f : Fabric S2mm) :
    ReflGen (S2mm.Step b) f (S2mm.act b ls f) := by
  unfold S2mm.act
  split
  · next j hjob =>
    split
    · next byte hbyte => exact .single (.store hjob hbyte)
    · split
      · next hstored => exact .single (.complete hjob hstored)
      · exact .refl
  · next hjob =>
    split
    · next l hl =>
      split
      · next hok => exact .single (.take hok.1 hjob hok.2)
      · exact .refl
    · exact .refl

/-- A test for `Untouched`. -/
def untouched (b : Bus) (c : Access) (f : Fabric S2mm) : Bool :=
  match c with
  | .read addr => (List.range 4).all fun i =>
    !decide (b.epkt i ≤ addr ∧ addr < b.epkt i + dmaPacketBuffSizeDefault) ||
      stsOf f.mem (b.edesc i) == 0 &&
        (!decide (f.engine.cur = b.axi (b.edesc i)) || f.engine.job.all fun j => j.stored == 0)
  | _ => true

theorem untouched_spec {b : Bus} {c : Access} {f : Fabric S2mm} (h : untouched b c f = true) (s : Hsdp S2mm) :
    Untouched b c f s := by
  rintro addr i rfl hi h1 h2
  have hall := List.all_eq_true.mp h i (List.mem_range.mpr hi)
  rw [decide_eq_true (And.intro h1 h2)] at hall
  simp only [Bool.not_true, Bool.false_or, Bool.and_eq_true, beq_iff_eq, Bool.or_eq_true] at hall
  refine ⟨hall.1, fun j hj hcur => ?_⟩
  rcases hall.2 with hne | hstored
  · rw [decide_eq_true hcur] at hne
    cases hne
  · rw [hj] at hstored
    simpa using hstored

/-- Two packets arrive; the DMA takes a step before each access. -/
def arriving : Tape (Hsdp S2mm) Access (Found S2mm) := fun _ _ h => S2mm.act boardBus [word 1, word 2] h.fabric

def arrivingTest (c : Access) (f : Fabric S2mm) (_h : Hsdp S2mm) : Bool := untouched boardBus c f

def opened : Played (Hsdp S2mm) := ⟨hsdpOpen boardBus S2mm.reset fun _ => 0, 0, True⟩

/-- A message to its end. -/
def served (x : Played (Hsdp S2mm)) : Played (Hsdp S2mm) := (edpcMessage.play (kept boardBus).world arriving x).2

theorem served_reaches (n : Nat)
    (hpass : ∀ k, k < n → edpcMessage.passes (kept boardBus).world arriving arrivingTest (served^[k] opened) = true) :
    (kept boardBus).Reaches opened.state ((served^[n] opened).state, .done ()) ∧ (served^[n] opened).lawful := by
  induction n with
  | zero => exact ⟨.refl, trivial⟩
  | succ n ih =>
    obtain ⟨hreaches, hlawful⟩ := ih fun k hk => hpass k (by omega)
    have htest : ∀ k c h, arrivingTest c (arriving k c h) h = true →
        (kept boardBus).world.answers c (arriving k c h) h :=
      fun k c h hc => ⟨(S2mm.act_step boardBus _ h.fabric).to_reflTransGen, untouched_spec hc h⟩
    have hnext := lawful_of_passes htest hlawful (hpass n (Nat.lt_succ_self n))
    rw [Function.iterate_succ_apply']
    exact ⟨hreaches.plays (j := ()) ⟨trivial, trivial⟩ hnext, hnext⟩

/-- The sixth poll finds a packet; while it is copied, the DMA stores the next one. -/
theorem lossless_untouched_delivered :
    (served^[6] opened).state.fabric.engine.received = [word 1, word 2] ∧
      (served^[6] opened).state.fabric.engine.delivered = [word 1] ∧ Lossless (served^[6] opened).state.fabric :=
  ⟨by decide +kernel, by decide +kernel,
    lossless_untouched boardBus boardBus_fits (fun _ => 0) (served_reaches 6 (by decide +kernel)).1 _ .refl⟩

/-- A message that is served when four packets wait in the ring, and a fifth comes before the first is copied. -/
theorem egress_mixes_packets :
    ¬ ∀ c, (messages boardBus).Reaches (hsdpOpen boardBus S2mm.reset fun _ => 0) c →
      ∀ f, ReflTransGen (S2mm.Step boardBus) c.1.fabric f → Lossless f := by
  intro hall
  have hengine := (hsdpOpen_registers boardBus S2mm.reset (fun _ => 0) boardBus_fits).1
  have hempty : count (hsdpOpen boardBus S2mm.reset fun _ => 0).fabric = 0 := by rw [count, hengine]; rfl
  have hjob : (hsdpOpen boardBus S2mm.reset fun _ => 0).fabric.engine.job = none := by rw [hengine]; rfl
  refine edpcMessage_mixes boardBus_fits (inv_open boardBus_fits fun _ => 0) hempty hjob ?_
  exact Session.always_of_runs (S := messages boardBus) fun d hd =>
    hall d (.head (.start () trivial) hd) d.1.fabric .refl

end Receive
end Dpc
end Xvc
