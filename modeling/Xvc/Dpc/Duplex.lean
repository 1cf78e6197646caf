import Xvc.Dpc.Receive
import Xvc.Dpc.Transmit
import Xvc.Lib.Follows

/-!
# The two rings at once

The DMA has both of its channels, in one memory: while `hsdp_send_packet` and `hsdp_poll_fast_packet` of
`dpc/src/hsdp.c` work on the one ring or the other, either channel may take steps before any access.

* `Channels`, `Step`: the DMA. `Transmit` and `Receive` have one channel each, and each sees its own part of a state:
  `TxShows`, `RxShows`.
* `duplex_steps`: a run of both channels is a run of each.
* `send_duplex`, `edpc_duplex`: what a call does, with the other channel at work.
* `both_directions`: in every run of calls, neither direction disturbs the other.
-/

namespace Xvc
namespace Dpc
namespace Duplex

open ByteMem Program Relation
open Transmit (Mm2s Packet)
open Receive (S2mm)

/-! ## The DMA -/

/-- The two channels. -/
structure Channels where
  tx : Mm2s
  rx : S2mm

/-- After `hsdp_setup_dma`. -/
def Channels.reset (ingressCur egressCur : Nat) : Channels :=
  ⟨Mm2s.reset ingressCur egressCur, S2mm.reset ingressCur egressCur⟩

/-- What one channel works on. -/
def txOf (f : Fabric Channels) : Fabric Mm2s := ⟨f.mem, f.ingressTail, f.egressTail, f.engine.tx⟩
def rxOf (f : Fabric Channels) : Fabric S2mm := ⟨f.mem, f.ingressTail, f.egressTail, f.engine.rx⟩

/-- A step of the DMA is one of either channel. -/
inductive Step (b : Bus) : Fabric Channels → Fabric Channels → Prop
  | tx {f : Fabric Channels} {g : Fabric Mm2s} (h : Mm2s.Step b (txOf f) g) :
      Step b f { f with mem := g.mem, engine := { f.engine with tx := g.engine } }
  | rx {f : Fabric Channels} {u : Fabric S2mm} (h : S2mm.Step b (rxOf f) u) :
      Step b f { f with mem := u.mem, engine := { f.engine with rx := u.engine } }

/-- A TAIL makes its channel run. -/
def post (h : Hsdp Channels) : Hsdp Channels :=
  let tx := h.fabric.engine.tx
  { h with
    fabric :=
      { h.fabric with engine := { h.fabric.engine with
        tx := { tx with running := true, posted := tx.posted ++ [tx.pending] } } } }

def start (h : Hsdp Channels) : Hsdp Channels :=
  let rx := h.fabric.engine.rx
  { h with fabric := { h.fabric with engine := { h.fabric.engine with rx := { rx with running := true } } } }

/-- A byte of a packet buffer is only read while `Receive.Untouched` is kept. -/
def Untouched (b : Bus) (c : Access) (f : Fabric Channels) : Prop :=
  ∀ addr i, c = .read addr → i < 4 → b.epkt i ≤ addr → addr < b.epkt i + dmaPacketBuffSizeDefault →
    stsOf f.mem (b.edesc i) = 0 ∧
      ∀ j, f.engine.rx.job = some j → f.engine.rx.cur = b.axi (b.edesc i) → j.stored = 0

/-- Both channels take any number of their steps before each access. -/
def both (b : Bus) : World (Hsdp Channels) Access (Found Channels) where
  answers c f h := ReflTransGen (Step b) h.fabric f ∧ Untouched b c f
  effect c f h :=
    match c with
    | .ingressTail _ => post (h.access c f)
    | .egressTail _ => start (h.access c f)
    | _ => h.access c f

/-! ## Calls -/

def pend (p : Packet) (h : Hsdp Channels) : Hsdp Channels :=
  { h with
    fabric := { h.fabric with
      engine := { h.fabric.engine with tx := { h.fabric.engine.tx with pending := p.bytes } } } }

/-- A call of `hsdp_send_packet`. -/
def send (p : Packet) : HsdpProg Channels Int := do
  modify (pend p)
  hsdpSendPacket p.mem p.buf p.wordCount

def deliver (reply : Option (List UInt8)) (h : Hsdp Channels) : Hsdp Channels :=
  let rx := h.fabric.engine.rx
  { h with
    fabric :=
      { h.fabric with engine := { h.fabric.engine with rx := { rx with delivered := rx.delivered ++ reply.toList } } } }

/-- The message `edpc:`. -/
def edpcMessage : HsdpProg Channels Unit := do
  let reply ← Receive.edpcReply
  modify (deliver reply)

/-- Calls one after the other: a packet is sent, or `edpc:` is served. -/
def calls (b : Bus) : Session (Hsdp Channels) Access (Found Channels) where
  world := both b
  Job := Option Packet
  may h j := ∀ p, j = some p → 4 ≤ p.bytes.length ∧ p.bytes.length ≤ h.dma.ipkts.packetSize
  body
    | some p => do
      let _ ← send p
      pure ()
    | none => edpcMessage

/-! ## What each channel sees -/

/-- The bytes of the ingress ring, and those of the egress ring. -/
def Ingress (b : Bus) (x : Nat) : Prop := ∃ i, i < 4 ∧ Transmit.Entry b i x
def Egress (b : Bus) (x : Nat) : Prop := ∃ i, i < 4 ∧ Receive.Entry b i x

theorem ingress_not_egress {b : Bus} {x : Nat} (h : Ingress b x) (h' : Egress b x) : False := by
  obtain ⟨i, hi, h⟩ := h
  obtain ⟨j, hj, h'⟩ := h'
  unfold Transmit.Entry Bus.idesc Bus.ipkt at h
  unfold Receive.Entry Bus.edesc Bus.epkt at h'
  omega

/-- The memories are the same at the bytes of `P`. -/
def Agree (P : Nat → Prop) (m m' : ByteMem) : Prop := ∀ x, P x → m' x = m x

section Agree

variable {P : Nat → Prop} {m m' : ByteMem} {l : List UInt8} {a n : Nat}

theorem Agree.slice (h : Agree P m m') (ha : ∀ x, a ≤ x → x < a + n → P x) : slice m' a n = slice m a n :=
  slice_congr fun i hi => h _ (ha _ (by omega) (by omega))

/-- Both are written. -/
theorem Agree.write (h : Agree P m m') (a : Nat) (l : List UInt8) : Agree P (write m a l) (write m' a l) := by
  intro x hx
  unfold ByteMem.write
  split
  · rfl
  · exact h x hx

/-- One is written, elsewhere. -/
theorem Agree.write_left (h : Agree P m m') (ha : ∀ x, a ≤ x → x < a + l.length → ¬ P x) :
    Agree P (ByteMem.write m a l) m' := by
  intro x hx
  rw [write_of_disjoint _ _ (by by_contra hin; exact ha x (by omega) (by omega) hx)]
  exact h x hx

end Agree

/-- The channel from the memory has its part of `f` in `g`. -/
structure TxAgree (b : Bus) (f : Fabric Channels) (g : Fabric Mm2s) : Prop where
  engine : g.engine = f.engine.tx
  tail : g.ingressTail = f.ingressTail
  mem : Agree (Ingress b) f.mem g.mem

/-- The channel to the memory has its part of `f` in `u`. -/
structure RxAgree (b : Bus) (f : Fabric Channels) (u : Fabric S2mm) : Prop where
  engine : u.engine = f.engine.rx
  tail : u.egressTail = f.egressTail
  mem : Agree (Egress b) f.mem u.mem

/-- STS of an egress descriptor: it waits for a packet, or it has one. -/
def Status (n : Nat) : Prop := n = 0 ∨ ∃ size, size ≤ 1040 ∧ n = 0x80000000 ||| size

/-- The addresses in the egress descriptors are those of the ring; so are those that the channel has read. -/
structure Placed (b : Bus) (u : Fabric S2mm) : Prop where
  next : ∀ i, i < 4 → nextOf b.wide u.mem (b.edesc i) = b.axi (b.edesc ((i + 1) % 4))
  buff : ∀ i, i < 4 → buffOf b.wide u.mem (b.edesc i) = b.axi (b.epkt i)
  sts : ∀ i, i < 4 → Status (stsOf u.mem (b.edesc i))
  cur : ∃ i, i < 4 ∧ u.engine.cur = b.axi (b.edesc i)
  job : ∀ j, u.engine.job = some j → ∃ i, i < 4 ∧ j.buff = b.axi (b.epkt i) ∧ j.next = b.axi (b.edesc ((i + 1) % 4)) ∧
    j.packet.length ≤ 1040

theorem reach_edesc (b : Bus) (i : Nat) : b.reach (b.axi (b.edesc i)) = b.edesc i :=
  b.reach_axi (by unfold Bus.edesc; omega)

/-- A byte of a packet buffer, from the DMA's address of it. -/
theorem reach_epkt (b : Bus) (i k : Nat) : b.reach (b.axi (b.epkt i) + k) = b.epkt i + k := by
  unfold Bus.reach Bus.axi Bus.epkt
  omega

theorem reach_ipkt (b : Bus) (i k : Nat) : b.reach (b.axi (b.ipkt i) + k) = b.ipkt i + k := by
  unfold Bus.reach Bus.axi Bus.ipkt
  omega

/-! ## What the DMA does -/

section Steps

variable {b : Bus} {f f' : Fabric Channels} {g : Fabric Mm2s} {u u' : Fabric S2mm}

theorem Ingress.desc {i x : Nat} (hi : i < 4) (h1 : b.idesc i ≤ x) (h2 : x < b.idesc i + 64) : Ingress b x :=
  ⟨i, hi, .inl ⟨h1, h2⟩⟩

theorem Ingress.packet {i x : Nat} (hi : i < 4) (h1 : b.ipkt i ≤ x) (h2 : x < b.ipkt i + 1040) : Ingress b x :=
  ⟨i, hi, .inr ⟨h1, h2⟩⟩

theorem Egress.desc {i x : Nat} (hi : i < 4) (h1 : b.edesc i ≤ x) (h2 : x < b.edesc i + 64) : Egress b x :=
  ⟨i, hi, .inl ⟨h1, h2⟩⟩

theorem Egress.packet {i x : Nat} (hi : i < 4) (h1 : b.epkt i ≤ x) (h2 : x < b.epkt i + 1040) : Egress b x :=
  ⟨i, hi, .inr ⟨h1, h2⟩⟩

/-- A step of the channel from the memory: it only writes to its own ring. -/
theorem tx_step {g₀ : Fabric Mm2s} (hstep : Mm2s.Step b (txOf f) g₀) (hs : Transmit.Sound b g) (hg : TxAgree b f g) :
    (∃ g', Mm2s.Step b g g' ∧ TxAgree b { f with mem := g₀.mem, engine := { f.engine with tx := g₀.engine } } g') ∧
      ∀ u, RxAgree b f u → RxAgree b { f with mem := g₀.mem, engine := { f.engine with tx := g₀.engine } } u := by
  obtain ⟨m, itail, etail, e⟩ := g
  obtain ⟨rfl, rfl, hmem⟩ := hg
  have hmod : Transmit.sentCount ⟨m, f.ingressTail, etail, f.engine.tx⟩ % 4 < 4 := Nat.mod_lt _ (by decide)
  have hreach := hs.reach_cur
  cases hstep with
  | fetch hrun hjob =>
    refine ⟨⟨_, .fetch hrun hjob, ?_, rfl, hmem⟩, fun u hu => ⟨hu.engine, hu.tail, hu.mem⟩⟩
    -- It reads the same descriptor.
    unfold Mm2s.fetch
    simp only [txOf, hreach]
    rw [nextOf_congr fun x h1 h2 => hmem x (.desc hmod h1 (by omega)),
      buffOf_congr fun x h1 h2 => hmem x (.desc hmod (by omega) (by omega)),
      Transmit.lengthOf, Transmit.lengthOf, cntlOf_congr fun x h1 h2 => hmem x (.desc hmod (by omega) (by omega))]
  | @emit j hjob hleft =>
    obtain ⟨l, hl, -, hbuff, -, hlen⟩ := hs.job j hjob
    have hsize := hs.sizes l (List.mem_of_getElem? hl)
    refine ⟨⟨_, .emit hjob hleft, ?_, rfl, hmem⟩, fun u hu => ⟨hu.engine, hu.tail, hu.mem⟩⟩
    have hlt : j.sent.length < 1040 := by omega
    have hbyte := hmem _ (.packet hmod (Nat.le_add_right _ j.sent.length) (Nat.add_lt_add_left hlt _))
    simp only at hbyte
    unfold Mm2s.emit
    simp only [txOf, hbuff, reach_ipkt, hbyte]
  | @complete j hjob hleft =>
    refine ⟨⟨_, .complete hjob hleft, rfl, rfl, ?_⟩, fun u hu => ⟨hu.engine, hu.tail, ?_⟩⟩
    · exact hmem.write _ _
    · refine hu.mem.write_left fun x h1 h2 => ?_
      rw [length_leBytes] at h2
      have hcur : b.reach (txOf f).engine.cur = _ := hreach
      rw [hcur] at h1 h2
      exact ingress_not_egress (.desc hmod (by unfold regDescSts at h1; omega) (by unfold regDescSts at h2; omega))

/-- The DMA changes STS of a descriptor. -/
theorem Placed.status {m : ByteMem} {itail etail : Nat} {e e' : S2mm} (hp : Placed b ⟨m, itail, etail, e⟩) {i n : Nat}
    (hn : Status (n % 256 ^ 4)) (hcur : ∃ i, i < 4 ∧ e'.cur = b.axi (b.edesc i))
    (hjob : ∀ j, e'.job = some j → e.job = some j) :
    Placed b ⟨write m (b.edesc i + regDescSts) (leBytes 4 n), itail, etail, e'⟩ := by
  have hother : ∀ {i' x : Nat}, i' < 4 → b.edesc i' ≤ x → x < b.edesc i' + 28 →
      write m (b.edesc i + regDescSts) (leBytes 4 n) x = m x := by
    intro i' x hi' h1 h2
    refine write_of_disjoint _ _ ?_
    rw [length_leBytes]
    unfold Bus.edesc at h1 h2 ⊢
    unfold regDescSts
    omega
  refine ⟨fun i' hi' => ?_, fun i' hi' => ?_, fun i' hi' => ?_, hcur, fun j hj => hp.job j (hjob j hj)⟩
  · exact (nextOf_congr fun x h1 h2 => hother hi' h1 (by omega)).trans (hp.next i' hi')
  · exact (buffOf_congr fun x h1 h2 => hother hi' (by omega) (by omega)).trans (hp.buff i' hi')
  · by_cases hsame : i' = i
    · have hwritten : stsOf (write m (b.edesc i + regDescSts) (leBytes 4 n)) (b.edesc i) = n % 256 ^ 4 :=
        ofLe_write _ _ 4 n
      rw [hsame, hwritten]
      exact hn
    · have hkeep : stsOf (write m (b.edesc i + regDescSts) (leBytes 4 n)) (b.edesc i') = stsOf m (b.edesc i') :=
        stsOf_congr fun x h1 h2 => write_of_disjoint _ _ (by
          rw [length_leBytes]
          unfold Bus.edesc at h1 h2 ⊢
          unfold regDescSts
          omega)
      rw [hkeep]
      exact hp.sts i' hi'

theorem status_received {size : Nat} (h : size ≤ 1040) : Status ((0x80000000 ||| size) % 256 ^ 4) := by
  have hsize : size < 2 ^ 26 := by omega
  refine .inr ⟨size, h, Nat.mod_eq_of_lt ?_⟩
  rw [Receive.status_eq hsize]
  omega

/-- A step of the channel to the memory. -/
theorem rx_step {u₀ : Fabric S2mm} (hstep : S2mm.Step b (rxOf f) u₀) (hp : Placed b u) (hu : RxAgree b f u) :
    (∃ u', S2mm.Step b u u' ∧ Placed b u' ∧
      RxAgree b { f with mem := u₀.mem, engine := { f.engine with rx := u₀.engine } } u') ∧
      ∀ g, TxAgree b f g → TxAgree b { f with mem := u₀.mem, engine := { f.engine with rx := u₀.engine } } g := by
  obtain ⟨m, itail, etail, e⟩ := u
  obtain ⟨rfl, rfl, hmem⟩ := hu
  obtain ⟨i, hi, hcur⟩ := hp.cur
  simp only at hcur
  cases hstep with
  | @take hrun hjob l hl =>
    have hnext : nextOf b.wide m (b.edesc i) = _ := hp.next i hi
    have hbuff : buffOf b.wide m (b.edesc i) = _ := hp.buff i hi
    refine ⟨⟨_, .take (f := ⟨m, itail, f.egressTail, f.engine.rx⟩) hrun hjob hl,
      ⟨hp.next, hp.buff, hp.sts, hp.cur, fun j hj => ?_⟩, ?_, rfl, hmem⟩, fun g hg => ⟨hg.engine, hg.tail, hg.mem⟩⟩
    · obtain rfl := (Option.some.inj hj).symm
      refine ⟨i, hi, ?_, ?_, hl.2.2⟩
      · simp only [hcur, reach_edesc, hbuff]
      · simp only [hcur, reach_edesc, hnext]
    · -- It reads the same descriptor.
      unfold S2mm.take
      simp only [rxOf, hcur, reach_edesc]
      rw [nextOf_congr fun x h1 h2 => hmem x (.desc hi h1 (by omega)),
        buffOf_congr fun x h1 h2 => hmem x (.desc hi (by omega) (by omega))]
  | @store j hjob byte hbyte =>
    obtain ⟨k, hk, hbuff, hnext, hsize⟩ := hp.job j hjob
    have hlt : j.stored < j.packet.length := (List.getElem?_eq_some_iff.mp hbyte).1
    have hat : b.reach (j.buff + j.stored) = b.epkt k + j.stored := by rw [hbuff, reach_epkt]
    -- The descriptors stay as they are.
    have hdesc : ∀ {i x : Nat}, i < 4 → b.edesc i ≤ x → x < b.edesc i + 64 →
        write m (b.reach (j.buff + j.stored)) [byte] x = m x := by
      intro i x hi h1 h2
      rw [hat]
      refine write_of_disjoint _ _ (.inl ?_)
      unfold Bus.edesc at h1 h2
      unfold Bus.epkt
      omega
    refine ⟨⟨_, .store (f := ⟨m, itail, f.egressTail, f.engine.rx⟩) hjob hbyte,
      ⟨fun i hi => ?_, fun i hi => ?_, fun i hi => ?_, hp.cur, fun j' hj' => ?_⟩, rfl, rfl, hmem.write _ _⟩,
      fun g hg => ⟨hg.engine, hg.tail, hg.mem.write_left fun x h1 h2 hx => ?_⟩⟩
    · exact (nextOf_congr fun x h1 h2 => hdesc hi h1 (by omega)).trans (hp.next i hi)
    · exact (buffOf_congr fun x h1 h2 => hdesc hi (by omega) (by omega)).trans (hp.buff i hi)
    · have hkeep : stsOf (write m (b.reach (j.buff + j.stored)) [byte]) (b.edesc i) = stsOf m (b.edesc i) :=
        stsOf_congr fun x h1 h2 => hdesc hi (by omega) (by omega)
      exact hkeep.symm ▸ hp.sts i hi
    · obtain rfl := (Option.some.inj hj').symm
      exact ⟨k, hk, hbuff, hnext, hsize⟩
    · rw [hat] at h1 h2
      rw [List.length_singleton] at h2
      exact ingress_not_egress hx (.packet hk (by omega) (by omega))
  | @complete j hjob hstored =>
    obtain ⟨k, hk, hbuff, hnext, hsize⟩ := hp.job j hjob
    have hat : b.reach f.engine.rx.cur = b.edesc i := by rw [hcur, reach_edesc]
    refine ⟨⟨_, .complete (f := ⟨m, itail, f.egressTail, f.engine.rx⟩) hjob hstored, ?_, rfl, rfl,
      hmem.write _ _⟩, fun g hg => ⟨hg.engine, hg.tail, hg.mem.write_left fun x h1 h2 hx => ?_⟩⟩
    · unfold S2mm.complete
      simp only [hat]
      exact hp.status (status_received hsize) ⟨(k + 1) % 4, Nat.mod_lt _ (by decide), hnext⟩ fun j' hj' => by cases hj'
    · have hat' : b.reach (rxOf f).engine.cur = b.edesc i := hat
      rw [hat', length_leBytes] at h2
      rw [hat'] at h1
      unfold regDescSts at h1 h2
      exact ingress_not_egress hx (.desc hi (by omega) (by omega))

/-- **A run of both channels** is a run of each. -/
theorem duplex_steps (hrun : ReflTransGen (Step b) f f') (hs : Transmit.Sound b g) (hg : TxAgree b f g)
    (hp : Placed b u)
    (hu : RxAgree b f u) :
    ∃ g' u', ReflTransGen (Mm2s.Step b) g g' ∧ TxAgree b f' g' ∧ ReflTransGen (S2mm.Step b) u u' ∧ Placed b u' ∧
      RxAgree b f' u' := by
  induction hrun with
  | refl => exact ⟨g, u, .refl, hg, .refl, hp, hu⟩
  | tail _ hstep ih =>
    obtain ⟨g', u', hgrun, hg', hurun, hp', hu'⟩ := ih
    have hs' := (hs.steps hgrun).1
    cases hstep with
    | tx h =>
      obtain ⟨⟨g'', hone, hg''⟩, hkeep⟩ := tx_step h hs' hg'
      exact ⟨g'', u', hgrun.tail hone, hg'', hurun, hp', hkeep u' hu'⟩
    | rx h =>
      obtain ⟨⟨u'', hone, hp'', hu''⟩, hkeep⟩ := rx_step h hp' hu'
      exact ⟨g', u'', hgrun, hkeep g' hg', hurun.tail hone, hp'', hu''⟩

end Steps

/-! ## A send -/

/-- `t` is what a send works on. -/
structure TxShows (b : Bus) (s : Hsdp Channels) (t : Hsdp Mm2s) : Prop where
  agree : TxAgree b s.fabric t.fabric
  idesc : s.dma.idesc = t.dma.idesc
  ipkts : s.dma.ipkts = t.dma.ipkts
  wide : s.wide = t.wide

/-- `u` is what a poll works on. -/
structure RxShows (b : Bus) (s : Hsdp Channels) (u : Hsdp S2mm) : Prop where
  agree : RxAgree b s.fabric u.fabric
  edesc : s.dma.edesc = u.dma.edesc
  epkts : s.dma.epkts = u.dma.epkts
  wide : s.wide = u.wide

/-- No send is in progress, or no poll is. -/
def TxRests (b : Bus) (s : Hsdp Channels) : Prop := ∃ t, TxShows b s t ∧ Transmit.Inv b t
def RxRests (b : Bus) (s : Hsdp Channels) : Prop := ∃ n u, RxShows b s u ∧ Receive.Inv b n u

/-- The entries of the egress ring are those that wait, and those with packets. -/
theorem placed_of_sound {b : Bus} {n : Nat} {u : Fabric S2mm} (hs : Receive.Sound b n (n + 4) u) : Placed b u := by
  have hentry : ∀ i, i < 4 → buffOf b.wide u.mem (b.edesc i) = b.axi (b.epkt i) ∧ Status (stsOf u.mem (b.edesc i)) := by
    intro i hi
    have hlow := hs.low
    obtain ⟨k, hlo, hhi, rfl⟩ : ∃ k, n ≤ k ∧ k < n + 4 ∧ k % 4 = i :=
      ⟨n + (i + 4 - n % 4) % 4, by omega, by omega, by omega⟩
    rcases Nat.lt_or_ge k (Receive.count u) with hlt | hge
    · have hget := List.getElem?_eq_getElem hlt
      have hfull := hs.full k _ hlo hget
      exact ⟨hfull.buff, .inr ⟨_, (hs.fits _ (List.mem_of_getElem? hget)).2.2, hfull.sts⟩⟩
    · obtain ⟨hsts, hbuff⟩ := hs.armed (k % 4) (Ring.holds_of_mem hge hhi)
      exact ⟨hbuff, .inl hsts⟩
  refine ⟨hs.chain, fun i hi => (hentry i hi).1, fun i hi => (hentry i hi).2, ⟨_, Nat.mod_lt _ (by decide), hs.cur⟩,
    fun j hj => ?_⟩
  obtain ⟨-, hst⟩ := hs.job j hj
  refine ⟨_, Nat.mod_lt (Receive.count u) (by decide), hst.buff, ?_, hst.fit.2.2⟩
  rw [hst.next, Nat.mod_add_mod]

/-- A send is in progress in `t`, and the packets `l` have been delivered. -/
structure Sending (b : Bus) (l : List (List UInt8)) (s : Hsdp Channels) (t : Hsdp Mm2s) : Prop where
  shows : TxShows b s t
  delivered : s.fabric.engine.rx.delivered = l
  dma : ∃ n, t.dma = b.dma (-1) (-1) (Transmit.lastIndex n) 3
  wide : t.wide = b.wide
  rests : RxRests b s

/-- Its accesses: it writes to the ingress ring only. -/
def TxAccess (b : Bus) : Access → Prop
  | .read _ => True
  | .write a l => ∀ x, a ≤ x → x < a + l.length → Ingress b x
  | .ingressTail _ => True
  | .egressTail _ => False

/-- What it finds. -/
def TxFound (b : Bus) (_c : Access) (f : Fabric Channels) (g : Fabric Mm2s) : Prop := Agree (Ingress b) f.mem g.mem

section Sends

variable {b : Bus} {l : List (List UInt8)} {s : Hsdp Channels} {t : Hsdp Mm2s} {α : Type}

/-- A program does what it does when the other channel is not there. -/
abbrev Sends (b : Bus) (l : List (List UInt8)) (P : α → Prop) (p : HsdpProg Channels α) (q : HsdpProg Mm2s α) : Prop :=
  p.Follows (Sending b l) (TxAccess b) (TxFound b) P q

theorem sends_access : CanFollow (both b) (Transmit.ring b) (Sending b l) (TxAccess b) (TxFound b)
    (Transmit.Safe b) := by
  intro c f s t hc hR hI hf
  obtain ⟨n, u, hu, hinv⟩ := hR.rests
  obtain ⟨g', u', hgrun, hg', hurun, -, hu'⟩ :=
    duplex_steps hf.1 hI.sound hR.shows.agree (placed_of_sound hinv.sound) hu.agree
  refine ⟨g', hgrun, hg'.mem, ?_⟩
  have hinv' := hinv.steps hurun
  have hdelivered : f.engine.rx.delivered = l := by
    rw [← hu'.engine, (hinv.sound.steps hurun).2.delivered, hu.agree.engine, hR.delivered]
  have hidesc := hR.shows.idesc
  have hipkts := hR.shows.ipkts
  have hwide := hR.shows.wide
  cases c with
  | read addr =>
    exact ⟨⟨hg', hidesc, hipkts, hwide⟩, hdelivered, hR.dma, hR.wide, n, { u with fabric := u' },
      ⟨hu', hu.edesc, hu.epkts, hu.wide⟩, hinv'⟩
  | write a l =>
    refine ⟨⟨⟨hg'.engine, hg'.tail, hg'.mem.write a l⟩, hidesc, hipkts, hwide⟩, hdelivered, hR.dma, hR.wide, n,
      { u with fabric := u' },
      ⟨⟨hu'.engine, hu'.tail, hu'.mem.write_left fun x h1 h2 => ?_⟩, hu.edesc, hu.epkts, hu.wide⟩, hinv'⟩
    exact fun hx => ingress_not_egress (hc x h1 h2) hx
  | ingressTail v =>
    refine ⟨⟨⟨?_, rfl, hg'.mem⟩, hidesc, hipkts, hwide⟩, hdelivered, hR.dma, hR.wide, n, { u with fabric := u' },
      ⟨⟨hu'.engine, hu'.tail, hu'.mem⟩, hu.edesc, hu.epkts, hu.wide⟩, hinv'⟩
    show { g'.engine with running := true, posted := g'.engine.posted ++ [g'.engine.pending] } = _
    rw [hg'.engine]
    rfl
  | egressTail v => exact hc.elim

theorem sends_readReg {addr : Nat} (haddr : ∀ x, addr ≤ x → x < addr + 4 → Ingress b x) :
    Sends b l (fun _ => True) (readReg addr) (readReg addr) :=
  follows_ask trivial fun _ _ hf => ⟨congrArg ofLe (Agree.slice hf haddr).symm, trivial⟩

theorem sends_write {a : Nat} {bytes : List UInt8} (ha : ∀ x, a ≤ x → x < a + bytes.length → Ingress b x) :
    Sends b l (fun _ => True) (ask (.write a bytes) >>= fun _ => pure ()) (ask (.write a bytes) >>= fun _ => pure ()) :=
  follows_ask ha fun _ _ _ => ⟨rfl, trivial⟩

theorem sends_awaitDesc {addr : Nat} (haddr : ∀ x, addr ≤ x → x < addr + 4 → Ingress b x) (polls : Nat) :
    Sends b l (fun _ => True) (awaitDesc addr polls) (awaitDesc addr polls) := by
  induction polls with
  | zero => exact follows_pure trivial
  | succ polls ih =>
    unfold awaitDesc
    refine (sends_readReg haddr).bind fun status _ => ?_
    split
    · exact follows_pure trivial
    · split
      · exact follows_pure trivial
      · exact ih

theorem sends_copyIn {a : Nat} {bytes : List UInt8} (ha : ∀ x, a ≤ x → x < a + bytes.length → Ingress b x) :
    Sends b l (fun _ => True) (copyIn a bytes) (copyIn a bytes) := by
  induction bytes generalizing a with
  | nil => exact follows_pure trivial
  | cons byte bytes ih =>
    unfold copyIn
    rw [List.length_cons] at ha
    exact .call (fun x h1 h2 => ha x h1 (by rw [List.length_singleton] at h2; omega)) fun _ _ _ =>
      ih fun x h1 h2 => ha x (by omega) (by omega)

theorem sends_ingressTail {v v' : Nat} (hv : v = v') {k : HsdpProg Channels Unit} {k' : HsdpProg Mm2s Unit}
    (hk : Sends b l (fun _ => True) k k') :
    Sends b l (fun _ => True) (ask (.ingressTail v) >>= fun _ => k) (ask (.ingressTail v') >>= fun _ => k') := by
  subst hv
  exact .call trivial fun _ _ _ => hk

/-- The driver fills an entry. -/
theorem sends_fillDesc (hR : Sending b l s t) {i : Nat} (hi : i < 4) {buf : List UInt8} (hsize : buf.length ≤ 1040) :
    Sends b l (fun _ => True) (fillDesc s i buf) (fillDesc t i buf) := by
  have hw := regBytes_le b.wide
  obtain ⟨n, hdma⟩ := hR.dma
  have hidesc : s.dma.idesc = (b.dma (-1) (-1) (Transmit.lastIndex n) 3).idesc := by rw [hR.shows.idesc, hdma]
  have hipkts : s.dma.ipkts = (b.dma (-1) (-1) (Transmit.lastIndex n) 3).ipkts := by rw [hR.shows.ipkts, hdma]
  have hdesc : ∀ {k c : Nat}, k + c ≤ 64 → ∀ x, b.idesc i + k ≤ x → x < b.idesc i + k + c → Ingress b x :=
    fun hk x h1 h2 => .desc hi (by omega) (by omega)
  have htail : s.dma.idesc.axiAddr i % 256 ^ regBytes s.wide = t.dma.idesc.axiAddr i % 256 ^ regBytes t.wide := by
    rw [hR.shows.idesc, hR.shows.wide]
  unfold fillDesc
  simp only [hR.shows.wide, hR.wide, hidesc, hipkts, hdma, b.entry_idesc, b.entry_ipkts, b.axiAddr_ipkts]
  refine (sends_copyIn fun x h1 h2 => .packet hi h1 (by omega)).bind fun _ _ => ?_
  refine (sends_write (hdesc (by rw [length_leBytes]; unfold regDescBuff; omega))).bind fun _ _ => ?_
  refine (sends_write (hdesc (by rw [length_leBytes]; decide))).bind fun _ _ => ?_
  refine (sends_write (hdesc (by rw [length_leBytes]; decide))).bind fun _ _ => ?_
  refine (sends_readReg (hdesc (by decide))).bind fun _ _ => sends_ingressTail htail (follows_modify fun s t hR => ?_)
  obtain ⟨m, hdma⟩ := hR.dma
  have hshows := hR.shows
  refine ⟨⟨hshows.agree, ?_, hshows.ipkts, hshows.wide⟩, hR.delivered, ⟨i + 1, ?_⟩, hR.wide, ?_⟩
  · show { s.dma.idesc with last := (i : Int) } = { t.dma.idesc with last := (i : Int) }
    rw [hshows.idesc]
  · show { t.dma with idesc := { t.dma.idesc with last := (i : Int) } } = b.dma (-1) (-1) ((i % 4 : Nat) : Int) 3
    rw [hdma, Nat.mod_eq_of_lt hi]
    rfl
  · obtain ⟨k, u, hu, hinv⟩ := hR.rests
    exact ⟨k, u, ⟨hu.agree, hu.edesc, hu.epkts, hu.wide⟩, hinv⟩

theorem sends_send (hb : b.Fits) {p : Packet} (hsize : p.bytes.length ≤ 1040) :
    Sends b l (fun _ => True) (send p) (Transmit.send p) := by
  unfold send Transmit.send hsdpSendPacket
  refine (follows_modify fun s t hR => ?_).bind fun _ _ => (follows_modify fun s t hR => ?_).bind fun _ _ =>
    follows_read_bind fun s t hR => ?_
  · obtain ⟨⟨⟨hengine, htail, hmem⟩, hidesc, hipkts, hwide⟩, hdelivered, hdma, hwide', k, u, hu, hinv⟩ := hR
    refine ⟨⟨⟨?_, htail, hmem⟩, hidesc, hipkts, hwide⟩, hdelivered, hdma, hwide', k, u,
      ⟨⟨hu.agree.engine, hu.agree.tail, hu.agree.mem⟩, hu.edesc, hu.epkts, hu.wide⟩, hinv⟩
    show { t.fabric.engine with pending := p.bytes } = { s.fabric.engine.tx with pending := p.bytes }
    rw [hengine]
  · obtain ⟨hshows, hdelivered, hdma, hwide', k, u, hu, hinv⟩ := hR
    exact ⟨⟨hshows.agree, hshows.idesc, hshows.ipkts, hshows.wide⟩, hdelivered, hdma, hwide', k, u,
      ⟨hu.agree, hu.edesc, hu.epkts, hu.wide⟩, hinv⟩
  · obtain ⟨n, hdma⟩ := hR.dma
    have hnext : t.dma.idesc.next = n % 4 := by rw [hdma, Transmit.next_idesc hb]
    have hmod : n % 4 < 4 := Nat.mod_lt _ (by decide)
    have hentry : t.dma.idesc.entry (n % 4) = b.idesc (n % 4) := by rw [hdma, b.entry_idesc]
    simp only [hR.shows.idesc, hnext, hentry]
    refine (sends_awaitDesc (fun x h1 h2 => ?_) 1000).bind fun available _ => ?_
    · unfold regDescSts at h1 h2
      exact .desc hmod (by omega) (by omega)
    · cases available with
      | false => exact follows_pure trivial
      | true => exact (sends_fillDesc hR hmod hsize).bind fun _ _ => follows_pure trivial

end Sends

/-- Between any two accesses. -/
structure Live (b : Bus) (s : Hsdp Channels) : Prop where
  tx : ∃ g, TxAgree b s.fabric g ∧ Transmit.Sound b g
  rx : ∃ u, RxAgree b s.fabric u ∧ Placed b u ∧ Receive.Lossless u

theorem Live.steps {b : Bus} {s : Hsdp Channels} (h : Live b s) {f : Fabric Channels}
    (hf : ReflTransGen (Step b) s.fabric f) : Transmit.InOrder (txOf f) ∧ Receive.Lossless (rxOf f) := by
  obtain ⟨g, hg, hsound⟩ := h.tx
  obtain ⟨u, hu, hplaced, hlossless⟩ := h.rx
  obtain ⟨g', u', hgrun, hg', hurun, -, hu'⟩ := duplex_steps hf hsound hg hplaced hu
  have horder := (hsound.steps hgrun).1.inOrder
  have hlossless' := hlossless.steps hurun
  unfold Transmit.InOrder at horder ⊢
  unfold Receive.Lossless at hlossless' ⊢
  rw [hg'.engine] at horder
  rw [hu'.engine] at hlossless'
  exact ⟨horder, hlossless'⟩

theorem live_of_rests {b : Bus} {s : Hsdp Channels} (ht : TxRests b s) (hr : RxRests b s) : Live b s := by
  obtain ⟨t, ht, hinv⟩ := ht
  obtain ⟨n, u, hu, hinv'⟩ := hr
  exact ⟨⟨_, ht.agree, hinv.safe.sound⟩, _, hu.agree, placed_of_sound hinv'.sound, hinv'.lossless⟩

/-- The packets that have been given, and those that have been delivered. -/
def givenOf (s : Hsdp Channels) : List (List UInt8) := s.fabric.engine.tx.posted
def deliveredOf (s : Hsdp Channels) : List (List UInt8) := s.fabric.engine.rx.delivered

/-- How a call of `hsdp_send_packet` from `s` comes out. -/
def Outcome (p : Packet) (s : Hsdp Channels) (ret : Int) (s' : Hsdp Channels) : Prop :=
  deliveredOf s' = deliveredOf s ∧
    (ret = 0 ∧ givenOf s' = givenOf s ++ [p.bytes] ∨ ret = -1 ∧ givenOf s' = givenOf s)

/-- **A send** with the other channel at work. -/
theorem send_duplex {b : Bus} (hb : b.Fits) {p : Packet} (hsize : p.bytes.length ≤ 1040) {s : Hsdp Channels}
    (ht : TxRests b s) (hr : RxRests b s) :
    (send p).Always (both b) (Live b) (fun ret s' => (TxRests b s' ∧ RxRests b s') ∧ Outcome p s ret s') s := by
  obtain ⟨t, hshows, hinv⟩ := ht
  have hrule := (sends_send hb hsize).always sends_access ⟨hshows, rfl, ⟨_, hinv.dma⟩, hinv.wide, hr⟩ hinv.safe
    (Transmit.send_inv hb hsize hinv)
  refine (hrule.mono fun ret s' hend => ?_).weaken fun s' hs' => ?_
  · obtain ⟨t', hR, hinv', hout⟩ := hend
    refine ⟨⟨⟨t', hR.shows, hinv'⟩, hR.rests⟩, hR.delivered, ?_⟩
    have hbefore : s.fabric.engine.tx = t.fabric.engine := hshows.agree.engine.symm
    have hafter : s'.fabric.engine.tx = t'.fabric.engine := hR.shows.agree.engine.symm
    unfold givenOf
    rw [hbefore, hafter]
    rcases hout with ⟨rfl, hposted⟩ | ⟨rfl, f, hf, rfl⟩
    · exact .inl ⟨rfl, hposted⟩
    · exact .inr ⟨rfl, ((hinv.pend p).safe.sound.steps hf).2.1.posted⟩
  · obtain ⟨t', hR, hsafe⟩ := hs'
    obtain ⟨n, u, hu, hinv'⟩ := hR.rests
    exact ⟨⟨_, hR.shows.agree, hsafe.sound⟩, _, hu.agree, placed_of_sound hinv'.sound, hinv'.lossless⟩

/-! ## The message `edpc:` -/

/-- A poll is in progress in `u`; the packets `q` have been given, and the packets `l` delivered. -/
structure Polling (b : Bus) (q l : List (List UInt8)) (s : Hsdp Channels) (u : Hsdp S2mm) : Prop where
  shows : RxShows b s u
  given : givenOf s = q
  delivered : deliveredOf s = l
  placed : Placed b u.fabric
  dma : ∃ n, Receive.LastAt b n u.dma
  wide : u.wide = b.wide
  rests : TxRests b s

/-- Its accesses: it writes to STS and BUFF of the egress descriptors only. -/
def RxAccess (b : Bus) : Access → Prop
  | .read _ => True
  | .write a l =>
    ∃ i, i < 4 ∧ (a = b.edesc i + regDescSts ∧ l = leBytes 4 0 ∨
      a = b.edesc i + regDescBuff ∧ l = leBytes (regBytes b.wide) (b.axi (b.epkt i)))
  | .ingressTail _ => False
  | .egressTail _ => True

/-- What it finds. -/
def RxFound (b : Bus) (_c : Access) (f : Fabric Channels) (u : Fabric S2mm) : Prop :=
  Agree (Egress b) f.mem u.mem ∧ Placed b u

/-- What the poll has found is in the ring. -/
def InRing (b : Bus) (r : Receive.Polled) : Prop :=
  ∀ buf, r.buf = some buf → ∃ i, i < 4 ∧ buf = b.epkt i ∧ r.wordCount * 4 ≤ 1040

section Polls

variable {b : Bus} {q l : List (List UInt8)} {s : Hsdp Channels} {u : Hsdp S2mm} {α : Type}

/-- A program does what it does when the other channel is not there. -/
abbrev Polls (b : Bus) (q l : List (List UInt8)) (P : α → Prop) (p : HsdpProg Channels α)
    (p' : HsdpProg S2mm α) : Prop :=
  p.Follows (Polling b q l) (RxAccess b) (RxFound b) P p'

/-- The driver writes BUFF of a descriptor. -/
theorem Placed.buffer (hb : b.Fits) {m : ByteMem} {itail etail : Nat} {e : S2mm}
    (hp : Placed b ⟨m, itail, etail, e⟩) {i : Nat}
    (hi : i < 4) :
    Placed b ⟨write m (b.edesc i + regDescBuff) (leBytes (regBytes b.wide) (b.axi (b.epkt i))), itail, etail, e⟩ := by
  have hw := regBytes_le b.wide
  have hother : ∀ {i' x : Nat}, i' < 4 → b.edesc i' ≤ x → x < b.edesc i' + 64 →
      x < b.edesc i' + 8 ∨ b.edesc i' + 16 ≤ x ∨ i' ≠ i →
      write m (b.edesc i + regDescBuff) (leBytes (regBytes b.wide) (b.axi (b.epkt i))) x = m x := by
    intro i' x hi' h1 h2 h3
    refine write_of_disjoint _ _ ?_
    rw [length_leBytes]
    unfold Bus.edesc at h1 h2 h3 ⊢
    unfold regDescBuff
    omega
  refine ⟨fun i' hi' => ?_, fun i' hi' => ?_, fun i' hi' => ?_, hp.cur, hp.job⟩
  · exact (nextOf_congr fun x h1 h2 => hother hi' h1 (by omega) (.inl h2)).trans (hp.next i' hi')
  · by_cases hsame : i' = i
    · have hpkt : b.epkt i < b.buffer + 0x2280 := by unfold Bus.epkt; omega
      unfold buffOf
      rw [hsame, ofLe_write, Bus.axi_mod hb hpkt]
    · exact (buffOf_congr fun x h1 h2 => hother hi' (by omega) (by omega) (.inr (.inr hsame))).trans (hp.buff i' hi')
  · have hkeep : stsOf (write m (b.edesc i + regDescBuff) (leBytes (regBytes b.wide) (b.axi (b.epkt i)))) (b.edesc i') =
        stsOf m (b.edesc i') :=
      stsOf_congr fun x h1 h2 => hother hi' (by omega) (by omega) (.inr (.inl (by omega)))
    exact hkeep.symm ▸ hp.sts i' hi'

/-- What the driver may write keeps the addresses, and is in the ring. -/
theorem RxAccess.placed (hb : b.Fits) {a : Nat} {bytes : List UInt8} (hc : RxAccess b (.write a bytes))
    {f : Fabric S2mm} (hp : Placed b f) :
    Placed b { f with mem := write f.mem a bytes } ∧ ∀ x, a ≤ x → x < a + bytes.length → Egress b x := by
  have hw := regBytes_le b.wide
  obtain ⟨i, hi, ⟨rfl, rfl⟩ | ⟨rfl, rfl⟩⟩ := hc
  · refine ⟨hp.status (.inl rfl) hp.cur fun _ hj => hj, fun x h1 h2 => ?_⟩
    rw [length_leBytes] at h2
    unfold regDescSts at h1 h2
    exact .desc hi (by omega) (by omega)
  · refine ⟨hp.buffer hb hi, fun x h1 h2 => ?_⟩
    rw [length_leBytes] at h2
    unfold regDescBuff at h1 h2
    exact .desc hi (by omega) (by omega)

theorem delivered_steps {f f' : Fabric S2mm} (hrun : ReflTransGen (S2mm.Step b) f f') :
    f'.engine.delivered = f.engine.delivered := by
  induction hrun with
  | refl => rfl
  | tail _ hstep ih =>
    cases hstep with
    | take => exact ih
    | store => exact ih
    | complete => exact ih

theorem polls_access (hb : b.Fits) :
    CanFollow (both b) (Receive.kept b).world (Polling b q l) (RxAccess b) (RxFound b) Receive.Keeps := by
  intro c f s u hc hR hI hf
  obtain ⟨t, ht, hinv⟩ := hR.rests
  obtain ⟨g', u', hgrun, hg', hurun, hplaced, hu'⟩ :=
    duplex_steps hf.1 hinv.safe.sound ht.agree hR.placed hR.shows.agree
  have hinv' := hinv.steps hgrun
  have hgiven : f.engine.tx.posted = q := by
    rw [← hg'.engine, (hinv.safe.sound.steps hgrun).2.1.posted, ht.agree.engine]
    exact hR.given
  have hdelivered : f.engine.rx.delivered = l := by
    rw [← hu'.engine, delivered_steps hurun, hR.shows.agree.engine]
    exact hR.delivered
  have hedesc := hR.shows.edesc
  have hepkts := hR.shows.epkts
  have hwide := hR.shows.wide
  have huntouched : Receive.Untouched b c u' u := by
    intro addr i haddr hi h1 h2
    obtain ⟨hsts, hjob⟩ := hf.2 addr i haddr hi h1 h2
    refine ⟨?_, fun j hj hcur => hjob j (by rw [← hu'.engine]; exact hj) (by rw [← hu'.engine]; exact hcur)⟩
    have hkeep : stsOf u'.mem (b.edesc i) = stsOf f.mem (b.edesc i) :=
      stsOf_congr fun x h1 h2 => hu'.mem x (.desc hi (by omega) (by omega))
    rw [hkeep, hsts]
  refine ⟨u', ⟨hurun, huntouched⟩, ⟨hu'.mem, hplaced⟩, ?_⟩
  cases c with
  | read addr =>
    exact ⟨⟨hu', hedesc, hepkts, hwide⟩, hgiven, hdelivered, hplaced, hR.dma, hR.wide, { t with fabric := g' },
      ⟨hg', ht.idesc, ht.ipkts, ht.wide⟩, hinv'⟩
  | write a l =>
    obtain ⟨hplaced', hring⟩ := hc.placed hb hplaced
    refine ⟨⟨⟨hu'.engine, hu'.tail, hu'.mem.write a l⟩, hedesc, hepkts, hwide⟩, hgiven, hdelivered, hplaced',
      hR.dma, hR.wide,
      { t with fabric := g' }, ⟨⟨hg'.engine, hg'.tail, hg'.mem.write_left fun x h1 h2 hx => ?_⟩, ht.idesc,
        ht.ipkts, ht.wide⟩,
      hinv'⟩
    exact ingress_not_egress hx (hring x h1 h2)
  | ingressTail v => exact hc.elim
  | egressTail v =>
    refine ⟨⟨⟨?_, rfl, hu'.mem⟩, hedesc, hepkts, hwide⟩, hgiven, hdelivered,
      ⟨hplaced.next, hplaced.buff, hplaced.sts, hplaced.cur, hplaced.job⟩, hR.dma, hR.wide, { t with fabric := g' },
      ⟨⟨hg'.engine, hg'.tail, hg'.mem⟩, ht.idesc, ht.ipkts, ht.wide⟩, hinv'⟩
    show { u'.engine with running := true } = _
    rw [hu'.engine]
    rfl

theorem polls_write {a : Nat} {bytes : List UInt8} (hc : RxAccess b (.write a bytes)) :
    Polls b q l (fun _ => True) (ask (.write a bytes) >>= fun _ => pure ())
      (ask (.write a bytes) >>= fun _ => pure ()) :=
  follows_ask hc fun _ _ _ => ⟨rfl, trivial⟩

theorem polls_setLast {i : Nat} (hi : i < 4) :
    Polls b q l (fun _ => True) (Program.modify (Receive.setLast i)) (Program.modify (Receive.setLast i)) := by
  refine follows_modify fun s u hR => ?_
  obtain ⟨hshows, hgiven, hdelivered, hplaced, ⟨n, p, hdma⟩, hwide, t, ht, hinv⟩ := hR
  refine ⟨⟨hshows.agree, ?_, ?_, hshows.wide⟩, hgiven, hdelivered, hplaced, ⟨i + 1, i, ?_⟩, hwide, t,
    ⟨ht.agree, ht.idesc, ht.ipkts, ht.wide⟩, hinv⟩
  · show { s.dma.edesc with last := (i : Int) } = { u.dma.edesc with last := (i : Int) }
    rw [hshows.edesc]
  · show { s.dma.epkts with last := (i : Int) } = { u.dma.epkts with last := (i : Int) }
    rw [hshows.epkts]
  · have hlast : (i + 1 + 3) % 4 = i := by omega
    show HsdpDma.mk u.dma.ipkts { u.dma.epkts with last := (i : Int) } u.dma.idesc
      { u.dma.edesc with last := (i : Int) } = _
    rw [hdma, hlast]
    rfl

theorem polls_status {i : Nat} (hi : i < 4) :
    Polls b q l Status (readReg (b.edesc i + regDescSts)) (readReg (b.edesc i + regDescSts)) := by
  refine follows_ask trivial fun f u hf => ⟨(congrArg ofLe (Agree.slice hf.1 fun x h1 h2 => ?_)).symm, hf.2.sts i hi⟩
  unfold regDescSts at h1 h2
  exact .desc hi (by omega) (by omega)

theorem polls_buffer {i : Nat} (hi : i < 4) :
    Polls b q l (fun buff => buff = b.axi (b.epkt i)) (Receive.readReg64 b.wide (b.edesc i + regDescBuff))
      (Receive.readReg64 b.wide (b.edesc i + regDescBuff)) := by
  have hw := regBytes_le b.wide
  refine follows_ask trivial fun f u hf => ⟨(congrArg ofLe (Agree.slice hf.1 fun x h1 h2 => ?_)).symm, hf.2.buff i hi⟩
  unfold regDescBuff at h1 h2
  exact .desc hi (by omega) (by omega)

theorem polls_egressTail {P : α → Prop} {v v' : Nat} (hv : v = v') {k : HsdpProg Channels α} {k' : HsdpProg S2mm α}
    (hk : Polls b q l P k k') :
    Polls b q l P (ask (.egressTail v) >>= fun _ => k) (ask (.egressTail v') >>= fun _ => k') := by
  subst hv
  exact .call trivial fun _ _ _ => hk

theorem polls_poll (hb : b.Fits) : Polls b q l (InRing b) Receive.hsdpPollFastPacket Receive.hsdpPollFastPacket := by
  unfold Receive.hsdpPollFastPacket
  refine follows_read_bind fun s u hR => ?_
  obtain ⟨n, hlast⟩ := hR.dma
  have hnext := hlast.next hb
  obtain ⟨p, hdma⟩ := hlast
  have hmod : n % 4 < 4 := Nat.mod_lt _ (by decide)
  have hentry : u.dma.edesc.entry (n % 4) = b.edesc (n % 4) := by rw [hdma, b.entry_edesc]
  have hbuff : u.dma.epkts.axiAddr (n % 4) = b.axi (b.epkt (n % 4)) := by rw [hdma, b.axiAddr_epkts]
  have hoffset : u.dma.epkts.entry 0 + (((b.axi (b.epkt (n % 4)) : Int) - u.dma.epkts.axiAddr 0) % 2 ^ 64).toNat =
      b.epkt (n % 4) := by
    rw [hdma, b.entry_epkts, b.axiAddr_epkts]
    unfold Bus.axi Bus.epkt
    omega
  have htail : s.dma.edesc.axiAddr s.dma.edesc.next % 256 ^ regBytes s.wide =
      u.dma.edesc.axiAddr u.dma.edesc.next % 256 ^ regBytes u.wide := by rw [hR.shows.edesc, hR.shows.wide]
  have hwriteBuff : RxAccess b (.write (b.edesc (n % 4) + regDescBuff)
    (leBytes (regBytes b.wide) (b.axi (b.epkt (n % 4))))) :=
    ⟨n % 4, hmod, .inr ⟨rfl, rfl⟩⟩
  have hwriteSts : RxAccess b (.write (b.edesc (n % 4) + regDescSts) (leBytes 4 0)) := ⟨n % 4, hmod, .inl ⟨rfl, rfl⟩⟩
  simp only [hR.shows.edesc, hR.shows.epkts, hR.shows.wide, hR.wide, hnext, hentry, hbuff]
  refine (polls_status hmod).bind fun status hstatus => ?_
  split
  · refine (polls_write hwriteSts).bind fun _ _ => polls_egressTail htail ?_
    exact (polls_write hwriteBuff).bind fun _ _ => (polls_setLast hmod).bind fun _ _ =>
      follows_pure fun buf hbuf => by cases hbuf
  · split
    · next hfull =>
      refine (polls_buffer hmod).bind fun buff hbuff => ?_
      refine (polls_write hwriteBuff).bind fun _ _ => (polls_write hwriteSts).bind fun _ _ => polls_egressTail htail ?_
      refine (polls_setLast hmod).bind fun _ _ => follows_pure fun buf hbuf => ⟨n % 4, hmod, ?_, ?_⟩
      · rw [← Option.some.inj hbuf, hbuff, hoffset]
      · rcases hstatus with rfl | ⟨size, hsize, rfl⟩
        · exact absurd rfl hfull
        · rw [(Receive.status_full (by omega)).2.2, Nat.shiftRight_eq_div_pow]
          show size / 2 ^ 2 * 4 ≤ 1040
          omega
    · exact follows_pure fun buf hbuf => by cases hbuf

theorem polls_edpc (hb : b.Fits) : Polls b q l (InRing b) Receive.edpc Receive.edpc := by
  have hreceive : Polls b q l (InRing b) Receive.hsdpReceiveFastPacket Receive.hsdpReceiveFastPacket := by
    unfold Receive.hsdpReceiveFastPacket Receive.receiveLoop
    refine (polls_poll hb).bind fun r hr => ?_
    rw [if_neg fun hagain => Nat.lt_irrefl 0 hagain.1, if_neg fun hagain => Nat.lt_irrefl 0 hagain.1]
    exact follows_pure hr
  unfold Receive.edpc
  refine hreceive.bind fun r hr => ?_
  split
  · exact follows_pure fun buf hbuf => by cases hbuf
  · exact follows_pure hr

theorem polls_copyOut {addr n : Nat} (hring : ∀ x, addr ≤ x → x < addr + n → Egress b x) :
    Polls b q l (fun _ => True) (Receive.copyOut addr n) (Receive.copyOut addr n) := by
  induction n generalizing addr with
  | zero => exact follows_pure trivial
  | succ n ih =>
    unfold Receive.copyOut
    refine .call trivial fun f u hf => (ih fun x h1 h2 => hring x (by omega) (by omega)).bind fun l _ => ?_
    have hbyte : u.mem addr = f.mem addr := hf.1 addr (hring addr (Nat.le_refl _) (by omega))
    exact follows_pure_of_eq (by rw [hbyte]) trivial

theorem polls_reply (hb : b.Fits) : Polls b q l (fun _ => True) Receive.edpcReply Receive.edpcReply := by
  unfold Receive.edpcReply
  refine (polls_edpc hb).bind fun r hr => ?_
  split
  · exact follows_pure trivial
  · next buf hbuf =>
    obtain ⟨i, hi, rfl, hsize⟩ := hr buf hbuf
    exact (polls_copyOut fun x h1 h2 => .packet hi h1 (by omega)).bind fun l _ => follows_pure trivial

end Polls

/-- The reply goes to the client. -/
theorem RxShows.deliver {b : Bus} {s : Hsdp Channels} {u : Hsdp S2mm} (h : RxShows b s u)
    (reply : Option (List UInt8)) :
    RxShows b (deliver reply s) (Receive.deliver reply u) := by
  obtain ⟨⟨hengine, htail, hmem⟩, hedesc, hepkts, hwide⟩ := h
  refine ⟨⟨?_, htail, hmem⟩, hedesc, hepkts, hwide⟩
  show { u.fabric.engine with delivered := u.fabric.engine.delivered ++ reply.toList } = _
  rw [hengine]
  rfl

theorem TxRests.deliver {b : Bus} {s : Hsdp Channels} (h : TxRests b s) (reply : Option (List UInt8)) :
    TxRests b (deliver reply s) := by
  obtain ⟨t, ht, hinv⟩ := h
  exact ⟨t, ⟨⟨ht.agree.engine, ht.agree.tail, ht.agree.mem⟩, ht.idesc, ht.ipkts, ht.wide⟩, hinv⟩

/-- **The reply to `edpc:`** with the other channel at work. -/
theorem edpc_duplex {b : Bus} (hb : b.Fits) {s : Hsdp Channels} (ht : TxRests b s) (hr : RxRests b s) :
    (Receive.edpcReply : HsdpProg Channels (Option (List UInt8))).Always (both b) (Live b)
      (fun reply s' => (TxRests b (deliver reply s') ∧ RxRests b (deliver reply s')) ∧ givenOf s' = givenOf s ∧
        deliveredOf s' = deliveredOf s) s := by
  obtain ⟨n, u, hshows, hinv⟩ := hr
  have hrule := (polls_reply hb).always (polls_access hb)
    ⟨hshows, rfl, rfl, placed_of_sound hinv.sound, ⟨n, hinv.dma⟩, hinv.wide, ht⟩ hinv.lossless
    (Receive.edpcMessage_rule hb hinv).of_bind
  refine (hrule.mono fun reply s' hend => ?_).weaken fun s' hs' => ?_
  · obtain ⟨u', hR, -, n', hinv'⟩ := hend
    exact ⟨⟨hR.rests.deliver reply, n', _, hR.shows.deliver reply, hinv'⟩, hR.given, hR.delivered⟩
  · obtain ⟨u', hR, hlossless⟩ := hs'
    obtain ⟨t, ht, hinv'⟩ := hR.rests
    exact ⟨⟨_, ht.agree, hinv'.safe.sound⟩, _, hR.shows.agree, hR.placed, hlossless⟩

/-! ## Runs -/

/-- Neither ring is in use after `hsdp_setup_dma`. -/
theorem rests_open {b : Bus} (hb : b.Fits) (m : ByteMem) :
    TxRests b (hsdpOpen b Channels.reset m) ∧ RxRests b (hsdpOpen b Channels.reset m) := by
  have hengine := (hsdpOpen_registers b Channels.reset m hb).1
  have htail := (hsdpOpen_registers b Channels.reset m hb).2
  constructor
  · refine ⟨hsdpOpen b Mm2s.reset m, ⟨⟨?_, rfl, fun _ _ => rfl⟩, rfl, rfl, rfl⟩, Transmit.inv_open hb m⟩
    rw [(hsdpOpen_registers b Mm2s.reset m hb).1, hengine]
    rfl
  · refine ⟨0, hsdpOpen b S2mm.reset m, ⟨⟨?_, ?_, fun _ _ => rfl⟩, rfl, rfl, rfl⟩, Receive.inv_open hb m⟩
    · rw [(hsdpOpen_registers b S2mm.reset m hb).1, hengine]
      rfl
    · rw [(hsdpOpen_registers b S2mm.reset m hb).2, htail]

/-- **Both directions.** In every run of calls after `hsdp_setup_dma`, with steps of either channel between any two
accesses, in which no packet buffer is touched while it is copied: what goes out is a beginning of the packets that were
given; the packets sent to the client are a beginning of those that were received; and a send either returns 0 and has
given its packet, or returns -1 and has given none. -/
theorem both_directions (b : Bus) (hb : b.Fits) (m : ByteMem) {c : Hsdp Channels × HsdpProg Channels Unit}
    (h : (calls b).Reaches (hsdpOpen b Channels.reset m) c) :
    (∀ f, ReflTransGen (Step b) c.1.fabric f → Transmit.InOrder (txOf f) ∧ Receive.Lossless (rxOf f)) ∧
      (c.2 = .done () → ∀ p, (calls b).may c.1 (some p) →
        (send p).Always (both b) (fun _ => True) (Outcome p c.1) c.1) := by
  have hcall : ∀ s p, TxRests b s ∧ RxRests b s → (calls b).may s (some p) →
      (send p).Always (both b) (Live b) (fun ret s' => (TxRests b s' ∧ RxRests b s') ∧ Outcome p s ret s') s := by
    rintro s p ⟨ht, hr⟩ hmay
    have hsize := (hmay p rfl).2
    obtain ⟨t, hshows, hinv⟩ := ht
    rw [hshows.ipkts, hinv.dma] at hsize
    exact send_duplex hb hsize ⟨t, hshows, hinv⟩ hr
  have hkeep : ∀ s j, TxRests b s ∧ RxRests b s → (calls b).may s j →
      ((calls b).body j).Always (both b) (Live b) (fun _ s' => TxRests b s' ∧ RxRests b s') s := by
    rintro s (_ | p) hrests hmay
    · refine (edpc_duplex hb hrests.1 hrests.2).seq fun reply s' hend => ?_
      rw [always_modify]
      exact ⟨live_of_rests hend.1.1 hend.1.2, hend.1⟩
    · exact (hcall s p hrests hmay).seq fun _ _ ht => ht.1
  obtain ⟨hlive, hrest⟩ := Session.invariant (S := calls b) (fun _ hrests => live_of_rests hrests.1 hrests.2) hkeep
    (rests_open hb m) h
  obtain ⟨s, prog⟩ := c
  refine ⟨fun f hf => hlive.steps hf, ?_⟩
  rintro rfl p hmay
  exact ((hcall s p hrest hmay).mono fun _ _ ht => ht.2).weaken fun _ _ => trivial

/-! ### A run -/

/-- A step of the channel from the memory, if there is one, and one of the channel to it; `ls` arrive. -/
def txAct (b : Bus) (f : Fabric Channels) : Fabric Channels :=
  let g := Mm2s.act b (txOf f)
  { f with mem := g.mem, engine := { f.engine with tx := g.engine } }

def rxAct (b : Bus) (ls : List (List UInt8)) (f : Fabric Channels) : Fabric Channels :=
  let u := S2mm.act b ls (rxOf f)
  { f with mem := u.mem, engine := { f.engine with rx := u.engine } }

theorem txAct_steps (b : Bus) (f : Fabric Channels) : ReflTransGen (Step b) f (txAct b f) := by
  unfold txAct
  generalize hg : Mm2s.act b (txOf f) = g
  cases hg ▸ Mm2s.act_step b (txOf f) with
  | refl => exact .refl
  | single hstep => exact .single (.tx hstep)

theorem rxAct_steps (b : Bus) (ls : List (List UInt8)) (f : Fabric Channels) :
    ReflTransGen (Step b) f (rxAct b ls f) := by
  unfold rxAct
  generalize hu : S2mm.act b ls (rxOf f) = u
  cases hu ▸ S2mm.act_step b ls (rxOf f) with
  | refl => exact .refl
  | single hstep => exact .single (.rx hstep)

/-- A step of each; what goes out comes in again. -/
def act (b : Bus) (f : Fabric Channels) : Fabric Channels :=
  rxAct b (txAct b f).engine.tx.transmitted (txAct b f)

/-- Both channels take so many steps before each access. -/
def loopback (b : Bus) (steps : Nat) : Tape (Hsdp Channels) Access (Found Channels) :=
  fun _ _ h => (act b)^[steps] h.fabric

def loopbackTest (b : Bus) (c : Access) (f : Fabric Channels) (_h : Hsdp Channels) : Bool :=
  Receive.untouched b c (rxOf f)

theorem loopback_answers {b : Bus} {steps n : Nat} {c : Access} {h : Hsdp Channels}
    (htest : loopbackTest b c (loopback b steps n c h) h = true) : (both b).answers c (loopback b steps n c h) h := by
  refine ⟨Machine.iterate_steps (fun f => (txAct_steps b f).trans (rxAct_steps b _ _)) steps h.fabric, ?_⟩
  exact Receive.untouched_spec htest ⟨h.dma, h.wide, rxOf h.fabric, []⟩

/-- A call to its end. -/
def called (j : Option Packet) (x : Played (Hsdp Channels)) : Played (Hsdp Channels) :=
  (((calls boardBus).body j).play (both boardBus) (loopback boardBus 6) x).2

/-- A run of calls has come to `x`. -/
def Reached (x : Played (Hsdp Channels)) : Prop :=
  (calls boardBus).Reaches (hsdpOpen boardBus Channels.reset fun _ => 0) (x.state, .done ()) ∧ x.lawful

theorem Reached.called {x : Played (Hsdp Channels)} (h : Reached x) {j : Option Packet}
    (hmay : (calls boardBus).may x.state j)
    (hpass : ((calls boardBus).body j).passes (both boardBus) (loopback boardBus 6) (loopbackTest boardBus) x = true) :
    Reached (called j x) := by
  have hlawful := lawful_of_passes (fun _ _ _ => loopback_answers) h.2 hpass
  exact ⟨h.1.plays hmay hlawful, hlawful⟩

theorem may_send {p : Packet} {s : Hsdp Channels} (h : 4 ≤ p.bytes.length ∧ p.bytes.length ≤ s.dma.ipkts.packetSize) :
    (calls boardBus).may s (some p) :=
  fun _ hp => Option.some.inj hp ▸ h

theorem may_edpc (s : Hsdp Channels) : (calls boardBus).may s none := fun _ hp => absurd hp.symm (Option.some_ne_none _)

/-- A send, and two messages. -/
def opened : Played (Hsdp Channels) := ⟨hsdpOpen boardBus Channels.reset fun _ => 0, 0, True⟩
def sent : Played (Hsdp Channels) := called (some Transmit.oneWord) opened
def polled : Played (Hsdp Channels) := called none (called none sent)

theorem reached_polled : Reached polled := by
  have hopened : Reached opened := ⟨.refl, trivial⟩
  have hsent : Reached sent := hopened.called (may_send (by decide +kernel)) (by decide +kernel)
  have hpolled : Reached (called none sent) := hsent.called (may_edpc _) (by decide +kernel)
  exact hpolled.called (may_edpc _) (by decide +kernel)

/-- A packet has been given, has gone out, has come in again and has been delivered. -/
theorem both_directions_loopback :
    givenOf polled.state = [[5, 5, 5, 5]] ∧ polled.state.fabric.engine.tx.transmitted = [[5, 5, 5, 5]] ∧
      deliveredOf polled.state = [[5, 5, 5, 5]] ∧ Transmit.InOrder (txOf polled.state.fabric) ∧
      Receive.Lossless (rxOf polled.state.fabric) ∧
      (send Transmit.twoWords).Always (both boardBus) (fun _ => True) (Outcome Transmit.twoWords polled.state)
        polled.state := by
  have hend : ∀ x, Reached x → (calls boardBus).may x.state (some Transmit.twoWords) →
      Transmit.InOrder (txOf x.state.fabric) ∧ Receive.Lossless (rxOf x.state.fabric) ∧
        (send Transmit.twoWords).Always (both boardBus) (fun _ => True)
          (Outcome Transmit.twoWords x.state) x.state := by
    intro x hx hmay
    obtain ⟨hlive, hsend⟩ := both_directions boardBus boardBus_fits (fun _ => 0) hx.1
    obtain ⟨horder, hlossless⟩ := hlive _ .refl
    exact ⟨horder, hlossless, hsend rfl _ hmay⟩
  exact ⟨by decide +kernel, by decide +kernel, by decide +kernel, hend _ reached_polled (may_send (by decide +kernel))⟩

end Duplex
end Dpc
end Xvc
