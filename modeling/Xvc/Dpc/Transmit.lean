import Xvc.Dpc.Setup
import Xvc.Lib.Machine
import Xvc.Lib.Play

/-!
# The ingress ring at work

The DMA takes the packets of the ingress ring from the memory, while `hsdp_send_packet` of `dpc/src/hsdp.c` gives it
others. A step of the DMA may lie before any access of the driver.

* `Mm2s.Step`: a step of the DMA. It reads a descriptor, sends a byte, or is done with the descriptor.
* `Sound`: what holds of the ring, whatever the DMA does (`Sound.steps`).
* `exactly_once`: in every run of sends, what goes out is a beginning of the packets that were given.
-/

namespace Xvc
namespace Dpc
namespace Transmit

open ByteMem Program Relation Ring

/-! ## The DMA -/

/-- The descriptor that the DMA works on: NEXT, BUFF, the bytes that are left, and those that have gone out. -/
structure Transfer where
  next : Nat
  buff : Nat
  left : Nat
  sent : List UInt8

/-- The channel from the memory to the stream: whether it runs, the descriptor that it has come to, and the packets
that have gone out. The others are for the statements: the packet of the call that is in progress, and the packets
whose calls have written TAIL. -/
structure Mm2s where
  running : Bool
  cur : Nat
  job : Option Transfer
  transmitted : List (List UInt8)
  pending : List UInt8
  posted : List (List UInt8)

/-- After a reset; it does not run before TAIL is written. -/
def Mm2s.reset (ingressCur _egressCur : Nat) : Mm2s := ⟨false, ingressCur, none, [], [], []⟩

/-- The number of bytes in CNTL. -/
def lengthOf (m : ByteMem) (desc : Nat) : Nat := cntlOf m desc &&& 0x3FFFFFF

/-- The DMA reads the descriptor that it has come to. -/
def Mm2s.fetch (b : Bus) (f : Fabric Mm2s) : Fabric Mm2s :=
  let desc := b.reach f.engine.cur
  let j := ⟨nextOf b.wide f.mem desc, buffOf b.wide f.mem desc, lengthOf f.mem desc, []⟩
  { f with engine := { f.engine with job := some j } }

/-- It sends a byte. -/
def Mm2s.emit (b : Bus) (f : Fabric Mm2s) (j : Transfer) : Fabric Mm2s :=
  let byte := f.mem (b.reach (j.buff + j.sent.length))
  { f with engine := { f.engine with job := some { j with left := j.left - 1, sent := j.sent ++ [byte] } } }

/-- It sets STS, and goes on along NEXT unless it has come to TAIL. -/
def Mm2s.complete (b : Bus) (f : Fabric Mm2s) (j : Transfer) : Fabric Mm2s :=
  { f with
    mem := write f.mem (b.reach f.engine.cur + regDescSts) (leBytes 4 0x80000000)
    engine :=
      { f.engine with
        running := decide (f.engine.cur ≠ f.ingressTail)
        cur := j.next
        job := none
        transmitted := f.engine.transmitted ++ [j.sent] } }

/-- A step of the DMA. -/
inductive Mm2s.Step (b : Bus) : Fabric Mm2s → Fabric Mm2s → Prop
  | fetch {f : Fabric Mm2s} (hrun : f.engine.running = true) (hjob : f.engine.job = none) : Step b f (Mm2s.fetch b f)
  | emit {f : Fabric Mm2s} {j : Transfer} (hjob : f.engine.job = some j) (hleft : 0 < j.left) :
      Step b f (Mm2s.emit b f j)
  | complete {f : Fabric Mm2s} {j : Transfer} (hjob : f.engine.job = some j) (hleft : j.left = 0) :
      Step b f (Mm2s.complete b f j)

/-- Writing TAIL makes the DMA run. -/
def post (h : Hsdp Mm2s) : Hsdp Mm2s :=
  { h with
    fabric :=
      { h.fabric with
        engine := { h.fabric.engine with
          running := true, posted := h.fabric.engine.posted ++ [h.fabric.engine.pending] } } }

/-- The DMA takes any number of its steps before each access. -/
def ring (b : Bus) : World (Hsdp Mm2s) Access (Found Mm2s) where
  answers _ f h := ReflTransGen (Mm2s.Step b) h.fabric f
  effect c f h :=
    match c with
    | .ingressTail _ => post (h.access c f)
    | _ => h.access c f

/-- A descriptor that the DMA has been given: the one it has come to, and from there along NEXT up to TAIL. -/
inductive Owns (b : Bus) (f : Fabric Mm2s) : Nat → Prop
  | cur (hrun : f.engine.running = true) : Owns b f f.engine.cur
  | next {desc : Nat} (h : Owns b f desc) (hne : desc ≠ f.ingressTail) :
      Owns b f (nextOf b.wide f.mem (b.reach desc))

/-- A byte of such a descriptor, or of its packet buffer. -/
def OwnsByte (b : Bus) (f : Fabric Mm2s) (x : Nat) : Prop :=
  ∃ desc, Owns b f desc ∧
    let packet := b.reach (buffOf b.wide f.mem (b.reach desc))
    (b.reach desc ≤ x ∧ x < b.reach desc + dmaDescSize ∨ packet ≤ x ∧ x < packet + dmaPacketBuffSizeDefault)

/-! ## Sends -/

/-- The `word_count` words at `buf`. -/
structure Packet where
  mem : ByteMem
  buf : Nat
  wordCount : Nat

def Packet.bytes (p : Packet) : List UInt8 := slice p.mem p.buf (p.wordCount * 4)

/-- The packet is the one of the call in progress. -/
def Packet.pend (p : Packet) (h : Hsdp Mm2s) : Hsdp Mm2s :=
  { h with fabric := { h.fabric with engine := { h.fabric.engine with pending := p.bytes } } }

/-- A call of `hsdp_send_packet`. -/
def send (p : Packet) : HsdpProg Mm2s Int := do
  modify p.pend
  hsdpSendPacket p.mem p.buf p.wordCount

/-- Calls one after the other, with packets of 4 bytes up to `ipkts.packet_size`. -/
def sends (b : Bus) : Session (Hsdp Mm2s) Access (Found Mm2s) where
  world := ring b
  Job := Packet
  may h p := 4 ≤ p.bytes.length ∧ p.bytes.length ≤ h.dma.ipkts.packetSize
  body p := do
    let _ ← send p
    pure ()

/-- How a call from `h` comes out: it returns 0 and the packet has been given; or it returns -1, and the DMA has
acted but the driver has done nothing. -/
def Outcome (b : Bus) (p : Packet) (h : Hsdp Mm2s) (ret : Int) (t : Hsdp Mm2s) : Prop :=
  ret = 0 ∧ t.fabric.engine.posted = h.fabric.engine.posted ++ [p.bytes] ∨
    ret = -1 ∧ ∃ f, ReflTransGen (Mm2s.Step b) (p.pend h).fabric f ∧
      t = { h with fabric := f, log := h.log ++ [.send p.wordCount] }

/-- The call has looked at the next descriptor 1000 times, and the DMA held it each time. -/
def Busy (b : Bus) (h : Hsdp Mm2s) (log : List (Σ c, Found Mm2s c)) : Prop :=
  let next := h.dma.idesc.next
  log.length = 1000 ∧
    ∀ e ∈ log, e.1 = .read (h.dma.idesc.entry next + regDescSts) ∧ Owns b e.2 (h.dma.idesc.axiAddr next)

/-- What has gone out is a beginning of what was given, and so are the bytes of the packet that is going out. -/
def InOrder (f : Fabric Mm2s) : Prop :=
  f.engine.transmitted <+: f.engine.posted ∧
    ∀ j, f.engine.job = some j → ∃ l, f.engine.transmitted ++ [l] <+: f.engine.posted ∧ j.sent <+: l

/-! ## The ring -/

/-- A byte of descriptor `i` or of its packet buffer. -/
def Entry (b : Bus) (i x : Nat) : Prop :=
  b.idesc i ≤ x ∧ x < b.idesc i + 64 ∨ b.ipkt i ≤ x ∧ x < b.ipkt i + 1040

theorem entry_apart (b : Bus) {i j x : Nat} (hi : i < 4) (hj : j < 4) (h : Entry b i x) (h' : Entry b j x) : i = j := by
  unfold Entry Bus.idesc Bus.ipkt at h h'
  omega

/-- The items of the ring are the packets: up to `sentCount` they have gone out, up to `postCount` they have been
given. -/
def sentCount (f : Fabric Mm2s) : Nat := f.engine.transmitted.length
def postCount (f : Fabric Mm2s) : Nat := f.engine.posted.length

/-- Descriptor `i` is held by the DMA. -/
abbrev Held (f : Fabric Mm2s) (i : Nat) : Prop := Holds 4 (sentCount f) (postCount f) i

/-- Descriptor `i` describes the packet `l`. -/
structure Loaded (b : Bus) (m : ByteMem) (i : Nat) (l : List UInt8) : Prop where
  buff : buffOf b.wide m (b.idesc i) = b.axi (b.ipkt i)
  length : lengthOf m (b.idesc i) = l.length
  bytes : slice m (b.ipkt i) l.length = l

theorem Loaded.congr {b : Bus} {m m' : ByteMem} {i : Nat} {l : List UInt8} (h : Loaded b m i l)
    (hsize : l.length ≤ 1040)
    (hm : ∀ x, b.idesc i + 8 ≤ x ∧ x < b.idesc i + 28 ∨ b.ipkt i ≤ x ∧ x < b.ipkt i + 1040 → m' x = m x) :
    Loaded b m' i l where
  buff := (buffOf_congr fun x h1 h2 => hm x (.inl ⟨by omega, by omega⟩)).trans h.buff
  length := by
    rw [← h.length, lengthOf, lengthOf, cntlOf_congr fun x h1 h2 => hm x (.inl ⟨by omega, by omega⟩)]
  bytes := (slice_congr fun i hi => hm _ (.inr ⟨by omega, by omega⟩)).trans h.bytes

/-- The DMA works on the packet that is the next to go out. -/
structure Working (b : Bus) (f : Fabric Mm2s) (j : Transfer) (l : List UInt8) : Prop where
  packet : f.engine.posted[sentCount f]? = some l
  next : j.next = b.axi (b.idesc ((sentCount f + 1) % 4))
  buff : j.buff = b.axi (b.ipkt (sentCount f % 4))
  sent : j.sent <+: l
  left : j.sent.length + j.left = l.length

/-- The invariant of the ring. -/
structure Sound (b : Bus) (f : Fabric Mm2s) : Prop where
  order : f.engine.transmitted <+: f.engine.posted
  room : postCount f ≤ sentCount f + 4
  sizes : ∀ l ∈ f.engine.posted, l.length ≤ 1040
  cur : f.engine.cur = b.axi (b.idesc (sentCount f % 4))
  running : f.engine.running = decide (sentCount f < postCount f)
  tail : 0 < postCount f → f.ingressTail = b.axi (b.idesc ((postCount f - 1) % 4))
  chain : ∀ i, i < 4 → nextOf b.wide f.mem (b.idesc i) = b.axi (b.idesc ((i + 1) % 4))
  given : ∀ k l, sentCount f ≤ k → f.engine.posted[k]? = some l → Loaded b f.mem (k % 4) l
  job : ∀ j, f.engine.job = some j → ∃ l, Working b f j l
  held : ∀ i, Held f i → stsOf f.mem (b.idesc i) = 0

/-- The descriptors that the DMA does not hold are done; when `filling`, except the next one, to which the driver
writes. -/
def Free (b : Bus) (filling : Bool) (f : Fabric Mm2s) : Prop :=
  ∀ i, i < 4 → ¬ Held f i → (filling = true → i ≠ postCount f % 4) → stsOf f.mem (b.idesc i) = 0x80000000

/-- What the DMA leaves as it is. -/
structure Later (b : Bus) (f f' : Fabric Mm2s) : Prop where
  posted : f'.engine.posted = f.engine.posted
  pending : f'.engine.pending = f.engine.pending
  tail : f'.ingressTail = f.ingressTail
  count : sentCount f ≤ sentCount f'
  frame : ∀ i, i < 4 → ¬ Held f i → ∀ x, Entry b i x → f'.mem x = f.mem x

theorem Later.refl (b : Bus) (f : Fabric Mm2s) : Later b f f :=
  ⟨rfl, rfl, rfl, Nat.le_refl _, fun _ _ _ _ _ => rfl⟩

theorem Later.postCount {b : Bus} {f f' : Fabric Mm2s} (h : Later b f f') : postCount f' = postCount f := by
  unfold Transmit.postCount
  rw [h.posted]

theorem Later.held {b : Bus} {f f' : Fabric Mm2s} (h : Later b f f') {i : Nat} (hi : Held f' i) : Held f i := by
  unfold Held at hi ⊢
  rw [h.postCount] at hi
  exact hi.mono h.count (Nat.le_refl _)

theorem Later.trans {b : Bus} {f f' f'' : Fabric Mm2s} (h : Later b f f') (h' : Later b f' f'') : Later b f f'' where
  posted := h'.posted.trans h.posted
  pending := h'.pending.trans h.pending
  tail := h'.tail.trans h.tail
  count := Nat.le_trans h.count h'.count
  frame i hi hfree x hx := (h'.frame i hi (fun hh => hfree (h.held hh)) x hx).trans (h.frame i hi hfree x hx)

/-! ## What the DMA does -/

section Steps

variable {b : Bus} {f f' : Fabric Mm2s}

theorem Sound.le (h : Sound b f) : sentCount f ≤ postCount f := h.order.length_le

theorem Sound.reach_cur (h : Sound b f) : b.reach f.engine.cur = b.idesc (sentCount f % 4) := by
  rw [h.cur]
  exact b.reach_axi (by unfold Bus.idesc; omega)

/-- While it runs, the DMA holds a packet. -/
theorem Sound.next_packet (h : Sound b f) (hrun : f.engine.running = true) :
    ∃ l, f.engine.posted[sentCount f]? = some l ∧ Loaded b f.mem (sentCount f % 4) l := by
  have hlt : sentCount f < postCount f := by
    rw [h.running] at hrun
    exact of_decide_eq_true hrun
  obtain ⟨l, hl⟩ : ∃ l, f.engine.posted[sentCount f]? = some l := ⟨_, List.getElem?_eq_getElem hlt⟩
  exact ⟨l, hl, h.given _ l (Nat.le_refl _) hl⟩

/-- A step that only changes the job. -/
theorem Sound.with_job (h : Sound b f) {j : Transfer} {l : List UInt8} (hj : Working b f j l) :
    Sound b { f with engine := { f.engine with job := some j } } where
  order := h.order
  room := h.room
  sizes := h.sizes
  cur := h.cur
  running := h.running
  tail := h.tail
  chain := h.chain
  given := h.given
  job j' hj' := by
    obtain rfl : j = j' := Option.some.inj hj'
    exact ⟨l, hj.packet, hj.next, hj.buff, hj.sent, hj.left⟩
  held := h.held

theorem Sound.fetch (h : Sound b f) (hrun : f.engine.running = true) : Sound b (Mm2s.fetch b f) := by
  obtain ⟨l, hl, hload⟩ := h.next_packet hrun
  have hmod : sentCount f % 4 < 4 := Nat.mod_lt _ (by decide)
  refine h.with_job (l := l) ⟨hl, ?_, ?_, List.nil_prefix, ?_⟩
  · rw [h.reach_cur, h.chain _ hmod, Nat.mod_add_mod]
  · rw [h.reach_cur, hload.buff]
  · rw [h.reach_cur, hload.length]
    exact Nat.zero_add _

theorem Sound.emit (h : Sound b f) {j : Transfer} (hjob : f.engine.job = some j) (hleft : 0 < j.left) :
    Sound b (Mm2s.emit b f j) := by
  obtain ⟨l, hl, hnext, hbuff, hsent, hlen⟩ := h.job j hjob
  have hload := h.given _ l (Nat.le_refl _) hl
  have hlt : j.sent.length < l.length := by omega
  have hreach : b.reach (j.buff + j.sent.length) = b.ipkt (sentCount f % 4) + j.sent.length := by
    rw [hbuff]
    unfold Bus.reach Bus.axi Bus.ipkt
    omega
  have hbyte : l[j.sent.length]? = some (f.mem (b.ipkt (sentCount f % 4) + j.sent.length)) := by
    have hget := getElem_slice f.mem (b.ipkt (sentCount f % 4)) l.length j.sent.length (by rw [length_slice]; exact hlt)
    rw [← hget, ← List.getElem?_eq_getElem, hload.bytes]
  unfold Mm2s.emit
  simp only [hreach]
  refine h.with_job (l := l) ⟨hl, hnext, hbuff, prefix_snoc hsent hbyte, ?_⟩
  simp only [List.length_append, List.length_singleton]
  omega

/-- The packet that has gone out when no byte is left of the job. -/
theorem Sound.sent_all (h : Sound b f) {j : Transfer} (hjob : f.engine.job = some j) (hleft : j.left = 0) :
    f.engine.posted[sentCount f]? = some j.sent ∧ j.next = b.axi (b.idesc ((sentCount f + 1) % 4)) := by
  obtain ⟨l, hl, hnext, -, hsent, hlen⟩ := h.job j hjob
  have heq : j.sent = l := hsent.eq_of_length (by omega)
  rw [heq]
  exact ⟨hl, hnext⟩

theorem sentCount_complete (b : Bus) (f : Fabric Mm2s) (j : Transfer) :
    sentCount (Mm2s.complete b f j) = sentCount f + 1 := List.length_append

/-- Only STS of the first descriptor changes. -/
theorem Sound.complete_mem (h : Sound b f) (j : Transfer) {x : Nat}
    (hx : x < b.idesc (sentCount f % 4) + 28 ∨ b.idesc (sentCount f % 4) + 32 ≤ x) :
    (Mm2s.complete b f j).mem x = f.mem x := by
  unfold Mm2s.complete
  rw [h.reach_cur]
  exact write_of_disjoint _ _ (by rw [length_leBytes]; unfold regDescSts; omega)

theorem Sound.complete_sts (h : Sound b f) (j : Transfer) :
    stsOf (Mm2s.complete b f j).mem (b.idesc (sentCount f % 4)) = 0x80000000 := by
  unfold Mm2s.complete stsOf
  rw [h.reach_cur, ofLe_write]
  rfl

theorem Sound.complete (h : Sound b f) {j : Transfer} (hjob : f.engine.job = some j) (hleft : j.left = 0) :
    Sound b (Mm2s.complete b f j) := by
  obtain ⟨hl, hnext⟩ := h.sent_all hjob hleft
  have hcount := sentCount_complete b f j
  have hlt : sentCount f < postCount f := (List.getElem?_eq_some_iff.mp hl).1
  have hroom := h.room
  have hpost : postCount (Mm2s.complete b f j) = postCount f := rfl
  refine ⟨prefix_snoc h.order hl, ?_, h.sizes, ?_, ?_, h.tail, ?_, ?_, (fun _ hj => by cases hj), ?_⟩
  · rw [hcount, hpost]
    omega
  · rw [hcount]
    exact hnext
  · -- It has come to TAIL when the packet was the last.
    have htail := h.tail (by omega)
    have hiff : f.engine.cur ≠ f.ingressTail ↔ sentCount f + 1 < postCount f := by
      rw [h.cur, htail, ne_eq, b.axi_inj (by unfold Bus.idesc; omega) (by unfold Bus.idesc; omega)]
      unfold Bus.idesc
      omega
    rw [hcount, hpost]
    exact decide_eq_decide.mpr hiff
  · intro i hi
    rw [nextOf_congr fun x h1 h2 => h.complete_mem j (by unfold Bus.idesc at h1 h2 ⊢; omega), h.chain i hi]
  · intro k l hk hkl
    rw [hcount] at hk
    refine (h.given k l (by omega) hkl).congr (h.sizes l (List.mem_of_getElem? hkl)) fun x hx => h.complete_mem j ?_
    unfold Bus.idesc Bus.ipkt at hx
    unfold Bus.idesc
    omega
  · intro i hi
    unfold Held at hi
    rw [hcount, hpost, holds_pop hroom] at hi
    obtain ⟨hheld, hne⟩ := hi
    have hlt4 : i < 4 := by
      obtain ⟨k, -, -, rfl⟩ := hheld
      exact Nat.mod_lt _ (by decide)
    rw [stsOf_congr fun x h1 h2 => h.complete_mem j (by unfold Bus.idesc at h1 h2 ⊢; omega), h.held i hheld]

theorem Sound.complete_later (h : Sound b f) {j : Transfer} (hjob : f.engine.job = some j) (hleft : j.left = 0) :
    Later b f (Mm2s.complete b f j) := by
  obtain ⟨hl, -⟩ := h.sent_all hjob hleft
  have hlt : sentCount f < postCount f := (List.getElem?_eq_some_iff.mp hl).1
  refine ⟨rfl, rfl, rfl, by rw [sentCount_complete]; omega, fun i hi hfree x hx => h.complete_mem j ?_⟩
  have hne : i ≠ sentCount f % 4 := fun heq => hfree (heq ▸ holds_of_mem (Nat.le_refl _) hlt)
  unfold Entry Bus.idesc Bus.ipkt at hx
  unfold Bus.idesc
  omega

theorem Free.complete {filling : Bool} (hf : Free b filling f) (h : Sound b f) {j : Transfer} :
    Free b filling (Mm2s.complete b f j) := by
  intro i hi hfree hfill
  by_cases hfirst : i = sentCount f % 4
  · rw [hfirst]
    exact h.complete_sts j
  · have hnot : ¬ Held f i := fun hh => hfree <| by
      unfold Held
      rw [sentCount_complete]
      exact (holds_pop h.room).mpr ⟨hh, hfirst⟩
    rw [stsOf_congr fun x h1 h2 => h.complete_mem j (by unfold Bus.idesc at h1 h2 ⊢; omega)]
    exact hf i hi hnot hfill

/-- **A step of the DMA.** -/
theorem Sound.step (h : Sound b f) (hs : Mm2s.Step b f f') :
    Sound b f' ∧ Later b f f' ∧ ∀ filling, Free b filling f → Free b filling f' := by
  cases hs with
  | fetch hrun hjob => exact ⟨h.fetch hrun, ⟨rfl, rfl, rfl, Nat.le_refl _, fun _ _ _ _ _ => rfl⟩, fun _ hf => hf⟩
  | emit hjob hleft => exact ⟨h.emit hjob hleft, ⟨rfl, rfl, rfl, Nat.le_refl _, fun _ _ _ _ _ => rfl⟩, fun _ hf => hf⟩
  | complete hjob hleft => exact ⟨h.complete hjob hleft, h.complete_later hjob hleft, fun _ hf => hf.complete h⟩

/-- **A run of the DMA.** -/
theorem Sound.steps (h : Sound b f) (hs : ReflTransGen (Mm2s.Step b) f f') :
    Sound b f' ∧ Later b f f' ∧ ∀ filling, Free b filling f → Free b filling f' := by
  induction hs with
  | refl => exact ⟨h, .refl b f, fun _ hf => hf⟩
  | tail _ hstep ih =>
    obtain ⟨h1, h2, h3⟩ := ih
    obtain ⟨k1, k2, k3⟩ := h1.step hstep
    exact ⟨k1, h2.trans k2, fun filling hf => k3 filling (h3 filling hf)⟩

end Steps

/-! ## What the driver does -/

/-- The last store of the driver, if nothing else came after it, was to bytes that the DMA does not hold. -/
def StoredFree (b : Bus) (h : Hsdp Mm2s) : Prop :=
  ∀ addr count, h.log.getLast? = some (.store addr count) → ∀ x, addr ≤ x → x < addr + count →
    ∀ i, Held h.fabric i → ¬ Entry b i x

/-- What holds between any two accesses. -/
structure Safe (b : Bus) (h : Hsdp Mm2s) : Prop where
  sound : Sound b h.fabric
  stored : StoredFree b h

/-- `idesc.last`, when `n` packets have been given. -/
def lastIndex : Nat → Int
  | 0 => -1
  | n + 1 => (n % 4 : Nat)

/-- What holds between any two calls. -/
structure Inv (b : Bus) (h : Hsdp Mm2s) : Prop where
  safe : Safe b h
  free : Free b false h.fabric
  dma : h.dma = b.dma (-1) (-1) (lastIndex (postCount h.fabric)) 3
  wide : h.wide = b.wide

/-- While the driver fills the next entry: the packets `q` have been given, `p` is the next, and the entry holds
what it holds in `m`. -/
structure Filling (b : Bus) (q : List (List UInt8)) (p : List UInt8) (m : ByteMem) (h : Hsdp Mm2s) : Prop where
  safe : Safe b h
  free : Free b true h.fabric
  posted : h.fabric.engine.posted = q
  room : q.length < sentCount h.fabric + 4
  pending : h.fabric.engine.pending = p
  view : ∀ x, Entry b (q.length % 4) x → h.fabric.mem x = m x
  dma : h.dma = b.dma (-1) (-1) (lastIndex q.length) 3
  wide : h.wide = b.wide

theorem held_lt {f : Fabric Mm2s} {i : Nat} (h : Held f i) : i < 4 := by
  obtain ⟨k, -, -, rfl⟩ := h
  exact Nat.mod_lt _ (by decide)

section Accesses

variable {b : Bus} {h : Hsdp Mm2s} {f : Fabric Mm2s}

/-- What the DMA does before an access. -/
theorem StoredFree.later (hl : StoredFree b h) (hf : Later b h.fabric f) : StoredFree b { h with fabric := f } :=
  fun addr count hlast x h1 h2 i hi => hl addr count hlast x h1 h2 i (hf.held hi)

theorem Safe.steps (hs : Safe b h) (hf : ReflTransGen (Mm2s.Step b) h.fabric f) : Safe b { h with fabric := f } :=
  ⟨(hs.sound.steps hf).1, hs.stored.later (hs.sound.steps hf).2.1⟩

theorem Inv.steps (hi : Inv b h) (hf : ReflTransGen (Mm2s.Step b) h.fabric f) : Inv b { h with fabric := f } := by
  obtain ⟨-, hlater, hfree⟩ := hi.safe.sound.steps hf
  refine ⟨hi.safe.steps hf, hfree false hi.free, ?_, hi.wide⟩
  simp only [hlater.postCount]
  exact hi.dma

theorem Filling.count {q : List (List UInt8)} {p : List UInt8} {m : ByteMem} (hfill : Filling b q p m h) :
    postCount h.fabric = q.length := congrArg List.length hfill.posted

theorem Filling.steps {q : List (List UInt8)} {p : List UInt8} {m : ByteMem} (hfill : Filling b q p m h)
    (hf : ReflTransGen (Mm2s.Step b) h.fabric f) : Filling b q p m { h with fabric := f } := by
  obtain ⟨-, hlater, hfree⟩ := hfill.safe.sound.steps hf
  have hroom := hfill.room
  refine ⟨hfill.safe.steps hf, hfree true hfill.free, hlater.posted.trans hfill.posted, ?_,
    hlater.pending.trans hfill.pending, fun x hx => ?_, hfill.dma, hfill.wide⟩
  · exact Nat.lt_of_lt_of_le hroom (Nat.add_le_add_right hlater.count 4)
  · have hnot : ¬ Held h.fabric (q.length % 4) := by
      unfold Held
      rw [hfill.count]
      exact not_holds_next hroom
    exact (hlater.frame _ (Nat.mod_lt _ (by decide)) hnot x hx).trans (hfill.view x hx)

/-- The bytes of entry `i` that the driver may write: its packet buffer, and its descriptor behind NEXT. -/
def Own (b : Bus) (i addr count : Nat) : Prop :=
  b.ipkt i ≤ addr ∧ addr + count ≤ b.ipkt i + 1040 ∨ b.idesc i + 8 ≤ addr ∧ addr + count ≤ b.idesc i + 64

theorem Own.entry {i addr count x : Nat} (ho : Own b i addr count) (h1 : addr ≤ x) (h2 : x < addr + count) :
    Entry b i x := by
  unfold Own at ho
  unfold Entry
  omega

/-- A write to an entry that the DMA does not hold. -/
theorem Sound.storing (hs : Sound b f) (hroom : postCount f < sentCount f + 4) {addr : Nat} {l : List UInt8}
    (ho : Own b (postCount f % 4) addr l.length) : Sound b { f with mem := write f.mem addr l } := by
  have hmod : postCount f % 4 < 4 := Nat.mod_lt _ (by decide)
  have hnot : ¬ Held f (postCount f % 4) := not_holds_next hroom
  -- What is not in the entry, and NEXT of it, stays.
  have hother : ∀ {i x : Nat}, i < 4 → i ≠ postCount f % 4 → Entry b i x → write f.mem addr l x = f.mem x := by
    intro i x hi hne hx
    refine write_of_disjoint _ _ ?_
    by_contra hin
    exact hne (entry_apart b hi hmod hx (ho.entry (by omega) (by omega)))
  refine ⟨hs.order, hs.room, hs.sizes, hs.cur, hs.running, hs.tail, ?_, ?_, ?_, ?_⟩
  · intro i hi
    rw [nextOf_congr fun x h1 h2 => write_of_disjoint _ _ ?_]
    · exact hs.chain i hi
    · unfold Own Bus.idesc Bus.ipkt at ho
      unfold Bus.idesc at h1 h2
      omega
  · intro k l' hk hkl
    have hlt : k < postCount f := (List.getElem?_eq_some_iff.mp hkl).1
    have hne : k % 4 ≠ postCount f % 4 := fun heq => hnot (heq ▸ holds_of_mem hk hlt)
    refine (hs.given k l' hk hkl).congr (hs.sizes l' (List.mem_of_getElem? hkl)) fun x hx => ?_
    refine hother (Nat.mod_lt _ (by decide)) hne ?_
    unfold Entry
    omega
  · intro j hj
    obtain ⟨l', hw⟩ := hs.job j hj
    exact ⟨l', hw.packet, hw.next, hw.buff, hw.sent, hw.left⟩
  · intro i hi
    have hne : i ≠ postCount f % 4 := fun heq => hnot (heq ▸ hi)
    have hkeep : stsOf (write f.mem addr l) (b.idesc i) = stsOf f.mem (b.idesc i) :=
      stsOf_congr fun x h1 h2 => hother (held_lt hi) hne (.inl ⟨by omega, by omega⟩)
    rw [hkeep]
    exact hs.held i hi

theorem Free.storing {l : List UInt8} {addr : Nat} (hf : Free b true f) (ho : Own b (postCount f % 4) addr l.length) :
    Free b true { f with mem := write f.mem addr l } := by
  intro i hi hfree hne
  have hmod : postCount f % 4 < 4 := Nat.mod_lt _ (by decide)
  have hkeep : stsOf (write f.mem addr l) (b.idesc i) = stsOf f.mem (b.idesc i) := by
    refine stsOf_congr fun x h1 h2 => write_of_disjoint _ _ ?_
    by_contra hin
    exact hne rfl (entry_apart b hi hmod (.inl ⟨by omega, by omega⟩) (ho.entry (x := x) (by omega) (by omega)))
  rw [hkeep]
  exact hf i hi hfree hne

/-- A write of the driver to the entry that it fills. -/
theorem Filling.storing {q : List (List UInt8)} {p : List UInt8} {m : ByteMem} (hfill : Filling b q p m h)
    (hf : ReflTransGen (Mm2s.Step b) h.fabric f) {addr : Nat} {l : List UInt8}
    (ho : Own b (q.length % 4) addr l.length) :
    Filling b q p (write m addr l) (h.access (.write addr l) f) := by
  have hcount := (hfill.steps hf).count
  obtain ⟨⟨hsound, -⟩, hfree, hposted, hroom, hpending, hview, hdma, hwide⟩ := hfill.steps hf
  simp only at hsound hfree hcount hroom hpending hview
  rw [← hcount] at ho hroom
  refine ⟨⟨hsound.storing hroom ho, ?_⟩, hfree.storing ho, hposted, hcount ▸ hroom, hpending, fun x hx => ?_,
    hdma, hwide⟩
  · intro a c hlast x h1 h2 i hi hx
    have hlast : some (Effect.store addr l.length) = some (.store a c) := by
      rw [← hlast]
      exact List.getLast?_concat.symm
    obtain ⟨rfl, rfl⟩ := Effect.store.inj (Option.some.inj hlast)
    have heq := entry_apart b (held_lt hi) (Nat.mod_lt _ (by decide)) hx (ho.entry h1 h2)
    rw [heq] at hi
    exact not_holds_next hroom hi
  · show write f.mem addr l x = write m addr l x
    unfold write
    split
    · rfl
    · exact hview x hx

theorem always_storing {q : List (List UInt8)} {p : List UInt8} {m : ByteMem} (hfill : Filling b q p m h) {addr : Nat}
    {l : List UInt8} (ho : Own b (q.length % 4) addr l.length) :
    (ask (Access.write addr l) : HsdpProg Mm2s (Fabric Mm2s)).Always (ring b) (Safe b)
      (fun _ => Filling b q p (write m addr l)) h :=
  fun _ hf => ⟨(hfill.storing hf ho).safe, hfill.storing hf ho⟩

theorem copyIn_filling {q : List (List UInt8)} {p : List UInt8} (l : List UInt8) {m : ByteMem} {addr : Nat}
    (hfill : Filling b q p m h)
    (ho : Own b (q.length % 4) addr l.length) :
    (copyIn addr l).Always (ring b) (Safe b) (fun _ => Filling b q p (write m addr l)) h := by
  induction l generalizing addr m h with
  | nil =>
    rw [copyIn, write_nil]
    exact hfill
  | cons byte l ih =>
    have hfirst : Own b (q.length % 4) addr [byte].length := by
      unfold Own at ho ⊢
      simp only [List.length_cons, List.length_nil] at ho ⊢
      omega
    have hrest : Own b (q.length % 4) (addr + 1) l.length := by
      unfold Own at ho ⊢
      simp only [List.length_cons] at ho
      omega
    rw [copyIn]
    refine (always_storing hfill hfirst).seq fun _ t ht => ?_
    have hrule := ih ht hrest
    rwa [show write (write m addr [byte]) (addr + 1) l = write m addr (byte :: l) from
      write_write m addr [byte] l] at hrule

theorem writeReg_filling {q : List (List UInt8)} {p : List UInt8} {m : ByteMem} (hfill : Filling b q p m h)
    {addr value : Nat}
    (ho : Own b (q.length % 4) addr 4) :
    (writeReg addr value).Always (ring b) (Safe b) (fun _ => Filling b q p (write m addr (leBytes 4 value))) h :=
  (always_storing hfill (by rw [length_leBytes]; exact ho)).seq fun _ _ ht => ht

theorem writeReg64_filling {q : List (List UInt8)} {p : List UInt8} {m : ByteMem} (hfill : Filling b q p m h)
    {addr value : Nat}
    (ho : Own b (q.length % 4) addr (regBytes b.wide)) :
    (writeReg64 b.wide addr value).Always (ring b) (Safe b)
      (fun _ => Filling b q p (write m addr (leBytes (regBytes b.wide) value))) h :=
  (always_storing hfill (by rw [length_leBytes]; exact ho)).seq fun _ _ ht => ht

/-! ## A send -/

/-- The number of bytes beside the flags of CNTL. -/
theorem length_cntl {n : Nat} (h : n < 2 ^ 26) : (0x0C000000 ||| n) % 256 ^ 4 &&& 0x3FFFFFF = n := by
  have hor : 0x0C000000 ||| n = 2 ^ 26 * 3 + n := (Nat.two_pow_add_eq_or_of_lt h 3).symm
  rw [hor, Nat.mod_eq_of_lt (by omega), show 0x3FFFFFF = 2 ^ 26 - 1 from rfl, Nat.and_two_pow_sub_one_eq_mod]
  omega

/-- What the driver has written to entry `i`, behind what it held. -/
def filled (b : Bus) (i : Nat) (l : List UInt8) (m : ByteMem) : ByteMem :=
  write
    (write
      (write (write m (b.ipkt i) l) (b.idesc i + regDescBuff) (leBytes (regBytes b.wide) (b.axi (b.ipkt i))))
      (b.idesc i + regDescCntl) (leBytes 4 (0x0C000000 ||| l.length)))
    (b.idesc i + regDescSts) (leBytes 4 0)

theorem loaded_filled (hb : b.Fits) {i : Nat} (hi : i < 4) {l : List UInt8} (hsize : l.length ≤ 1040) (m : ByteMem) :
    Loaded b (filled b i l m) i l ∧ stsOf (filled b i l m) (b.idesc i) = 0 := by
  have hw := regBytes_le b.wide
  have hpkt : b.ipkt i < b.buffer + 0x2280 := by unfold Bus.ipkt; omega
  refine ⟨⟨?_, ?_, ?_⟩, ?_⟩
  · unfold buffOf filled
    rw [slice_write_of_disjoint _ (by unfold regDescBuff regDescSts; omega),
      slice_write_of_disjoint _ (by unfold regDescBuff regDescCntl; omega), ofLe_write, Bus.axi_mod hb hpkt]
  · unfold lengthOf cntlOf filled
    rw [slice_write_of_disjoint _ (by unfold regDescCntl regDescSts; omega), ofLe_write, length_cntl (by omega)]
  · unfold filled
    rw [slice_write_of_disjoint _ (by rw [length_leBytes]; unfold Bus.ipkt Bus.idesc regDescSts; omega),
      slice_write_of_disjoint _ (by rw [length_leBytes]; unfold Bus.ipkt Bus.idesc regDescCntl; omega),
      slice_write_of_disjoint _ (by rw [length_leBytes]; unfold Bus.ipkt Bus.idesc regDescBuff; omega), slice_write]
  · unfold stsOf filled
    rw [ofLe_write]
    rfl

/-- TAIL is written: the DMA holds another packet. -/
theorem Sound.posting (hs : Sound b f) (hroom : postCount f < sentCount f + 4)
    (hload : Loaded b f.mem (postCount f % 4) f.engine.pending) (hsts : stsOf f.mem (b.idesc (postCount f % 4)) = 0)
    (hsize : f.engine.pending.length ≤ 1040) {tail : Nat} (htail : tail = b.axi (b.idesc (postCount f % 4))) :
    let e := f.engine
    Sound b { f with
      ingressTail := tail, engine := { e with running := true, posted := e.posted ++ [e.pending] } } := by
  intro e
  have hle := hs.le
  have hlength : (f.engine.posted ++ [f.engine.pending]).length = postCount f + 1 := List.length_append
  refine ⟨hs.order.trans (List.prefix_append _ _), ?_, ?_, hs.cur, ?_, ?_, hs.chain, ?_, ?_, ?_⟩
  · show (f.engine.posted ++ [f.engine.pending]).length ≤ sentCount f + 4
    rw [hlength]
    omega
  · intro l hl
    rcases List.mem_append.mp hl with hl | hl
    · exact hs.sizes l hl
    · rw [List.mem_singleton] at hl
      rw [hl]
      exact hsize
  · show true = decide (sentCount f < (f.engine.posted ++ [f.engine.pending]).length)
    rw [hlength]
    exact (decide_eq_true (Nat.lt_succ_of_le hle)).symm
  · intro _
    show tail = b.axi (b.idesc (((f.engine.posted ++ [f.engine.pending]).length - 1) % 4))
    rw [hlength, htail, Nat.add_sub_cancel]
  · intro k l hk hkl
    rcases Nat.lt_or_ge k (postCount f) with hlt | hge
    · rw [List.getElem?_append_left hlt] at hkl
      exact hs.given k l hk hkl
    · have hk' : k < (f.engine.posted ++ [f.engine.pending]).length := (List.getElem?_eq_some_iff.mp hkl).1
      rw [hlength] at hk'
      obtain rfl : k = postCount f := by omega
      rw [postCount, List.getElem?_concat_length] at hkl
      rw [← Option.some.inj hkl]
      exact hload
  · intro j hj
    obtain ⟨l, hw⟩ := hs.job j hj
    have hlt : sentCount f < postCount f := (List.getElem?_eq_some_iff.mp hw.packet).1
    refine ⟨l, ?_, hw.next, hw.buff, hw.sent, hw.left⟩
    exact (List.getElem?_append_left hlt).trans hw.packet
  · intro i hi
    have hi' : Holds 4 (sentCount f) (postCount f + 1) i := by
      rw [← hlength]
      exact hi
    rcases (holds_push hle).mp hi' with hold | rfl
    · exact hs.held i hold
    · exact hsts

theorem Free.posting (hf : Free b true f) (hs : Sound b f) {tail : Nat} :
    let e := f.engine
    Free b false { f with
      ingressTail := tail, engine := { e with running := true, posted := e.posted ++ [e.pending] } } := by
  intro e i hi hfree _
  have hlength : (f.engine.posted ++ [f.engine.pending]).length = postCount f + 1 := List.length_append
  have hnot : ¬ Holds 4 (sentCount f) (postCount f + 1) i := by
    rw [← hlength]
    exact hfree
  rw [holds_push hs.le, not_or] at hnot
  exact hf i hi hnot.1 fun _ => hnot.2

/-- `HSDP_NEXT`: the entry of the next packet. -/
theorem next_idesc (hb : b.Fits) (n : Nat) : (b.dma (-1) (-1) (lastIndex n) 3).idesc.next = n % 4 := by
  have hring : RingOf 4 b.wide (b.dma (-1) (-1) (lastIndex n) 3).idesc := (rings_hsdpSetup b hb).idesc.last _
  refine hring.next_of_last (by decide) (by decide) ?_
  show lastIndex n = lastOf 4 n
  cases n <;> rfl

/-- The wait, and what it says of STS when the descriptor became available. The DMA acts, and nothing else does. -/
theorem awaitDesc_rule {I : Hsdp Mm2s → Prop} (hI : ∀ f, ReflTransGen (Mm2s.Step b) h.fabric f →
    I { h with fabric := f })
    (desc polls : Nat) :
    (awaitDesc (desc + regDescSts) polls).Always (ring b) I
      (fun available t => ∃ f, ReflTransGen (Mm2s.Step b) h.fabric f ∧ t = { h with fabric := f } ∧
        (available = true → stsOf f.mem desc ≠ 0)) h := by
  induction polls generalizing h with
  | zero => exact ⟨h.fabric, .refl, rfl, fun ha => by cases ha⟩
  | succ polls ih =>
    rw [awaitDesc]
    have hread : (readReg (desc + regDescSts)).Always (ring b) I
        (fun status t => ∃ f, ReflTransGen (Mm2s.Step b) h.fabric f ∧ t = { h with fabric := f } ∧
          status = stsOf f.mem desc) h :=
      fun f hf => ⟨hI f hf, f, hf, rfl, rfl⟩
    refine hread.seq fun status t ht => ?_
    obtain ⟨f, hf, rfl, rfl⟩ := ht
    split
    · next herror =>
      refine ⟨f, hf, rfl, fun _ hzero => herror ?_⟩
      rw [hzero]
      rfl
    · split
      · next hdone =>
        refine ⟨f, hf, rfl, fun _ hzero => hdone ?_⟩
        rw [hzero]
        rfl
      · refine (ih (h := { h with fabric := f }) fun f' hf' => hI f' (hf.trans hf')).mono fun available t ht => ?_
        obtain ⟨f', hf', rfl, hsts⟩ := ht
        exact ⟨f', hf.trans hf', rfl, hsts⟩

/-- The write of TAIL. -/
theorem Filling.posting (hb : b.Fits) {q : List (List UInt8)} {p : List UInt8} (hsize : p.length ≤ 1040) {m : ByteMem}
    (hfill : Filling b q p (filled b (q.length % 4) p m) h) (hf : ReflTransGen (Mm2s.Step b) h.fabric f) {tail : Nat}
    (htail : tail = b.axi (b.idesc (q.length % 4))) :
    let t := post (h.access (.ingressTail tail) f)
    Safe b t ∧ Inv b { t with dma := { t.dma with idesc := { t.dma.idesc with last := (q.length % 4 : Nat) } } } ∧
      t.fabric.engine.posted = q ++ [p] := by
  intro t
  have hcount := (hfill.steps hf).count
  obtain ⟨⟨hsound, -⟩, hfree, hposted, hroom, hpending, hview, hdma, hwide⟩ := hfill.steps hf
  simp only at hsound hfree hposted hcount hroom hpending hview hdma hwide
  have hmod : q.length % 4 < 4 := Nat.mod_lt _ (by decide)
  obtain ⟨hload, hsts⟩ := loaded_filled hb hmod hsize m
  -- What it has written is still there.
  have hload' : Loaded b f.mem (q.length % 4) p := hload.congr hsize fun x hx => hview x (by unfold Entry; omega)
  have hsts' : stsOf f.mem (b.idesc (q.length % 4)) = 0 :=
    (stsOf_congr fun x h1 h2 => hview x (.inl ⟨by omega, by omega⟩)).trans hsts
  rw [← hcount] at hload' hsts' htail hroom
  rw [← hpending] at hload' hsize
  have hsafe : Safe b t := by
    refine ⟨hsound.posting hroom hload' hsts' hsize htail, fun addr count hlast => ?_⟩
    rw [show t.log = h.log ++ [.ingressTail tail] from rfl, List.getLast?_concat] at hlast
    cases hlast
  refine ⟨hsafe, ⟨⟨hsafe.sound, hsafe.stored⟩, hfree.posting hsound, ?_, hwide⟩, ?_⟩
  · have hcount' : postCount t.fabric = q.length + 1 := by
      rw [← hcount]
      exact List.length_append
    show HsdpDma.mk h.dma.ipkts h.dma.epkts { h.dma.idesc with last := (q.length % 4 : Nat) } h.dma.edesc =
      b.dma (-1) (-1) (lastIndex (postCount t.fabric)) 3
    rw [hcount', hdma]
    rfl
  · show f.engine.posted ++ [f.engine.pending] = _
    rw [hposted, hpending]

/-- The driver's accesses to the entry that it fills, and TAIL. -/
theorem fillDesc_inv (hb : b.Fits) {s : Hsdp Mm2s} {q : List (List UInt8)} {p : List UInt8} (hsize : p.length ≤ 1040)
    {m : ByteMem} (hdma : s.dma = b.dma (-1) (-1) (lastIndex q.length) 3) (hwide : s.wide = b.wide)
    (hfill : Filling b q p m h) :
    (fillDesc s (q.length % 4) p).Always (ring b) (Safe b)
      (fun _ t => Inv b t ∧ t.fabric.engine.posted = q ++ [p]) h := by
  have hw := regBytes_le b.wide
  have htail : (b.dma (-1) (-1) (lastIndex q.length) 3).idesc.axiAddr (q.length % 4) % 256 ^ regBytes b.wide =
      b.axi (b.idesc (q.length % 4)) := by
    rw [b.axiAddr_idesc, Bus.axi_mod hb (by unfold Bus.idesc; omega)]
  unfold fillDesc
  rw [hdma, hwide]
  simp only [b.entry_idesc, b.entry_ipkts, b.axiAddr_ipkts]
  refine (copyIn_filling p hfill (.inl ⟨Nat.le_refl _, by omega⟩)).seq fun _ t ht => ?_
  refine (writeReg64_filling ht (.inr ⟨by unfold regDescBuff; omega, by unfold regDescBuff; omega⟩)).seq
    fun _ t ht => ?_
  refine (writeReg_filling ht (.inr ⟨by unfold regDescCntl; omega, by unfold regDescCntl; omega⟩)).seq fun _ t ht => ?_
  refine (writeReg_filling ht (.inr ⟨by unfold regDescSts; omega, by unfold regDescSts; omega⟩)).seq fun _ t ht => ?_
  have hread : (readReg (b.idesc (q.length % 4) + regDescSts)).Always (ring b) (Safe b)
      (fun _ => Filling b q p (filled b (q.length % 4) p m)) t :=
    fun f hf => ⟨(ht.steps hf).safe, ht.steps hf⟩
  refine hread.seq fun _ t ht => ?_
  simp only [always_ask_bind, always_modify]
  intro f hf
  obtain ⟨hsafe, hinv, hposted⟩ := ht.posting hb hsize hf htail
  exact ⟨hsafe, hinv.safe, hinv, hposted⟩

theorem Inv.logged (hinv : Inv b h) (wordCount : Nat) : Inv b { h with log := h.log ++ [.send wordCount] } := by
  refine ⟨⟨hinv.safe.sound, fun addr count hlast => ?_⟩, hinv.free, hinv.dma, hinv.wide⟩
  rw [List.getLast?_concat] at hlast
  cases hlast

theorem Sound.pend (hs : Sound b h.fabric) (p : Packet) : Sound b (p.pend h).fabric where
  order := hs.order
  room := hs.room
  sizes := hs.sizes
  cur := hs.cur
  running := hs.running
  tail := hs.tail
  chain := hs.chain
  given := hs.given
  job j hj := by
    obtain ⟨l, hw⟩ := hs.job j hj
    exact ⟨l, hw.packet, hw.next, hw.buff, hw.sent, hw.left⟩
  held := hs.held

theorem Inv.pend (hinv : Inv b h) (p : Packet) : Inv b (p.pend h) :=
  ⟨⟨hinv.safe.sound.pend p, hinv.safe.stored⟩, hinv.free, hinv.dma, hinv.wide⟩

/-- **A call.** -/
theorem send_inv (hb : b.Fits) {p : Packet} (hsize : p.bytes.length ≤ 1040) (hinv : Inv b h) :
    (send p).Always (ring b) (Safe b) (fun ret t => Inv b t ∧ Outcome b p h ret t) h := by
  have hlog := (hinv.pend p).logged p.wordCount
  have hnext : (p.pend h).dma.idesc.next = postCount (p.pend h).fabric % 4 := by rw [(hinv.pend p).dma, next_idesc hb]
  have hentry : ∀ i, (p.pend h).dma.idesc.entry i = b.idesc i := fun i => by rw [(hinv.pend p).dma, b.entry_idesc]
  unfold send hsdpSendPacket
  simp only [always_modify_bind, always_read_bind, hnext, hentry]
  refine ⟨(hinv.pend p).safe, hlog.safe, (awaitDesc_rule (h := { p.pend h with log := h.log ++ [.send p.wordCount] })
    (fun f hf => (hlog.steps hf).safe) _ _).seq fun available t ht => ?_⟩
  obtain ⟨f, hf, rfl, hsts⟩ := ht
  have hlater := ((hinv.pend p).safe.sound.steps hf).2.1
  have hinv' := hlog.steps hf
  cases available with
  | false => exact ⟨hinv', .inr ⟨rfl, f, hf, rfl⟩⟩
  | true =>
    -- The descriptor is done, so the DMA does not hold it.
    have hroom : postCount f < sentCount f + 4 := by
      refine lt_of_not_holds_next hinv'.safe.sound.room (by decide) fun hheld => hsts rfl ?_
      rw [← hlater.postCount]
      exact hinv'.safe.sound.held _ hheld
    have hfill : Filling b f.engine.posted p.bytes f.mem
        { p.pend h with fabric := f, log := h.log ++ [.send p.wordCount] } :=
      ⟨hinv'.safe, fun i hi hfree _ => hinv'.free i hi hfree (fun hfalse => by cases hfalse), rfl, hroom,
        hlater.pending, fun _ _ => rfl, hinv'.dma, hinv'.wide⟩
    have hrule := fillDesc_inv hb (s := { p.pend h with log := h.log ++ [.send p.wordCount] }) hsize hinv'.dma hinv.wide
      hfill
    rw [← hlater.postCount]
    refine hrule.seq fun _ t ht => ⟨ht.1, .inl ⟨rfl, ?_⟩⟩
    rw [ht.2, hlater.posted]
    rfl

/-- A wait that is given up has found the descriptor not done each time. -/
theorem awaitDesc_polls {addr polls : Nat} {log : List (Σ c, Found Mm2s c)} {t : Hsdp Mm2s}
    (hrun : (awaitDesc addr polls).Finishes (ring b) h log false t) :
    log.length = polls ∧ ∀ e ∈ log, e.1 = .read addr ∧ ReflTransGen (Mm2s.Step b) h.fabric e.2 ∧
      (ofLe (slice e.2.mem addr 4) >>> 31) &&& 1 = 0 := by
  induction polls generalizing h log with
  | zero =>
    obtain ⟨rfl, -, -⟩ := finishes_pure.mp hrun
    exact ⟨rfl, fun e he => absurd he List.not_mem_nil⟩
  | succ polls ih =>
    rw [awaitDesc] at hrun
    obtain ⟨l, status, u, l', hread, hrest, rfl⟩ := hrun.of_bind
    obtain ⟨f, _, hf, rfl, hdone⟩ := finishes_ask_bind.mp hread
    obtain ⟨rfl, rfl, rfl⟩ := finishes_pure.mp hdone
    split at hrest
    · exact absurd (finishes_pure.mp hrest).2.1 Bool.false_ne_true
    · split at hrest
      · exact absurd (finishes_pure.mp hrest).2.1 Bool.false_ne_true
      · next hnot =>
        obtain ⟨hlen, hpolls⟩ := ih hrest
        refine ⟨congrArg Nat.succ hlen, List.forall_mem_cons.mpr ⟨⟨rfl, hf, not_not.mp hnot⟩, fun e he => ?_⟩⟩
        obtain ⟨hread, hsteps, hsts⟩ := hpolls e he
        exact ⟨hread, hf.trans hsteps, hsts⟩

/-- The descriptors that the DMA holds are those that it has been given, by its own registers. -/
theorem Sound.owns_of_held (hs : Sound b f) {k : Nat} (hlo : sentCount f ≤ k) (hhi : k < postCount f) :
    Owns b f (b.axi (b.idesc (k % 4))) := by
  induction k, hlo using Nat.le_induction with
  | base =>
    rw [← hs.cur]
    exact .cur (by rw [hs.running]; exact decide_eq_true hhi)
  | succ k hlo ih =>
    have hroom := hs.room
    have hmod : k % 4 < 4 := Nat.mod_lt _ (by decide)
    have htail : b.axi (b.idesc (k % 4)) ≠ f.ingressTail := by
      rw [hs.tail (by omega), ne_eq, b.axi_inj (by unfold Bus.idesc; omega) (by unfold Bus.idesc; omega)]
      unfold Bus.idesc
      omega
    have hnext := Owns.next (ih (by omega)) htail
    rwa [b.reach_axi (by unfold Bus.idesc; omega), hs.chain _ hmod, Nat.mod_add_mod] at hnext

/-- **A call that returns -1** has found the DMA to hold the next descriptor, whenever it looked. -/
theorem send_busy (hb : b.Fits) {p : Packet} (hinv : Inv b h) {log : List (Σ c, Found Mm2s c)} {t : Hsdp Mm2s}
    (hrun : (send p).Finishes (ring b) h log (-1) t) : Busy b h log := by
  have hlog := (hinv.pend p).logged p.wordCount
  have hnext : h.dma.idesc.next = postCount h.fabric % 4 := by rw [hinv.dma, next_idesc hb]
  have hentry : ∀ i, h.dma.idesc.entry i = b.idesc i := fun i => by rw [hinv.dma, b.entry_idesc]
  have haddr : ∀ i, h.dma.idesc.axiAddr i = b.axi (b.idesc i) := fun i => by rw [hinv.dma, b.axiAddr_idesc]
  unfold send hsdpSendPacket at hrun
  have hbody := finishes_read_bind.mp (finishes_modify_bind.mp (finishes_modify_bind.mp hrun))
  obtain ⟨l, available, u, l', hwait, hrest, rfl⟩ := Finishes.of_bind hbody
  cases available with
  | true =>
    obtain ⟨_, _, _, _, -, hret, -⟩ := Finishes.of_bind hrest
    exact absurd (finishes_pure.mp hret).2.1 (by decide)
  | false =>
    obtain ⟨rfl, -, -⟩ := finishes_pure.mp hrest
    rw [List.append_nil]
    obtain ⟨hlen, hpolls⟩ := awaitDesc_polls hwait
    refine ⟨hlen, fun e he => ?_⟩
    obtain ⟨hread, hsteps, hsts⟩ := hpolls e he
    refine ⟨hread, ?_⟩
    -- It is not done, so the DMA holds it.
    have hafter := hlog.steps hsteps
    have hheld : Held e.2 (postCount h.fabric % 4) := by
      by_contra hfree
      have hdone := hafter.free _ (Nat.mod_lt _ (by decide)) hfree Bool.noConfusion
      have hzero : (stsOf e.2.mem (b.idesc (postCount h.fabric % 4)) >>> 31) &&& 1 = 0 := by
        rw [← hnext, ← hentry]
        exact hsts
      rw [hdone] at hzero
      exact absurd hzero (by decide)
    obtain ⟨k, hlo, hhi, hk⟩ := hheld
    rw [haddr, hnext, ← hk]
    exact hafter.safe.sound.owns_of_held hlo hhi

end Accesses

/-! ## Runs -/

theorem Sound.inOrder {b : Bus} {f : Fabric Mm2s} (h : Sound b f) : InOrder f := by
  refine ⟨h.order, fun j hj => ?_⟩
  obtain ⟨l, hw⟩ := h.job j hj
  exact ⟨l, prefix_snoc h.order hw.packet, hw.sent⟩

/-- What the DMA owns, by its own registers and descriptors, is what it holds. -/
theorem Sound.owns {b : Bus} {f : Fabric Mm2s} (h : Sound b f) {desc : Nat} (ho : Owns b f desc) :
    ∃ k, sentCount f ≤ k ∧ k < postCount f ∧ desc = b.axi (b.idesc (k % 4)) := by
  induction ho with
  | cur hrun =>
    rw [h.running] at hrun
    exact ⟨sentCount f, Nat.le_refl _, of_decide_eq_true hrun, h.cur⟩
  | next _ hne ih =>
    obtain ⟨k, hlo, hhi, rfl⟩ := ih
    have hlast : k ≠ postCount f - 1 := fun heq => hne (by rw [h.tail (by omega), heq])
    refine ⟨k + 1, by omega, by omega, ?_⟩
    rw [b.reach_axi (by unfold Bus.idesc; omega), h.chain _ (Nat.mod_lt _ (by decide)), Nat.mod_add_mod]

theorem Sound.ownsByte {b : Bus} {f : Fabric Mm2s} (h : Sound b f) {x : Nat} (ho : OwnsByte b f x) :
    ∃ i, Held f i ∧ Entry b i x := by
  obtain ⟨desc, howns, hx⟩ := ho
  obtain ⟨k, hlo, hhi, rfl⟩ := h.owns howns
  have hload := h.given k _ hlo (List.getElem?_eq_getElem hhi)
  rw [b.reach_axi (by unfold Bus.idesc; omega), hload.buff, b.reach_axi (by unfold Bus.ipkt; omega)] at hx
  refine ⟨k % 4, holds_of_mem hlo hhi, ?_⟩
  unfold dmaDescSize dmaPacketBuffSizeDefault at hx
  exact hx

theorem inv_open {b : Bus} (hb : b.Fits) (m : ByteMem) : Inv b (hsdpOpen b Mm2s.reset m) := by
  obtain ⟨hengine, -⟩ := hsdpOpen_registers b Mm2s.reset m hb
  have hsent : sentCount (hsdpOpen b Mm2s.reset m).fabric = 0 := by rw [sentCount, hengine]; rfl
  have hposted : (hsdpOpen b Mm2s.reset m).fabric.engine.posted = [] := by rw [hengine]; rfl
  have hpost : postCount (hsdpOpen b Mm2s.reset m).fabric = 0 := by rw [postCount, hposted]; rfl
  have hnone : ∀ i, ¬ Held (hsdpOpen b Mm2s.reset m).fabric i := by
    rintro i ⟨k, -, hk, -⟩
    rw [hpost] at hk
    exact Nat.not_lt_zero k hk
  refine ⟨⟨⟨?_, ?_, ?_, ?_, ?_, ?_, ?_, ?_, ?_, ?_⟩, ?_⟩, ?_, ?_, rfl⟩
  · rw [hengine]
    exact List.nil_prefix
  · rw [hpost]
    exact Nat.zero_le _
  · rw [hposted]
    intro l hl
    cases hl
  · rw [hsent, hengine]
    rfl
  · rw [hsent, hpost, hengine]
    rfl
  · rw [hpost]
    exact fun h => absurd h (Nat.lt_irrefl 0)
  · exact fun i hi => (open_idesc b Mm2s.reset m hb hi).1
  · rw [hposted]
    intro k l _ hkl
    cases hkl
  · rw [hengine]
    intro j hj
    cases hj
  · exact fun i hi => absurd hi (hnone i)
  · intro addr count hlast
    cases hlast
  · exact fun i hi _ _ => (open_idesc b Mm2s.reset m hb hi).2
  · rw [hpost]
    exact hsdpOpen_dma b Mm2s.reset m

/-- **The ingress ring.** In every run of sends after `hsdp_setup_dma`, with steps of the DMA between any two
accesses: what goes out is a beginning, in order and byte for byte, of the packets whose calls have written TAIL; no
byte is written that the DMA owns by then; and a call either returns 0 and has given its packet, or returns -1, has
found the DMA to hold the next descriptor each of the 1000 times that it looked, and has done nothing. -/
theorem exactly_once (b : Bus) (hb : b.Fits) (m : ByteMem) {c : Hsdp Mm2s × HsdpProg Mm2s Unit}
    (h : (sends b).Reaches (hsdpOpen b Mm2s.reset m) c) :
    (∀ f, ReflTransGen (Mm2s.Step b) c.1.fabric f → InOrder f) ∧
      (∀ addr l k, c.2 = .call (.write addr l) k → ∀ f, ReflTransGen (Mm2s.Step b) c.1.fabric f →
        ∀ x, addr ≤ x → x < addr + l.length → ¬ OwnsByte b f x) ∧
      (c.2 = .done () → ∀ p, (sends b).may c.1 p → ∀ log ret t, (send p).Finishes (ring b) c.1 log ret t →
        Outcome b p c.1 ret t ∧ (ret = -1 → Busy b c.1 log)) := by
  have hcall : ∀ s p, Inv b s → (sends b).may s p →
      (send p).Always (ring b) (Safe b) (fun ret t => Inv b t ∧ Outcome b p s ret t) s := by
    intro s p hinv hmay
    have hsize : s.dma.ipkts.packetSize = 1040 := by rw [hinv.dma]; rfl
    exact send_inv hb (by rw [← hsize]; exact hmay.2) hinv
  have hkeep : ∀ s p, Inv b s → (sends b).may s p → ((sends b).body p).Always (ring b) (Safe b) (fun _ => Inv b) s :=
    fun s p hinv hmay => (hcall s p hinv hmay).seq fun _ _ ht => ht.1
  obtain ⟨hsafe, hrest⟩ := Session.invariant (S := sends b) (fun _ hinv => hinv.safe) hkeep (inv_open hb m) h
  obtain ⟨s, prog⟩ := c
  refine ⟨fun f hf => (hsafe.sound.steps hf).1.inOrder, ?_, ?_⟩
  · rintro addr l k rfl f hf x h1 h2 ho
    obtain ⟨i, hi, hx⟩ := (hsafe.sound.steps hf).1.ownsByte ho
    exact (hrest f hf).1.stored addr l.length List.getLast?_concat x h1 h2 i hi hx
  · rintro rfl p hmay log ret t hrun
    refine ⟨((hcall s p hrest hmay).at_end hrun).2, ?_⟩
    rintro rfl
    exact send_busy hb hrest hrun

/-! ### A run -/

/-- The next step of the DMA, if there is one. -/
def Mm2s.act (b : Bus) (f : Fabric Mm2s) : Fabric Mm2s :=
  match f.engine.job with
  | some j => if 0 < j.left then Mm2s.emit b f j else Mm2s.complete b f j
  | none => if f.engine.running = true then Mm2s.fetch b f else f

theorem Mm2s.act_step (b : Bus) (f : Fabric Mm2s) : ReflGen (Mm2s.Step b) f (Mm2s.act b f) := by
  unfold Mm2s.act
  split
  · next j hjob =>
    split
    · next hleft => exact .single (.emit hjob hleft)
    · next hleft => exact .single (.complete hjob (Nat.eq_zero_of_not_pos hleft))
  · next hjob =>
    split
    · next hrun => exact .single (.fetch hrun hjob)
    · exact .refl

/-- The DMA takes `steps k` steps before access `k`. -/
def tapeOf (b : Bus) (steps : Nat → Nat) : Tape (Hsdp Mm2s) Access (Found Mm2s) :=
  fun k _ h => (Mm2s.act b)^[steps k] h.fabric

theorem tapeOf_answers (b : Bus) (steps : Nat → Nat) (k : Nat) (c : Access) (h : Hsdp Mm2s) :
    (ring b).answers c (tapeOf b steps k c h) h :=
  Machine.iterate_steps (fun f => (Mm2s.act_step b f).to_reflTransGen) (steps k) h.fabric

/-- A packet of one word, and one of two. -/
def oneWord : Packet := ⟨fun _ => 5, 0, 1⟩
def twoWords : Packet := ⟨fun i => .ofNat i, 0, 2⟩

/-- A send of `p` to its end. -/
def sendTo (tape : Tape (Hsdp Mm2s) Access (Found Mm2s)) (p : Packet) (x : Played (Hsdp Mm2s)) : Played (Hsdp Mm2s) :=
  (((sends boardBus).body p).play (ring boardBus) tape x).2

def opened : Played (Hsdp Mm2s) := ⟨hsdpOpen boardBus Mm2s.reset fun _ => 0, 0, True⟩

/-- A run of sends has come to `x`. -/
def Reached (x : Played (Hsdp Mm2s)) : Prop := (sends boardBus).Reaches opened.state (x.state, .done ()) ∧ x.lawful

theorem Reached.sendTo {x : Played (Hsdp Mm2s)} (h : Reached x) (steps : Nat → Nat) {p : Packet}
    (hmay : 4 ≤ p.bytes.length ∧ p.bytes.length ≤ x.state.dma.ipkts.packetSize) :
    Reached (sendTo (tapeOf boardBus steps) p x) := by
  have hlawful := play_lawful (tapeOf_answers boardBus steps) ((sends boardBus).body p) h.2
  exact ⟨h.1.plays hmay hlawful, hlawful⟩

theorem Reached.finishes {x : Played (Hsdp Mm2s)} (h : Reached x) {steps : Nat → Nat} {p : Packet} {ret : Int}
    (hret : ((send p).play (ring boardBus) (tapeOf boardBus steps) x).1 = ret) :
    ∃ log t, (send p).Finishes (ring boardBus) x.state log ret t := by
  obtain ⟨-, hrun⟩ := play_finishes _ (play_lawful (tapeOf_answers boardBus steps) (send p) h.2)
  exact ⟨_, _, hret ▸ hrun⟩

/-- The DMA waits until a packet has been given, sends two bytes of it before the next poll, and goes on then. -/
def slowly : Nat → Nat := fun k => if k < 10 then 0 else if k = 10 then 3 else 1

def firstSent : Played (Hsdp Mm2s) := sendTo (tapeOf boardBus slowly) oneWord opened

/-- The second send, about to copy its first byte. -/
def secondCopies : HsdpProg Mm2s Unit × Played (Hsdp Mm2s) :=
  ((sends boardBus).body twoWords).walk (ring boardBus) (tapeOf boardBus slowly) 4 firstSent

def bothSent : Played (Hsdp Mm2s) := sendTo (tapeOf boardBus slowly) twoWords firstSent

/-- The DMA takes no step. -/
def idle : Nat → Nat := fun _ => 0

/-- Two more packets, and two more. -/
def twoMore (x : Played (Hsdp Mm2s)) : Played (Hsdp Mm2s) :=
  sendTo (tapeOf boardBus idle) twoWords (sendTo (tapeOf boardBus idle) oneWord x)

/-- Four packets have been given, and none has gone out. -/
def ringFull : Played (Hsdp Mm2s) := twoMore (twoMore opened)

theorem reached_firstSent : Reached firstSent :=
  Reached.sendTo (x := opened) ⟨.refl, trivial⟩ slowly (by decide +kernel)

theorem reached_ringFull : Reached ringFull := by
  have hopened : Reached opened := ⟨.refl, trivial⟩
  have htwo := (hopened.sendTo idle (p := oneWord) (by decide +kernel)).sendTo idle (p := twoWords) (by decide +kernel)
  exact (htwo.sendTo idle (p := oneWord) (by decide +kernel)).sendTo idle (p := twoWords) (by decide +kernel)

/-- A send while the packet before it goes out; the two packets when they have gone out; and a send that finds four
packets in the ring. -/
theorem exactly_once_twoSends :
    (secondCopies.2.state.fabric.engine.job.map Transfer.sent = some [5, 5] ∧
      secondCopies.1.awaits = some (.write (boardBus.ipkt 1) [0]) ∧
      ¬ OwnsByte boardBus secondCopies.2.state.fabric (boardBus.ipkt 1)) ∧
    (((Mm2s.act boardBus)^[20] bothSent.state.fabric).engine.transmitted = [[5, 5, 5, 5], [0, 1, 2, 3, 4, 5, 6, 7]] ∧
      InOrder ((Mm2s.act boardBus)^[20] bothSent.state.fabric)) ∧
    ∃ log t, (send oneWord).Finishes (ring boardBus) ringFull.state log (-1) t ∧
      Outcome boardBus oneWord ringFull.state (-1) t ∧ Busy boardBus ringFull.state log := by
  have hopen := fun {c} => exactly_once boardBus boardBus_fits (fun _ => 0) (c := c)
  refine ⟨⟨by decide +kernel, by decide +kernel, ?_⟩, ⟨by decide +kernel, ?_⟩, ?_⟩
  · obtain ⟨k, hk⟩ := exists_call (show secondCopies.1.awaits = some (.write (boardBus.ipkt 1) [0]) by decide +kernel)
    have hmay : (sends boardBus).may firstSent.state twoWords := (show 4 ≤ _ ∧ _ ≤ _ by decide +kernel)
    have hreached := (reached_firstSent.1.starts hmay).runs (walk_steps (tapeOf_answers boardBus slowly) 4 _ firstSent)
    exact (hopen hreached).2.1 _ _ k hk _ .refl _ (Nat.le_refl _) (Nat.lt_succ_self _)
  · exact (hopen (reached_firstSent.sendTo slowly (p := twoWords) (by decide +kernel)).1).1 _
      (Machine.iterate_steps (fun f => (Mm2s.act_step boardBus f).to_reflTransGen) 20 _)
  · have hret : ((send oneWord).play (ring boardBus) (tapeOf boardBus idle) ringFull).1 = -1 := by decide +kernel
    obtain ⟨log, t, hrun⟩ := reached_ringFull.finishes hret
    have hmay : (sends boardBus).may ringFull.state oneWord := (show 4 ≤ _ ∧ _ ≤ _ by decide +kernel)
    obtain ⟨hout, hbusy⟩ := (hopen reached_ringFull.1).2.2 rfl oneWord hmay log _ _ hrun
    exact ⟨log, t, hrun, hout, hbusy rfl⟩

end Transmit
end Dpc
end Xvc
