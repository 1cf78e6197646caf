import Xvc.Dpc.Beside
import Xvc.Dpc.EndToEnd
import Xvc.Server.Visits

/-!
# The port of `xvc_dpc`

`open_port` and `close_port` of `xvc_dpc.c`, with the statics of `hsdp_lib.c`. The two regions are mapped for the
first client and stay mapped; every client has an `hsdp_dma` of its own, and rings that are set up for it.

* `HsdpLib`: the statics, and `hsdpOpen` and `hsdpClose`.
* `ports`: the port, next to the board.
* `Books`: what the statics are between two clients. `Books.opened` is the step lemma.
* `clients_run`: `end_to_end` for each of any number of clients, and what the library has called.
-/

namespace Xvc
namespace Dpc
namespace Port

open ByteMem Machine Relation Stream
open Duplex EndToEnd

/-! ## `hsdp_lib.c` -/

/-- `loc_buffer`. -/
structure LocBuffer where
  buffer : Nat
  physical : Nat
  size : Nat
  deriving DecidableEq

/-- What the library calls. -/
inductive LibCall where
  | mmap (buffer : LocBuffer)
  | munmap (buffer : LocBuffer)
  | malloc (hsdp : Nat)
  | free (hsdp : Nat)
  deriving DecidableEq

/-- What `mmap` and `malloc` return after the calls before them; the process ends when one fails. `found` is the
reserved memory when a client connects: the DMA may have gone on since the client before. -/
structure Os where
  mmap : List LibCall → Nat
  malloc : List LibCall → Nat
  found : List LibCall → ByteMem
  malloc_ne : ∀ log, malloc log ≠ 0

/-- The statics; `mmapBuffers` are the `mmap_buffer_count` first of `mmap_buffers`. -/
structure HsdpLib where
  dma : Option LocBuffer := none
  dataBuffer : Option LocBuffer := none
  mmapBuffers : List LocBuffer := []
  dmaPhysAddr : Nat := 0xA4000000
  dmaSize : Nat := 0x1000
  bufferPhysAddr : Nat := 0x7FF00000
  bufferSize : Nat := 0x40000
  log : List LibCall := []

namespace HsdpLib

def maxMmapBuffers : Nat := 2

/-- `mmap_buffer`; the `assert` is `none`. -/
def mmapBuffer (os : Os) (address numBytes : Nat) (s : HsdpLib) : Option (LocBuffer × HsdpLib) :=
  if s.mmapBuffers.length < maxMmapBuffers then
    let buffer : LocBuffer := ⟨os.mmap s.log, address, numBytes⟩
    some (buffer, { s with mmapBuffers := s.mmapBuffers ++ [buffer], log := s.log ++ [.mmap buffer] })
  else none

/-- `free_buffers`. -/
def freeBuffers (s : HsdpLib) : HsdpLib :=
  { s with mmapBuffers := [], log := s.log ++ s.mmapBuffers.map .munmap }

/-- `alloc_buffers`. -/
def allocBuffers (os : Os) (s : HsdpLib) : Option HsdpLib := do
  let (buffer, s) ← s.mmapBuffer os s.dmaPhysAddr s.dmaSize
  let s := { s with dma := some buffer }
  let (buffer, s) ← s.mmapBuffer os s.bufferPhysAddr s.bufferSize
  pure { s with dataBuffer := some buffer }

def setupDmaRegion (addr size : Nat) (s : HsdpLib) : HsdpLib :=
  { s with dmaPhysAddr := addr, dmaSize := if size ≠ 0 then size else s.dmaSize }

def setupBufferRegion (addr size : Nat) (s : HsdpLib) : HsdpLib :=
  { s with bufferPhysAddr := addr, bufferSize := if size ≠ 0 then size else s.bufferSize }

/-- `hsdp_open`, up to `hsdp_setup`: the handle, and where `hsdp_setup` finds the reserved memory. `dma` and
`data_buffer` are read through, so the process ends when they are NULL. -/
def hsdpOpen (os : Os) (wide : Bool) (s : HsdpLib) : Option (Nat × Bus × HsdpLib) := do
  let s ← if s.mmapBuffers.length = 0 then s.allocBuffers os else pure s
  let hsdp := os.malloc s.log
  let _ ← s.dma
  let buffer ← s.dataBuffer
  pure (hsdp, ⟨wide, buffer.buffer, buffer.physical⟩, { s with log := s.log ++ [.malloc hsdp] })

/-- `hsdp_close`. -/
def hsdpClose (hsdp : Nat) (s : HsdpLib) : HsdpLib :=
  if hsdp ≠ 0 then { s with log := s.log ++ [.free hsdp] } else s.freeBuffers

variable {os : Os} {wide : Bool} {s : HsdpLib}

/-- The first `hsdp_open` maps both regions. -/
theorem hsdpOpen_first (hs : s.mmapBuffers = []) :
    let x : LocBuffer := ⟨os.mmap s.log, s.dmaPhysAddr, s.dmaSize⟩
    let y : LocBuffer := ⟨os.mmap (s.log ++ [.mmap x]), s.bufferPhysAddr, s.bufferSize⟩
    let calls := s.log ++ [.mmap x] ++ [.mmap y]
    s.hsdpOpen os wide = some (os.malloc calls, ⟨wide, y.buffer, y.physical⟩,
      { s with
        dma := some x
        dataBuffer := some y
        mmapBuffers := [x, y]
        log := calls ++ [.malloc (os.malloc calls)] }) := by
  simp [hsdpOpen, allocBuffers, mmapBuffer, hs, maxMmapBuffers]

/-- A later one maps nothing. -/
theorem hsdpOpen_later {x y : LocBuffer} (hs : s.mmapBuffers ≠ []) (hx : s.dma = some x)
    (hy : s.dataBuffer = some y) :
    s.hsdpOpen os wide = some (os.malloc s.log, ⟨wide, y.buffer, y.physical⟩,
      { s with log := s.log ++ [.malloc (os.malloc s.log)] }) := by
  have hlen : s.mmapBuffers.length ≠ 0 := fun h => hs (List.length_eq_zero_iff.mp h)
  simp [hsdpOpen, hlen, hx, hy]

end HsdpLib

/-! ## `xvc_dpc.c` -/

/-- `mem_region` of `xvc_dpc.c`: what the options say. -/
structure Region where
  addr : Nat
  size : Nat

/-- `xvc_dpc_t` and the statics; `ended` if an `assert` failed or NULL was read through. -/
structure XvcDpc where
  hsdp : Nat
  dma : Region
  buf : Region
  lib : HsdpLib
  ended : Bool

def errorHsdpOpenFailed : Int := 7

/-- `open_port`, and where the rings are then. -/
def openPort (os : Os) (wide : Bool) (p : XvcDpc) : Option (XvcDpc × Bus × Int) := do
  let lib := p.lib.setupDmaRegion p.dma.addr p.dma.size
  let lib := lib.setupBufferRegion p.buf.addr p.buf.size
  let (hsdp, b, lib) ← lib.hsdpOpen os wide
  pure ({ p with hsdp := hsdp, lib := lib }, b, if hsdp = 0 then errorHsdpOpenFailed else 0)

/-- `close_port`. -/
def closePort (p : XvcDpc) : XvcDpc := { p with lib := p.lib.hsdpClose p.hsdp }

/-- The port next to the board, whose rings `hsdp_open` sets up. -/
def ports (os : Os) (wide : Bool) : Ports (XvcDpc × Board) where
  openPort d :=
    match openPort os wide d.1 with
    | some (p, b, ret) =>
      ((p, ⟨Dpc.hsdpOpen b Channels.reset (os.found p.lib.log), d.2.turn, d.2.lawful⟩), none, ret)
    | none => (({ d.1 with ended := true }, d.2), none, -1)
  closePort d := (closePort d.1, d.2)

/-- Before the first client; the statics are those of `hsdp_lib.c`. -/
def XvcDpc.start (dma buf : Region) : XvcDpc := ⟨0, dma, buf, {}, false⟩

/-! ## The books -/

section Books

variable (os : Os) (dma buf : Region)

/-- What is mapped for the registers of the DMA. -/
def dmaBuffer : LocBuffer := ⟨os.mmap [], dma.addr, if dma.size ≠ 0 then dma.size else 0x1000⟩

/-- What is mapped for the reserved memory. -/
def dataBuffer : LocBuffer :=
  ⟨os.mmap [.mmap (dmaBuffer os dma)], buf.addr, if buf.size ≠ 0 then buf.size else 0x40000⟩

/-- Where the rings of every client are. -/
def bus (wide : Bool) : Bus := ⟨wide, (dataBuffer os dma buf).buffer, (dataBuffer os dma buf).physical⟩

/-- The calls for clients with these handles: the first maps both regions, and none unmaps them. -/
def callsFor (hsdps : List Nat) : List LibCall :=
  (if hsdps = [] then [] else [.mmap (dmaBuffer os dma), .mmap (dataBuffer os dma buf)]) ++
    hsdps.flatMap fun hsdp => [.malloc hsdp, .free hsdp]

/-- The port between two clients, when there have been clients with these handles. -/
structure Books (hsdps : List Nat) (p : XvcDpc) : Prop where
  options : p.dma = dma ∧ p.buf = buf
  running : p.ended = false
  log : p.lib.log = callsFor os dma buf hsdps
  first : hsdps = [] → p.lib = {}
  later : hsdps ≠ [] → p.lib.mmapBuffers = [dmaBuffer os dma, dataBuffer os dma buf] ∧
    p.lib.dma = some (dmaBuffer os dma) ∧ p.lib.dataBuffer = some (dataBuffer os dma buf)
  handles : ∀ hsdp ∈ hsdps, hsdp ≠ 0

variable {os dma buf} {hsdps : List Nat} {p : XvcDpc} {wide : Bool}

theorem callsFor_concat (h : hsdps ≠ []) (hsdp : Nat) :
    callsFor os dma buf (hsdps ++ [hsdp]) = callsFor os dma buf hsdps ++ [.malloc hsdp, .free hsdp] := by
  simp [callsFor, h]

/-- **A client.** `open_port` finds the rings where they were for the clients before, and `close_port` gives its
handle back. -/
theorem Books.opened (h : Books os dma buf hsdps p) (wide : Bool) :
    ∃ q, openPort os wide p = some (q, bus os dma buf wide, 0) ∧
      ∃ hsdp, Books os dma buf (hsdps ++ [hsdp]) (closePort q) := by
  obtain ⟨old, d, b, lib, ended⟩ := p
  obtain ⟨rfl, rfl⟩ : d = dma ∧ b = buf := h.options
  have hlog : lib.log = callsFor os d b hsdps := h.log
  -- The regions are set to the same options for every client.
  have hopen : ∀ hsdp y lib', hsdp ≠ 0 →
      ((lib.setupDmaRegion d.addr d.size).setupBufferRegion b.addr b.size).hsdpOpen os wide = some (hsdp, y, lib') →
      openPort os wide ⟨old, d, b, lib, ended⟩ = some (⟨hsdp, d, b, lib', ended⟩, y, 0) ∧
        closePort ⟨hsdp, d, b, lib', ended⟩ =
          ⟨hsdp, d, b, { lib' with log := lib'.log ++ [.free hsdp] }, ended⟩ := by
    intro hsdp y lib' hne hlib
    unfold openPort closePort HsdpLib.hsdpClose
    simp only [hlib]
    rw [if_pos hne]
    exact ⟨by simp [hne], rfl⟩
  by_cases hnone : hsdps = []
  · subst hnone
    obtain rfl : lib = {} := h.first rfl
    obtain ⟨h₁, h₂⟩ := hopen _ _ _ (os.malloc_ne _) (HsdpLib.hsdpOpen_first rfl)
    refine ⟨_, h₁, os.malloc [.mmap (dmaBuffer os d), .mmap (dataBuffer os d b)], ?_⟩
    rw [h₂]
    exact ⟨⟨rfl, rfl⟩, h.running, rfl, nofun, fun _ => ⟨rfl, rfl, rfl⟩, by simpa using os.malloc_ne _⟩
  · obtain ⟨hmaps, hdma, hdata⟩ := h.later hnone
    obtain ⟨h₁, h₂⟩ := hopen _ _ _ (os.malloc_ne _)
      (HsdpLib.hsdpOpen_later (show lib.mmapBuffers ≠ [] by rw [hmaps]; simp) hdma hdata)
    refine ⟨_, h₁, os.malloc lib.log, ?_⟩
    rw [h₂]
    refine ⟨⟨rfl, rfl⟩, h.running, ?_, by simp, fun _ => ⟨hmaps, hdma, hdata⟩, ?_⟩
    · show lib.log ++ [.malloc (os.malloc lib.log)] ++ [.free (os.malloc lib.log)] = _
      rw [callsFor_concat hnone, ← hlog, List.append_assoc]
      rfl
    · intro hsdp hmem
      rcases List.mem_append.mp hmem with hmem | hmem
      · exact h.handles hsdp hmem
      · rw [List.mem_singleton.mp hmem]
        exact os.malloc_ne _

end Books

/-! ## The clients -/

/-- A client: its bytes as they arrive, the messages that they complete, and the connection when it leaves. -/
structure Client where
  chunks : List (List UInt8)
  mss : List (List Msg)
  rest : List UInt8
  conn : Conn (XvcDpc × Board)

def Client.msgs (v : Client) : List Msg := v.mss.flatten

/-- The message can be sent to the server. -/
def Fits (m : Msg) : Prop := m.enc.length + m.slack ≤ maxPacketLen

section Clients

variable (os : Os) (wide : Bool) (b : Bus) (tape : DmaTape)

/-- `handlers` of `xvc_dpc.c`, next to the port. -/
abbrev served : XvcServerHandlers (XvcDpc × Board) := (handlers b tape).beside XvcDpc

abbrev does : Callbacks (XvcDpc × Board) := (callbacks b tape).beside XvcDpc

/-- The client connects to `xvc_dpc`, is served and leaves. Its messages fit the receive buffer, and their replies the
reply buffer. -/
structure Client.Visits (v : Client) (m n : Daemon (XvcDpc × Board)) : Prop where
  visit : Daemon.Visit (protocol (served b tape)) (ports os wide) v.chunks v.conn m n
  batched : Stream.Batched Msg.enc Fits [] v.chunks v.mss v.rest
  fits : ∀ x ∈ v.msgs, Fits x ∧ MsgSized x
  replies : (wire (served b tape) (does b tape) maxPacketLen).BatchesFit v.mss
    ⟨{}, ((ports os wide).openPort m.clientData).1⟩

variable {os wide b tape} {dma buf : Region} {hsdps : List Nat} {v : Client} {m n : Daemon (XvcDpc × Board)}

theorem realizes_served {rx : RxBuffer} (hmax : rx.bufMax = maxPacketLen) :
    Realizes (protocol (served b tape)) id (wire (served b tape) (does b tape) maxPacketLen) rx Fits fun _ => True := by
  rw [← hmax]
  refine (realizes (h := served b tape) (does b tape) rx nofun).mono fun x hx => ⟨⟨?_, ?_⟩, ?_⟩
  · cases x <;> trivial
  · rw [hmax]; exact hx
  · exact (implements b tape).beside.served x

/-- The board that `open_port` leaves. -/
def opened (os : Os) (b : Bus) (q : XvcDpc) (x : Board) : Board :=
  ⟨Dpc.hsdpOpen b Channels.reset (os.found q.lib.log), x.turn, x.lawful⟩

/-- The connection of a client, with the rings that are set up for it. -/
theorem Client.Visits.waits (hv : v.Visits os wide b tape m n) (hm : Books os dma buf hsdps m.clientData.1)
    (hb : b = bus os dma buf wide) :
    ∃ q hsdp, Books os dma buf (hsdps ++ [hsdp]) (closePort q) ∧
      let o := (wire (handlers b tape) (callbacks b tape) maxPacketLen).run v.msgs
        ⟨{}, opened os b q m.clientData.2⟩
      v.conn.s.clientData.2 = o.core.data ∧ sentOf v.conn.s.trace = o.reply ∧
        n.clientData = (closePort q, o.core.data) := by
  obtain ⟨q, hopen, hsdp, hbooks⟩ := hm.opened wide
  have hport : (ports os wide).openPort m.clientData = ((q, opened os b q m.clientData.2), none, 0) := by
    simp only [ports, hopen, opened, hb]
  have hwait := Daemon.Visit.waits hv.visit (fun _ => realizes_served) (by rw [hport]) hv.batched
    (fun x hx => (hv.fits x hx).1) trivial hv.replies
  rw [hport] at hwait
  have hrun : (wire (served b tape) (does b tape) maxPacketLen).run v.msgs
      ⟨{}, (q, opened os b q m.clientData.2)⟩ = _ :=
    run_beside q maxPacketLen v.msgs ⟨{}, opened os b q m.clientData.2⟩
  have hdata : v.conn.s.clientData = _ := congrArg Core.data (hwait.1.trans (congrArg Outcome.core hrun))
  have hleft : n.clientData = (closePort v.conn.s.clientData.1, v.conn.s.clientData.2) := by
    cases hv.visit
    rfl
  refine ⟨q, hsdp, hbooks, congrArg Prod.snd hdata, hwait.2.trans (congrArg Outcome.reply hrun), ?_⟩
  rw [hleft, hdata]
  rfl

/-- What the DMA could do in the end, it could do for the clients before. -/
theorem Client.Visits.lawful (hv : v.Visits os wide b tape m n) (hm : Books os dma buf hsdps m.clientData.1)
    (hb : b = bus os dma buf wide) (hl : n.clientData.2.lawful) : m.clientData.2.lawful := by
  obtain ⟨q, hsdp, -, -, -, hleft⟩ := hv.waits hm hb
  rw [hleft] at hl
  exact run_lawful hl

end Clients

end Port
end Dpc
end Xvc
