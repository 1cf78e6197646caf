import Xvc.Server.View

/-!
# `xvcserver_start`

The accept loop that both XVC 1.1 servers have: one connection at a time, in one static client record.
A `Daemon` is that loop as a machine. `Stage` is where it is, and its step is one call that the loop
makes, with any result, or one step of `read_packet`.
-/

namespace Xvc

open ByteMem

variable {σ : Type}

/-- The callbacks `open_port` and `close_port`. `open_port` may also set the client's error. -/
structure Ports (σ : Type) where
  openPort : σ → σ × Option (List UInt8) × Int
  closePort : σ → σ

/-- Where `xvcserver_start` is. -/
inductive Stage (σ : Type) where
  /-- At `accept`. -/
  | accept
  /-- `accept` returned `fd`. -/
  | accepted (fd : Nat)
  /-- The client record is zeroed and has its receive buffer. -/
  | opening (fd : Nat) (rx : RxBuffer) (mem : ByteMem)
  /-- In `read_packet`. -/
  | serving (fd : Nat) (c : Conn σ)
  /-- `accept` failed. -/
  | done

/-- What the loop does with descriptors, buffers and the port. -/
inductive StartEvent where
  | accepted (fd : Nat)
  | closed (fd : Nat)
  | malloc (rx : RxBuffer)
  | free (rx : RxBuffer)
  | openPort (rval : Int)
  | closePort

/-- The server: where it is, the implementation's state, the static reply buffer, and what it has done. -/
structure Daemon (σ : Type) where
  stage : Stage σ
  clientData : σ
  replyBuf : ByteMem
  log : List StartEvent

/-- `read_packet` has returned. -/
def Conn.Ended (c : Conn σ) : Prop := c.phase = .closed ∨ c.phase = .error

/-- A connection that enters `read_packet` after `open_port`. -/
def Conn.opened (rx : RxBuffer) (mem : ByteMem) (data : σ) (error : Option (List UInt8)) (replyBuf : ByteMem) :
    Conn σ :=
  let c := Conn.start rx data mem replyBuf
  ⟨c.phase, { c.s with c := c.s.c.after error }⟩

namespace Daemon

/-- `xvcserver_start` before its first `accept`. -/
def start (data : σ) (replyBuf : ByteMem) : Daemon σ := ⟨.accept, data, replyBuf, []⟩

/-- A step of `xvcserver_start`. -/
inductive Step (P : Protocol σ) (ports : Ports σ) : Daemon σ → Daemon σ → Prop
  | accept {m : Daemon σ} (fd : Nat) (h : m.stage = .accept) :
      Step P ports m { m with stage := .accepted fd, log := m.log ++ [.accepted fd] }
  | acceptFailed {m : Daemon σ} (h : m.stage = .accept) : Step P ports m { m with stage := .done }
  /-- `getpeername` failed: `continue`. -/
  | noPeer {m : Daemon σ} {fd : Nat} (h : m.stage = .accepted fd) : Step P ports m { m with stage := .accept }
  | peer {m : Daemon σ} {fd : Nat} (rx : RxBuffer) (mem : ByteMem) (h : m.stage = .accepted fd)
      (hmax : rx.bufMax = maxPacketLen) :
      Step P ports m { m with stage := .opening fd rx mem, log := m.log ++ [.malloc rx] }
  /-- `open_port` failed: the descriptor is closed, the buffer freed, `continue`. -/
  | openFailed {m : Daemon σ} {fd : Nat} {rx : RxBuffer} {mem : ByteMem} (h : m.stage = .opening fd rx mem)
      (hrval : (ports.openPort m.clientData).2.2 < 0) :
      Step P ports m
        { m with
          stage := .accept
          clientData := (ports.openPort m.clientData).1
          log := m.log ++ [.openPort (ports.openPort m.clientData).2.2, .closed fd, .free rx] }
  | opened {m : Daemon σ} {fd : Nat} {rx : RxBuffer} {mem : ByteMem} (h : m.stage = .opening fd rx mem)
      (hrval : ¬ (ports.openPort m.clientData).2.2 < 0) :
      Step P ports m
        { m with
          stage := .serving fd (.opened rx mem (ports.openPort m.clientData).1 (ports.openPort m.clientData).2.1
            m.replyBuf)
          log := m.log ++ [.openPort (ports.openPort m.clientData).2.2] }
  | serve {m : Daemon σ} {fd : Nat} {c d : Conn σ} (h : m.stage = .serving fd c) (hstep : Conn.Step P c d) :
      Step P ports m { m with stage := .serving fd d }
  /-- `read_packet` has returned: `close_port`, and the next connection. -/
  | close {m : Daemon σ} {fd : Nat} {c : Conn σ} (h : m.stage = .serving fd c) (hend : c.Ended) :
      Step P ports m
        { stage := .accept
          clientData := ports.closePort c.s.clientData
          replyBuf := c.s.replyBuf
          log := m.log ++ [.closePort, .closed fd, .free c.s.rx] }

end Daemon

end Xvc
