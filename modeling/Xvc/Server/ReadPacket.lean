import Xvc.Lib.Machine
import Xvc.Server.Client

/-!
# `read_packet`

The two XVC 1.1 servers have the same `read_packet` but for the messages that its `for (;;)` loop
dispatches. A `Protocol` is that part: one iteration of the loop, and the `flush` callback. The
rest is here as a machine that takes one loop iteration, or one exit of the loop, at a time:

* `Conn`: the server and where it is in `read_packet` (`Phase`). `advance` is one step of the
  code between two calls of `recv`; it leaves a connection that waits in `recv`, or that has
  ended, as it is.
* `Step`: `advance`, or what `recv` may return. `send` is an argument of `advance`: the result
  for a requested length.
* `Feed`: the chunks that `recv` returns, each followed by all the code up to the next `recv`.
-/

namespace Xvc

open ByteMem

variable {σ : Type}

/-- How one iteration of the `for (;;)` loop of `read_packet` ends. -/
inductive Iter (σ : Type) where
  /-- `fill = 1; break`: the message is not complete. -/
  | fill
  /-- `break` with `fill` still 0. -/
  | stop
  /-- `goto error` after a protocol error. -/
  | bad
  /-- An assertion failed. -/
  | abort
  /-- `reply:`, with the new `cbuf`. -/
  | reply (s : Server σ) (p : Nat)

/-- What a server adds to the common `read_packet`. -/
structure Protocol (σ : Type) where
  iter : Server σ → Nat → Iter σ
  flush : Option (σ → ByteMem → CallResult σ × Int)

/-- Where a connection is in `read_packet`. -/
inductive Phase where
  /-- At the head of the `for (;;)` loop. -/
  | parse (cbuf : Nat)
  /-- About to call `recv`. -/
  | recv
  /-- Returned: the peer closed the connection. -/
  | closed
  /-- Returned through `error:`. -/
  | error
  /-- An assertion failed. -/
  | aborted
  deriving DecidableEq

/-- A connection. -/
structure Conn (σ : Type) where
  phase : Phase
  s : Server σ

/-! ## The header -/

/-- The first `:` in the `k` bytes from `p`, or the end of them. -/
def scanColon (mem : ByteMem) : Nat → Nat → Nat
  | 0, p => p
  | k + 1, p => if mem p = 58 then p else scanColon mem k (p + 1)

/-- What the scan at the head of the loop finds. -/
inductive Scan where
  | fill
  | bad
  /-- The header up to and including its `:`, and the address after it. -/
  | header (hdr : List UInt8) (p : Nat)
  deriving DecidableEq

/-- The head of the `for (;;)` loop: the message name ends at a `:` among the next 30 bytes. -/
def scanHeader (s : Server σ) (cbuf : Nat) : Scan :=
  let e := if cbuf + 30 < s.cend then cbuf + 30 else s.cend
  let p := scanColon s.mem (e - cbuf) cbuf
  if e ≤ p then
    if 30 ≤ p - cbuf then .bad else .fill
  else .header (slice s.mem cbuf (p + 1 - cbuf)) (p + 1)

/-! ## After the loop -/

namespace Server

/-- `consume_packet`, past its assertion. -/
def consume (s : Server σ) (len : Nat) : Server σ :=
  { s with
    bufLen := s.bufLen - len
    mem := memmove s.mem s.rx.buf (s.rx.buf + len) (s.bufLen - len) }

/-- The bytes that `recv` stored. -/
def receive (s : Server σ) (chunk : List UInt8) : Server σ :=
  { s with
    mem := write s.mem (s.rx.buf + s.bufLen) chunk
    bufLen := s.bufLen + chunk.length }

/-- The free room that `recv` is called with. -/
def room (s : Server σ) : Nat := s.rx.bufMax - s.bufLen

/-- `send_packet(c, reply_buf, reply_len)` returned `rval`. -/
def logSend (s : Server σ) (rval : Int) : Server σ :=
  { s with trace := s.trace ++ [.send (slice s.replyBuf 0 s.replyLen) rval] }

/-- The call of `flush`, when there is one. -/
def runFlush (P : Protocol σ) (s : Server σ) : Server σ × Int :=
  match P.flush with
  | none => (s, 0)
  | some f =>
    let (r, rval) := f s.clientData s.mem
    let s := { s with clientData := r.clientData, trace := s.trace ++ [Event.flush] }
    let s := s.stores r.stores
    match r.error with
    | some t => ({ s with c := s.c.setError t }, rval)
    | none => (s, rval)

end Server

namespace Conn

/-- `read_more:`. -/
def readMore (s : Server σ) : Conn σ := ⟨.parse s.rx.buf, { s with replyLen := 0 }⟩

/-- What `read_packet` does once it has left its loop at `cbuf`; `snd` is what `send` returns for
a length. -/
def finish (P : Protocol σ) (snd : Nat → Int) (s : Server σ) (cbuf : Nat) (fill : Bool) : Conn σ :=
  if s.rx.buf < cbuf then
    let (s, rval) := s.runFlush P
    if rval < 0 then ⟨.error, s⟩
    else
      let sent := snd s.replyLen
      let s := s.logSend sent
      if sent < 0 then ⟨.error, s⟩
      else
        let len := u32 (cbuf - s.rx.buf)
        if s.bufLen < len then ⟨.aborted, s⟩
        else
          let s := s.consume len
          if s.bufLen ≠ 0 ∧ fill = false then readMore s else ⟨.recv, s⟩
  else ⟨.recv, s⟩

/-- One step of the code between two calls of `recv`. -/
def advance (P : Protocol σ) (snd : Nat → Int) (c : Conn σ) : Conn σ :=
  match c.phase with
  | .parse cbuf =>
    match P.iter c.s cbuf with
    | .fill => finish P snd c.s cbuf true
    | .stop => finish P snd c.s cbuf false
    | .bad => ⟨.error, c.s⟩
    | .abort => ⟨.aborted, c.s⟩
    | .reply s p => ⟨.parse p, s⟩
  | _ => c

/-- `recv` returned `chunk`. -/
def receive (c : Conn σ) (chunk : List UInt8) : Conn σ := readMore (c.s.receive chunk)

/-- A connection that has just entered `read_packet`: the client record is zeroed, and the
contents of the receive buffer and of the reply buffer are whatever was there before. -/
def start (rx : RxBuffer) (clientData : σ) (mem replyBuf : ByteMem) : Conn σ :=
  readMore { rx, bufLen := 0, mem, c := {}, clientData, replyBuf, replyLen := 0, trace := [] }

/-- `send` accepts the whole packet. -/
def sendAll (len : Nat) : Int := len

/-- A step of a connection. -/
inductive Step (P : Protocol σ) : Conn σ → Conn σ → Prop
  | advance {c : Conn σ} {cbuf : Nat} (snd : Nat → Int) (h : c.phase = .parse cbuf) :
      Step P c (advance P snd c)
  | recv {c : Conn σ} {chunk : List UInt8} (h : c.phase = .recv) (hne : chunk ≠ [])
      (hfit : chunk.length ≤ c.s.room) : Step P c (c.receive chunk)
  | closed {c : Conn σ} (h : c.phase = .recv) : Step P c { c with phase := .closed }
  | failed {c : Conn σ} (h : c.phase = .recv) : Step P c { c with phase := .error }

/-- The connection gets the chunks, one from each `recv`, each of which fits the free room; after
each it runs up to the next `recv` or to its end. -/
inductive Feed (P : Protocol σ) : Conn σ → List (List UInt8) → Conn σ → Prop
  | nil (c : Conn σ) : Feed P c [] c
  | cons {c d e : Conn σ} {chunk : List UInt8} {chunks : List (List UInt8)} (h : c.phase = .recv)
      (hne : chunk ≠ []) (hfit : chunk.length ≤ c.s.room)
      (hrun : Machine.Settles (advance P sendAll) (c.receive chunk) d) (hrest : Feed P d chunks e) :
      Feed P c (chunk :: chunks) e

theorem advance_parse {P : Protocol σ} {snd : Nat → Int} {c : Conn σ} {cbuf : Nat} (h : c.phase = .parse cbuf) :
    advance P snd c = match P.iter c.s cbuf with
      | .fill => finish P snd c.s cbuf true
      | .stop => finish P snd c.s cbuf false
      | .bad => ⟨.error, c.s⟩
      | .abort => ⟨.aborted, c.s⟩
      | .reply s p => ⟨.parse p, s⟩ := by
  unfold advance
  rw [h]

theorem advance_of_not_parse {P : Protocol σ} {snd : Nat → Int} {c : Conn σ}
    (h : ∀ cbuf, c.phase ≠ .parse cbuf) : advance P snd c = c := by
  unfold advance
  split
  · next cbuf hc => exact (h cbuf hc).elim
  · rfl

theorem advance_recv {P : Protocol σ} {snd : Nat → Int} {c : Conn σ} (h : c.phase = .recv) :
    advance P snd c = c :=
  advance_of_not_parse fun cbuf hc => by rw [h] at hc; cases hc

/-- A chunk leaves the connection in one state. -/
theorem Feed.unique {P : Protocol σ} {c d d' : Conn σ} {chunks : List (List UInt8)}
    (h : Feed P c chunks d) (h' : Feed P c chunks d') : d = d' := by
  induction h with
  | nil c => cases h'; rfl
  | cons _ _ _ hrun _ ih =>
    cases h' with
    | cons _ _ _ hrun' hrest' =>
      rw [← hrun.unique hrun'] at hrest'
      exact ih hrest'

theorem Feed.append {P : Protocol σ} {c d e : Conn σ} {cs cs' : List (List UInt8)}
    (h : Feed P c cs d) (h' : Feed P d cs' e) : Feed P c (cs ++ cs') e := by
  induction h with
  | nil c => exact h'
  | cons hp hne hfit hrun _ ih => exact .cons hp hne hfit hrun (ih h')

end Conn

end Xvc
