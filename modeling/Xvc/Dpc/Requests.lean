import Xvc.Server.Messages

/-!
# The messages of `dpc`

The branches of the loop of `dpc/src/xvcserver.c`. `getinfo:`, `capabilities:`, `configure:` and
`error:` have the text of `mem/versal`'s; `edpc:` asks for a packet from the debug packet
controller and `idpc:` sends it one, both with a length in words.
-/

namespace Xvc
namespace Dpc

open ByteMem

variable {σ : Type}

/-- What the `edpc` callback did: `*num_words`, and what its buffer holds when `read_packet`
copies it, if it set one. -/
structure EdpcResult (σ : Type) where
  call : CallResult σ
  numWords : Nat := 0
  buf : Option ByteMem := none

/-- `XvcServerHandlers` of `dpc`. `lock` and `unlock` are only tested for NULL. -/
structure XvcServerHandlers (σ : Type) where
  lock : Option (σ → (timeout : Nat) → CallResult σ)
  unlock : Option (σ → CallResult σ)
  flush : Option (σ → ByteMem → CallResult σ × Int)
  idpc : Option (σ → ByteMem → (flags numWords buf : Nat) → CallResult σ)
  edpc : Option (σ → (flags : Nat) → EdpcResult σ)

/-- A complete message with its decoded arguments; operand bytes start at `p`. -/
inductive Request where
  | getinfo
  | capabilities
  | configure (declared p : Nat)
  | error
  | edpc (flags : Nat)
  | idpc (flags numWords p : Nat)
  deriving DecidableEq

/-! ## Decoding -/

/-- `edpc:`. -/
def parseEdpc (s : Server σ) (cbuf p : Nat) : Parsed Request :=
  let v := getUleb128 s.mem p s.cend
  if s.cend < v.2 then incomplete s cbuf v.2 else .msg (.edpc (u32 v.1)) v.2

/-- `idpc:`. -/
def parseIdpc (s : Server σ) (cbuf p : Nat) : Parsed Request :=
  let v := getUleb128 s.mem p s.cend
  let w := getUleb128 s.mem v.2 s.cend
  let pend := u64 (w.2 + u64 (w.1 * 4))
  if s.cend < pend then incomplete s cbuf pend else .msg (.idpc (u32 v.1) w.1 w.2) pend

/-- The dispatch on the header `hdr`, which ends before `p`, in the order of the source. -/
def parse (h : XvcServerHandlers σ) (s : Server σ) (cbuf : Nat) (hdr : List UInt8) (p : Nat) :
    Parsed Request :=
  if hdr = ascii "getinfo:" then .msg .getinfo p
  else if hdr = ascii "capabilities:" then .msg .capabilities p
  else if hdr = ascii "configure:" then parseConfigure Request.configure s cbuf p
  else if hdr = ascii "error:" then .msg .error p
  else if hdr = ascii "edpc:" ∧ h.edpc.isSome then parseEdpc s cbuf p
  else if hdr = ascii "idpc:" ∧ h.idpc.isSome then parseIdpc s cbuf p
  else .bad

/-! ## Execution -/

/-- `c->handlers->lock && c->handlers->unlock`. -/
def lockingAvailable (h : XvcServerHandlers σ) : Bool := h.lock.isSome && h.unlock.isSome

/-- The text of `capabilities:`. -/
def capabilitiesText (h : XvcServerHandlers σ) : List UInt8 :=
  ascii "status," ++ if h.idpc.isSome ∧ h.edpc.isSome then ascii "dpc" else []

/-- The call of `edpc`, dispatched only with `edpc`; without it, or with an error pending,
`num_words` is 0 and `epkt_buf` is NULL. -/
def callEdpc (h : XvcServerHandlers σ) (s : Server σ) (flags : Nat) : EdpcResult σ :=
  match h.edpc with
  | some f => if s.c.failed then { call := { clientData := s.clientData } } else f s.clientData flags
  | none => { call := { clientData := s.clientData } }

/-- `edpc:`. `reply_uleb128` of this server takes an `unsigned`. -/
def execEdpc (h : XvcServerHandlers σ) (s : Server σ) (flags : Nat) : Server σ :=
  let r := callEdpc h s flags
  let numBytes := u64 (r.numWords * 4)
  let s := s.unlessFailed fun s => callOrNull s (h.edpc.map fun _ => r.call) (.edpc flags)
  let s := s.replyUleb128 (u32 r.numWords)
  let s := match r.buf with
    | some b => s.store s.replyLen (slice b 0 numBytes)
    | none => s
  (s.replyData numBytes).replyStatus

/-- `idpc:`, dispatched only with `idpc`. -/
def execIdpc (h : XvcServerHandlers σ) (s : Server σ) (flags numWords p : Nat) : Server σ :=
  Server.replyStatus <| s.unlessFailed fun s =>
    callOrNull s (h.idpc.map fun f => f s.clientData s.mem flags numWords p)
      (.idpc flags numWords (slice s.mem p (numWords * 4)))

/-- The second half of a branch. -/
def exec (h : XvcServerHandlers σ) (s : Server σ) : Request → Server σ
  | .getinfo => execGetinfo s
  | .capabilities => execCapabilities (capabilitiesText h) s
  | .configure declared p => execConfigure (lockingAvailable h) s declared p
  | .error => execError s
  | .edpc flags => execEdpc h s flags
  | .idpc flags numWords p => execIdpc h s flags numWords p

/-- The branches of `dpc`. -/
def dispatch (h : XvcServerHandlers σ) : Dispatch σ Request where
  parse := parse h
  exec := exec h

/-- The server of `dpc`. -/
def protocol (h : XvcServerHandlers σ) : Protocol σ where
  iter := (dispatch h).iter
  flush := h.flush

end Dpc
end Xvc
