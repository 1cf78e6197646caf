import Xvc.Server.Messages

/-!
# The messages of `mem/versal`: decoding

The first half of each branch of the loop of `mem/versal/src/xvcserver.c`: `parse` decodes the
arguments of the message and decides whether all of it has been received. The second half is
`Xvc/Versal/Exec.lean`.

A `Request` holds the arguments as the branch passes them to its handler, and the address `p` of
its operand bytes.
-/

namespace Xvc
namespace Versal

open ByteMem

variable {σ : Type}

/-- `XvcServerHandlers`: the callbacks on the implementation's state `σ`. Buffers are addresses
in the receive memory and indices into the reply buffer; an optional callback may be NULL. -/
structure XvcServerHandlers (σ : Type) where
  /-- Also gives `*result`. -/
  setTck : σ → (nsperiod : Nat) → CallResult σ × Nat
  shiftTmsTdi : σ → ByteMem → (count tmsBuf tdiBuf tdoBuf : Nat) → CallResult σ
  lock : Option (σ → (timeout : Nat) → CallResult σ)
  unlock : Option (σ → CallResult σ)
  registerShift : Option (σ → ByteMem → (instruction : Bool) → (flags state count : Nat) →
    (tdiBuf tdoBuf : Option Nat) → CallResult σ)
  state : Option (σ → (flags state count : Nat) → CallResult σ)
  flush : Option (σ → ByteMem → CallResult σ × Int)
  mrd : Option (σ → (flags addr numBytes buf : Nat) → CallResult σ)
  mwr : Option (σ → ByteMem → (flags addr numBytes buf : Nat) → CallResult σ)

/-- A complete message with its decoded arguments; operand bytes start at `p`. -/
inductive Request where
  | getinfo
  | capabilities
  /-- `declared` is the decoded length, of which the code keeps 32 bits. -/
  | configure (declared p : Nat)
  | error
  | lock (timeout : Nat)
  | unlock
  | shift (bits p : Nat)
  | settck (nsperiod : Nat)
  | rshift (instruction : Bool) (flags state count p : Nat)
  | state (flags state count : Nat)
  | mrd (flags addr numBytes : Nat)
  | mwr (flags addr numBytes p : Nat)
  deriving DecidableEq

/-- Three calls of `get_uleb128`: the values and the cursor after them. -/
def getUleb128x3 (mem : ByteMem) (p bufend : Nat) : Nat × Nat × Nat × Nat :=
  let a := getUleb128 mem p bufend
  let b := getUleb128 mem a.2 bufend
  let c := getUleb128 mem b.2 bufend
  (a.1, b.1, c.1, c.2)

/-- `lock:`. -/
def parseLock (s : Server σ) (cbuf p : Nat) : Parsed Request :=
  let v := getUleb128 s.mem p s.cend
  if s.cend < v.2 then incomplete s cbuf v.2 else .msg (.lock (u32 v.1)) v.2

/-- `bytes` of `shift:`: the bit count is rounded up in `unsigned` arithmetic. -/
def shiftBytes (bits : Nat) : Nat := u32 (bits + 7) / 8

/-- `shift:`. -/
def parseShift (s : Server σ) (cbuf p : Nat) : Parsed Request :=
  if s.cend < u64 (p + 4) then .fill
  else
    let bits := getUintLe (slice s.mem p 4)
    let pend := u64 (p + 4 + u32 (shiftBytes bits * 2))
    if s.cend < pend then incomplete s cbuf pend else .msg (.shift bits (p + 4)) pend

/-- `settck:`. -/
def parseSettck (s : Server σ) (p : Nat) : Parsed Request :=
  if s.cend < u64 (p + 4) then .fill
  else .msg (.settck (getUintLe (slice s.mem p 4))) (u64 (p + 4))

/-- `tdibytes` and `tdobytes` of `irshift:` and `drshift:`: the bit count is rounded up in
`unsigned long` arithmetic. -/
def tdiBytes (flags count : Nat) : Nat := if flags &&& 3 = 0 then u64 (count + 7) / 8 else 0
def tdoBytes (flags count : Nat) : Nat := if flags &&& 4 ≠ 0 then u64 (count + 7) / 8 else 0

/-- `irshift:` and `drshift:`. -/
def parseRshift (s : Server σ) (instruction : Bool) (cbuf p : Nat) : Parsed Request :=
  let v := getUleb128x3 s.mem p s.cend
  let flags := u32 v.1
  let count := v.2.2.1
  let p := v.2.2.2
  let pend := u64 (p + tdiBytes flags count)
  if s.cend < pend then incomplete s cbuf pend
  else .msg (.rshift instruction flags (u32 v.2.1) count p) pend

/-- `state:`. -/
def parseState (s : Server σ) (cbuf p : Nat) : Parsed Request :=
  let v := getUleb128x3 s.mem p s.cend
  if s.cend < v.2.2.2 then incomplete s cbuf v.2.2.2
  else .msg (.state (u32 v.1) (u32 v.2.1) v.2.2.1) v.2.2.2

/-- `mrd:`. -/
def parseMrd (s : Server σ) (cbuf p : Nat) : Parsed Request :=
  let v := getUleb128x3 s.mem p s.cend
  if s.cend < v.2.2.2 then incomplete s cbuf v.2.2.2
  else .msg (.mrd (u32 v.1) v.2.1 v.2.2.1) v.2.2.2

/-- `mwr:`. -/
def parseMwr (s : Server σ) (cbuf p : Nat) : Parsed Request :=
  let v := getUleb128x3 s.mem p s.cend
  let pend := u64 (v.2.2.2 + v.2.2.1)
  if s.cend < pend then incomplete s cbuf pend
  else .msg (.mwr (u32 v.1) v.2.1 v.2.2.1 v.2.2.2) pend

/-- The dispatch on the header `hdr`, which ends before `p`, in the order of the source. -/
def parse (h : XvcServerHandlers σ) (s : Server σ) (cbuf : Nat) (hdr : List UInt8) (p : Nat) : Parsed Request :=
  if hdr = ascii "getinfo:" then .msg .getinfo p
  else if hdr = ascii "capabilities:" then .msg .capabilities p
  else if hdr = ascii "configure:" then parseConfigure Request.configure s cbuf p
  else if hdr = ascii "error:" then .msg .error p
  else if hdr = ascii "lock:" then parseLock s cbuf p
  else if hdr = ascii "unlock:" then .msg .unlock p
  else if hdr = ascii "shift:" then parseShift s cbuf p
  else if hdr = ascii "settck:" then parseSettck s p
  else if (hdr = ascii "irshift:" ∨ hdr = ascii "drshift:") ∧ h.registerShift.isSome then
    parseRshift s (hdr = ascii "irshift:") cbuf p
  else if hdr = ascii "state:" ∧ h.state.isSome then parseState s cbuf p
  else if hdr = ascii "mrd:" ∧ h.mrd.isSome then parseMrd s cbuf p
  else if hdr = ascii "mwr:" ∧ h.mwr.isSome then parseMwr s cbuf p
  else .bad

end Versal
end Xvc
