import Xvc.Versal.Exec

/-!
# The handlers of `xvc_mem`

`mem/versal/src/xvc_mem.c` in its default build (`ENABLE_SINGLE_WORD_RW`): `mrd` and `mwr` check a
request against the hub window and copy it word by word; `shift_tms_tdi` does nothing, and the
optional callbacks are NULL. The state of the handlers is the hub, as plain RAM indexed from
`hub.buf`.
-/

namespace Xvc
namespace Versal

open ByteMem

/-- `mem_region`: `mmap` has succeeded, so the window lies inside the address space. -/
structure MemRegion where
  addr : Nat
  size : Nat
  mapped : addr + size < 2 ^ 64

/-- `%08lX`. -/
def hex08 (n : Nat) : List UInt8 :=
  let digits := (Nat.toDigits 16 n).map fun c => UInt8.ofNat c.toUpper.toNat
  List.replicate (8 - digits.length) 48 ++ digits

/-- The error of a request outside the window. -/
def invalidArguments (addr numBytes : Nat) : List UInt8 :=
  ascii "Invalid arguments addr 0x" ++ hex08 addr ++ ascii " num_bytes " ++ decimal numBytes ++ ascii "\n"

/-- The window check of `mrd` and `mwr`. -/
def MemRegion.rejects (hub : MemRegion) (addr numBytes : Nat) : Bool :=
  addr < hub.addr ∨ u64 (hub.addr + hub.size) < u64 (addr + numBytes)

/-- The loop of `mrd`: `k` words from index `i`, the hub's into the reply buffer at `buf`. -/
def mrdLoop (mem : ByteMem) (offset buf : Nat) : Nat → Nat → List (Nat × List UInt8)
  | 0, _ => []
  | k + 1, i => (buf + i, slice mem (offset + i) 4) :: mrdLoop mem offset buf k (i + 4)

/-- The loop of `mwr`: `k` words from index `i`, the operand's at `buf` into the hub. -/
def mwrLoop (rx : ByteMem) (offset buf : Nat) : Nat → Nat → ByteMem → ByteMem
  | 0, _, mem => mem
  | k + 1, i, mem => mwrLoop rx offset buf k (i + 4) (write mem (offset + i) (slice rx (buf + i) 4))

/-- The number of rounds of `for (i = 0; i < num_bytes; i += 4)`. Above `2 ^ 64 - 4`, where `i` wraps, the
loop has no end; then this is its first pass. -/
def words (numBytes : Nat) : Nat := (numBytes + 3) / 4

/-- `mrd`. -/
def mrd (hub : MemRegion) (mem : ByteMem) (_flags addr numBytes buf : Nat) : CallResult ByteMem :=
  if hub.rejects addr numBytes then { clientData := mem, error := some (invalidArguments addr numBytes) }
  else { clientData := mem, stores := mrdLoop mem (addr - hub.addr) buf (words numBytes) 0 }

/-- `mwr`. -/
def mwr (hub : MemRegion) (mem rx : ByteMem) (_flags addr numBytes buf : Nat) : CallResult ByteMem :=
  if hub.rejects addr numBytes then { clientData := mem, error := some (invalidArguments addr numBytes) }
  else { clientData := mwrLoop rx (addr - hub.addr) buf (words numBytes) 0 mem }

/-- `handlers`. -/
def handlers (hub : MemRegion) : XvcServerHandlers ByteMem where
  setTck mem nsperiod := ({ clientData := mem }, nsperiod)
  shiftTmsTdi mem _ _ _ _ _ := { clientData := mem }
  lock := none
  unlock := none
  registerShift := none
  state := none
  flush := none
  mrd := some (mrd hub)
  mwr := some (mwr hub)

/-- The hub at its default place (`DEFAULT_HUB_ADDR`, `DEFAULT_HUB_SIZE`). -/
def defaultHub : MemRegion := ⟨0xA4000000, 0x200000, by decide⟩

/-- A hub that holds zeros. -/
def zeroHub : ByteMem := fun _ => 0

end Versal
end Xvc
