import Xvc.Lib.ByteMem

/-!
# Logs of writes

A byte memory after a sequence of writes, seen from one address: the last write that covers the
address decides. `readBack_append_singleton` follows one more write.
-/

namespace ByteMem

/-- A write of `bytes` at `addr`. -/
structure Write where
  addr : Nat
  bytes : List UInt8

/-- The write stores to address `a`. -/
def Write.covers (w : Write) (a : Nat) : Bool := w.addr ≤ a ∧ a < w.addr + w.bytes.length

/-- The last write to address `a`. -/
def lastCovering (ws : List Write) (a : Nat) : Option Write := ws.reverse.find? (·.covers a)

/-- The byte at `a` after the writes `ws` to a memory that held `init`. -/
def readBack (init : ByteMem) (ws : List Write) (a : Nat) : UInt8 :=
  match lastCovering ws a with
  | some w => w.bytes.getD (a - w.addr) 0
  | none => init a

theorem lastCovering_append_singleton (ws : List Write) (w : Write) (a : Nat) :
    lastCovering (ws ++ [w]) a = if w.covers a then some w else lastCovering ws a := by
  unfold lastCovering
  rw [List.reverse_append, List.reverse_singleton, List.singleton_append, List.find?_cons]
  cases w.covers a <;> rfl

@[simp] theorem readBack_nil (init : ByteMem) (a : Nat) : readBack init [] a = init a := rfl

/-- One more write. -/
theorem readBack_append_singleton (init : ByteMem) (ws : List Write) (w : Write) (a : Nat) :
    readBack init (ws ++ [w]) a = if w.covers a then w.bytes.getD (a - w.addr) 0 else readBack init ws a := by
  unfold readBack
  rw [lastCovering_append_singleton]
  cases w.covers a <;> rfl

/-- One more write, on the memory. -/
theorem write_readBack (init : ByteMem) (ws : List Write) (a : Nat) (l : List UInt8) :
    write (readBack init ws) a l = readBack init (ws ++ [⟨a, l⟩]) := by
  funext x
  rw [readBack_append_singleton]
  simp [write, Write.covers]

end ByteMem
