import Xvc.Dpc.Handle

/-!
# Handlers beside other state

What `open_port` and `close_port` keep books of is no concern of the packet handlers. `XvcServerHandlers.beside L h`
are the handlers `h` next to such a state, of type `L`.

* `Implements.beside`: they are functions of their arguments if `h` are.
* `handle_beside`, `run_beside`: a message does what it does with `h`, and leaves the state of type `L` alone.
-/

namespace Xvc

variable {L σ : Type}

def CallResult.beside (l : L) (r : CallResult σ) : CallResult (L × σ) :=
  { clientData := (l, r.clientData), error := r.error, stores := r.stores }

def Result.beside (l : L) (e : Result σ) : Result (L × σ) := { data := (l, e.data), error := e.error }

def Core.beside (l : L) (a : Core σ) : Core (L × σ) := ⟨a.c, (l, a.data)⟩

def Outcome.beside (l : L) (o : Outcome (Core σ)) : Outcome (Core (L × σ)) :=
  { core := o.core.beside l, reply := o.reply, calls := o.calls }

theorem Performs.beside {r : CallResult σ} {e : Result σ} {i : Nat} {t : List UInt8} (hp : Performs r e i t) (l : L) :
    Performs (r.beside l) (e.beside l) i t :=
  ⟨congrArg (Prod.mk l) hp.data, hp.error, hp.above, hp.fills⟩

namespace Outcome

variable (l : L) (a : Core σ) (call : Call) (e : Result σ) (o : Outcome (Core σ))

theorem ofCall_beside : ofCall (a.beside l) call (e.beside l) = (ofCall a call e).beside l := by
  cases hf : a.c.failed with
  | true =>
    have hl : (a.beside l).c.failed = true := hf
    rw [ofCall_of_failed hf, ofCall_of_failed hl]
    rfl
  | false =>
    have hl : (a.beside l).c.failed = false := hf
    rw [ofCall_of_ok hf, ofCall_of_ok hl]
    rfl

theorem ofData_beside (t : List UInt8) : ofData (a.beside l) call (e.beside l) t = (ofData a call e t).beside l := by
  cases hf : a.c.failed with
  | true =>
    have hl : (a.beside l).c.failed = true := hf
    rw [ofData_of_failed hf, ofData_of_failed hl]
    rfl
  | false =>
    have hl : (a.beside l).c.failed = false := hf
    rw [ofData_of_ok hf, ofData_of_ok hl]
    rfl

theorem withStatus_beside : (o.beside l).withStatus = o.withStatus.beside l := rfl

end Outcome

namespace Dpc

open ByteMem

/-- The handlers `h`, for a state that also has a part that they leave alone. -/
def XvcServerHandlers.beside (L : Type) (h : XvcServerHandlers σ) : XvcServerHandlers (L × σ) where
  lock := h.lock.map fun f d timeout => (f d.2 timeout).beside d.1
  unlock := h.unlock.map fun f d => (f d.2).beside d.1
  flush := h.flush.map fun f d m => ((f d.2 m).1.beside d.1, (f d.2 m).2)
  idpc := h.idpc.map fun f d mem flags numWords buf => (f d.2 mem flags numWords buf).beside d.1
  edpc := h.edpc.map fun f d flags =>
    let r := f d.2 flags
    { call := r.call.beside d.1, numWords := r.numWords, buf := r.buf }

def Callbacks.beside (L : Type) (cb : Callbacks σ) : Callbacks (L × σ) where
  edpc d flags :=
    let r := cb.edpc d.2 flags
    (r.1.beside d.1, r.2)
  idpc d flags numWords data := (cb.idpc d.2 flags numWords data).beside d.1

variable {h : XvcServerHandlers σ} {cb : Callbacks σ}

theorem Implements.beside (hi : Implements h cb) : Implements (h.beside L) (cb.beside L) where
  edpc := by
    intro f hf d flags
    obtain ⟨g, hg, rfl⟩ := Option.map_eq_some_iff.mp hf
    have hd := hi.edpc g hg d.2 flags
    exact ⟨fun i => (hd.call i).beside d.1, hd.noStores, hd.numWords, hd.unsigned, hd.buf⟩
  idpc := by
    intro f hf d mem flags numWords p i
    obtain ⟨g, hg, rfl⟩ := Option.map_eq_some_iff.mp hf
    exact (hi.idpc g hg d.2 mem flags numWords p i).beside d.1

theorem lockingAvailable_beside : lockingAvailable (h.beside L) = lockingAvailable h := by
  unfold lockingAvailable XvcServerHandlers.beside
  rw [Option.isSome_map, Option.isSome_map]

theorem capabilitiesText_beside : capabilitiesText (h.beside L) = capabilitiesText h := by
  unfold capabilitiesText XvcServerHandlers.beside
  rw [Option.isSome_map, Option.isSome_map]

theorem handleEdpc_beside (l : L) (flags : Nat) (a : Core σ) :
    handleEdpc (cb.beside L) flags (a.beside l) = (handleEdpc cb flags a).beside l := by
  have hc : (a.beside l).c = a.c := rfl
  unfold handleEdpc
  rw [hc]
  split
  · rfl
  · have ho := Outcome.ofData_beside l a (.edpc flags) (cb.edpc a.data flags).1
      (slice (cb.edpc a.data flags).2.2 0 ((cb.edpc a.data flags).2.1 * 4))
    exact congrArg (fun o : Outcome (Core (L × σ)) =>
      { o with reply := Leb128.encode 10 (cb.edpc a.data flags).2.1 ++ o.reply }) ho

/-- **The messages** do beside `l` what they do without it. -/
theorem handle_beside (l : L) (bufMax : Nat) (m : Msg) (a : Core σ) :
    handle (h.beside L) (cb.beside L) bufMax m (a.beside l) = (handle h cb bufMax m a).beside l := by
  cases m with
  | getinfo => rfl
  | capabilities =>
    simp only [handle, capabilitiesText_beside]
    rfl
  | configure len text ht =>
    simp only [handle, lockingAvailable_beside]
    rfl
  | error => rfl
  | edpc flags =>
    simp only [handle, handleEdpc_beside, Outcome.withStatus_beside]
  | idpc flags numWords data hd =>
    simp only [handle, ← Outcome.withStatus_beside, ← Outcome.ofCall_beside]
    rfl

theorem run_beside (l : L) (bufMax : Nat) (ms : List Msg) (a : Core σ) :
    (wire (h.beside L) (cb.beside L) bufMax).run ms (a.beside l) = ((wire h cb bufMax).run ms a).beside l := by
  induction ms generalizing a with
  | nil => rfl
  | cons m ms ih =>
    have hm : (wire (h.beside L) (cb.beside L) bufMax).handle m (a.beside l) =
        ((wire h cb bufMax).handle m a).beside l := handle_beside l bufMax m a
    have hms := ih ((wire h cb bufMax).handle m a).core
    simp only [Wire.run, hm]
    rw [show (((wire h cb bufMax).handle m a).beside l).core = ((wire h cb bufMax).handle m a).core.beside l from rfl,
      hms]
    rfl

end Dpc
end Xvc
