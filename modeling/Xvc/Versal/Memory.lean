import Xvc.Lib.WriteLog
import Xvc.Versal.Fragmentation

/-!
# The memory behind `mem/versal`

`mrd:`, `mwr:` and `error:` with the handlers of `xvc_mem`, end to end. `HubState` is the purpose of
these messages: the writes that took effect, in order, and the pending error. `HubState.step` says
what a message does to it and what it answers; a read returns for each byte what the last write to
it stored.

* `memCallbacks_served`: the copy loops of `mrd` and `mwr`, as functions.
* `simulates`: the messages follow `HubState.step`.
* `memory_semantics`: so does the server, on any stream of such messages in any chunks.
-/

namespace Xvc
namespace Versal

open ByteMem Stream

/-! ## The handlers as functions -/

theorem mrdLoop_above (mem : ByteMem) (offset buf k i : Nat) :
    ∀ w ∈ mrdLoop mem offset buf k i, buf ≤ w.1 := by
  induction k generalizing i with
  | zero => simp [mrdLoop]
  | succ k ih =>
    intro w hw
    rcases List.mem_cons.mp hw with rfl | hw
    · exact Nat.le_add_right _ _
    · exact ih (i + 4) w hw

/-- The loop of `mrd` copies whole words. -/
theorem applyStores_mrdLoop (mem m : ByteMem) (offset buf k i : Nat) :
    applyStores (mrdLoop mem offset buf k i) m = write m (buf + i) (slice mem (offset + i) (4 * k)) := by
  induction k generalizing i m with
  | zero => exact (write_nil m (buf + i)).symm
  | succ k ih =>
    have hw := write_write m (buf + i) (slice mem (offset + i) 4) (slice mem (offset + i + 4) (4 * k))
    rw [← slice_append, length_slice] at hw
    rw [show 4 * (k + 1) = 4 + 4 * k by omega, ← hw]
    exact ih (write m (buf + i) (slice mem (offset + i) 4)) (i + 4)

/-- The loop of `mwr` copies whole words. -/
theorem mwrLoop_eq (rx mem : ByteMem) (offset buf k i : Nat) :
    mwrLoop rx offset buf k i mem = write mem (offset + i) (slice rx (buf + i) (4 * k)) := by
  induction k generalizing i mem with
  | zero => exact (write_nil mem (offset + i)).symm
  | succ k ih =>
    have hw := write_write mem (offset + i) (slice rx (buf + i) 4) (slice rx (buf + i + 4) (4 * k))
    rw [← slice_append, length_slice] at hw
    rw [show 4 * (k + 1) = 4 + 4 * k by omega, ← hw]
    exact ih (write mem (offset + i) (slice rx (buf + i) 4)) (i + 4)

/-- The request lies inside the hub window. -/
def MemRegion.Inside (hub : MemRegion) (addr numBytes : Nat) : Prop :=
  hub.addr ≤ addr ∧ addr + numBytes ≤ hub.addr + hub.size

instance (hub : MemRegion) (addr numBytes : Nat) : Decidable (hub.Inside addr numBytes) :=
  inferInstanceAs (Decidable (_ ∧ _))

/-- The check of the code is exact as long as the end of the request does not wrap. -/
theorem MemRegion.rejects_iff (hub : MemRegion) {addr numBytes : Nat} (h : addr + numBytes < 2 ^ 64) :
    hub.rejects addr numBytes = true ↔ ¬ hub.Inside addr numBytes := by
  unfold rejects Inside
  rw [u64_of_lt h, u64_of_lt hub.mapped]
  simp only [decide_eq_true_eq]
  omega

/-- What `mrd` and `mwr` do; the other callbacks are not used. -/
def memCallbacks (hub : MemRegion) : Callbacks ByteMem where
  setTck d nsperiod := ({ data := d }, nsperiod)
  shiftTmsTdi d _ _ _ := ({ data := d }, fun _ => 0)
  lock d _ := { data := d }
  unlock d := { data := d }
  registerShift d _ _ _ _ _ := ({ data := d }, fun _ => 0)
  state d _ _ _ := { data := d }
  mrd d _ addr numBytes :=
    if hub.Inside addr numBytes then ({ data := d }, fun i => d (addr - hub.addr + i))
    else ({ data := d, error := some (invalidArguments addr numBytes) }, fun _ => 0)
  mwr d _ addr numBytes data :=
    if hub.Inside addr numBytes then { data := write d (addr - hub.addr) data }
    else { data := d, error := some (invalidArguments addr numBytes) }

/-- A request of whole words whose end does not wrap, or `error:`. -/
def Msg.MemRequest : Msg → Prop
  | .mrd _ addr numBytes | .mwr _ addr numBytes _ _ =>
    numBytes.value % 4 = 0 ∧ addr.value + numBytes.value < 2 ^ 64
  | .error => True
  | _ => False

variable {hub : MemRegion}

/-- An `invalidArguments` text is an error. -/
theorem fails_invalidArguments (d : ByteMem) (addr numBytes : Nat) :
    (⟨d, some (invalidArguments addr numBytes)⟩ : Result ByteMem).fails = true := by
  have hne : (PendingError.ofText (invalidArguments addr numBytes)).text ≠ [] :=
    PendingError.ofText_cons_ne_nil (b := 73) (by decide) _
  simpa [Result.fails] using hne

theorem mrd_performs {addr numBytes : Nat} (hend : addr + numBytes < 2 ^ 64) (d : ByteMem) (flags i : Nat) :
    Performs (mrd hub d flags addr numBytes i) ((memCallbacks hub).mrd d flags addr numBytes).1 i
      (slice ((memCallbacks hub).mrd d flags addr numBytes).2 0 numBytes) := by
  have hrej := hub.rejects_iff hend
  unfold mrd
  simp only [memCallbacks]
  by_cases hin : hub.Inside addr numBytes
  · rw [if_pos hin, if_neg (by rw [hrej]; exact not_not_intro hin)]
    refine ⟨rfl, rfl, mrdLoop_above _ _ _ _ _, fun _ m => ?_⟩
    simp only [applyStores_mrdLoop, length_slice, Nat.add_zero]
    have hle : numBytes ≤ 4 * words numBytes := by unfold words; omega
    have hw := slice_write m i (slice d (addr - hub.addr) (4 * words numBytes))
    rw [length_slice] at hw
    rw [← take_slice _ _ hle, hw, take_slice _ _ hle]
    exact slice_congr fun j _ => by simp
  · rw [if_neg hin, if_pos (hrej.mpr hin)]
    exact ⟨rfl, rfl, by simp, fun hf => absurd hf (by rw [fails_invalidArguments]; decide)⟩

theorem mwr_performs {addr numBytes : Nat} (hend : addr + numBytes < 2 ^ 64) (hword : numBytes % 4 = 0)
    (d mem : ByteMem) (flags p i : Nat) :
    Performs (mwr hub d mem flags addr numBytes p)
      ((memCallbacks hub).mwr d flags addr numBytes (slice mem p numBytes)) i [] := by
  have hrej := hub.rejects_iff hend
  unfold mwr
  simp only [memCallbacks]
  by_cases hin : hub.Inside addr numBytes
  · rw [if_pos hin, if_neg (by rw [hrej]; exact not_not_intro hin)]
    have hk : 4 * words numBytes = numBytes := by unfold words; omega
    rw [mwrLoop_eq, hk]
    exact Performs.of_noStores (e := { data := write d (addr - hub.addr) (slice mem p numBytes) })
  · rw [if_neg hin, if_pos (hrej.mpr hin)]
    exact Performs.of_noStores (e := { data := d, error := some (invalidArguments addr numBytes) })

theorem memCallbacks_served {m : Msg} (hm : m.MemRequest) : m.Served (handlers hub) (memCallbacks hub) := by
  cases m with
  | mrd flags addr numBytes =>
    rintro f hf d i
    cases hf
    exact mrd_performs hm.2 d _ i
  | mwr flags addr numBytes data hd =>
    rintro f hf d mem p i rfl
    cases hf
    exact mwr_performs hm.2 hm.1 d mem _ p i
  | error => trivial
  | _ => exact hm.elim

/-! ## What the requests are for -/

/-- The hub as its clients see it: the writes that took effect, in order, and the pending error. -/
structure HubState where
  writes : List Write := []
  pending : PendingError := .none

namespace HubState

/-- The byte at each address: the last write to it, or what the hub held at first. -/
def bytes (hub : MemRegion) (init : ByteMem) (st : HubState) : ByteMem :=
  readBack (fun a => init (a - hub.addr)) st.writes

/-- An error is pending. -/
def failed (st : HubState) : Bool := !st.pending.text.isEmpty

/-- A request that leaves the window. -/
def reject (st : HubState) (addr numBytes : Nat) : HubState :=
  { st with pending := .ofText (invalidArguments addr numBytes) }

/-- What a message does, and its reply. -/
def step (hub : MemRegion) (init : ByteMem) : Msg → HubState → Outcome HubState
  | .mrd _ addr numBytes, st =>
    if st.failed then { core := st, reply := List.replicate numBytes.value 0 ++ [1] }
    else if hub.Inside addr.value numBytes.value then
      { core := st, reply := slice (st.bytes hub init) addr.value numBytes.value ++ [0] }
    else
      { core := st.reject addr.value numBytes.value, reply := List.replicate numBytes.value 0 ++ [1] }
  | .mwr _ addr numBytes data _, st =>
    if st.failed then { core := st, reply := [1] }
    else if hub.Inside addr.value numBytes.value then
      { core := { st with writes := st.writes ++ [⟨addr.value, data⟩] }, reply := [0] }
    else { core := st.reject addr.value numBytes.value, reply := [1] }
  | .error, st =>
    { core := { st with pending := .none }
      reply := Leb128.encode 10 st.pending.text.length ++ st.pending.text }
  | _, st => { core := st }

/-- The messages as a wire. -/
def wire (hub : MemRegion) (init : ByteMem) : Wire HubState Msg where
  enc := Msg.enc
  handle := step hub init

/-- The server's client record and hub are in the state `st`. -/
structure Shows (hub : MemRegion) (init : ByteMem) (a : Core ByteMem) (st : HubState) : Prop where
  pending : a.c.pendingError = st.pending
  hub : ∀ i, a.data i = st.bytes hub init (hub.addr + i)

variable {init : ByteMem} {a : Core ByteMem} {st : HubState}

theorem Shows.failed (h : Shows hub init a st) : a.c.failed = st.failed := by
  unfold XvcClient.failed HubState.failed; rw [h.pending]

/-- A rejected request shows as the pending error. -/
theorem Shows.reject (h : Shows hub init a st) (addr numBytes : Nat) :
    Shows hub init (a.after ⟨a.data, some (invalidArguments addr numBytes)⟩) (st.reject addr numBytes) :=
  ⟨rfl, h.hub⟩

theorem status_after_reject (hf : a.c.failed = false) (addr numBytes : Nat) :
    (a.after ⟨a.data, some (invalidArguments addr numBytes)⟩).c.status = 1 :=
  XvcClient.status_of_failed (by rw [Core.failed_after _ hf, fails_invalidArguments])

theorem Shows.mrd (h : Shows hub init a st) (flags addr numBytes : Uleb) (bufMax : Nat) :
    Shows hub init (handle (handlers hub) (memCallbacks hub) bufMax (.mrd flags addr numBytes) a).core
        (step hub init (.mrd flags addr numBytes) st).core ∧
      (handle (handlers hub) (memCallbacks hub) bufMax (.mrd flags addr numBytes) a).reply =
        (step hub init (.mrd flags addr numBytes) st).reply := by
  simp only [handle, step, ← h.failed]
  cases hf : a.c.failed with
  | true =>
    rw [Outcome.ofData_of_failed hf]
    refine ⟨h, ?_⟩
    simp [Outcome.withStatus, XvcClient.status_of_failed hf]
  | false =>
    rw [Outcome.ofData_of_ok hf]
    simp only [memCallbacks, Bool.false_eq_true, if_false]
    by_cases hin : hub.Inside addr.value numBytes.value
    · -- Each byte is the one that the hub holds.
      simp only [if_pos hin]
      refine ⟨h, ?_⟩
      have hdata : slice (fun i => a.data (addr.value - hub.addr + i)) 0 numBytes.value =
          slice (st.bytes hub init) addr.value numBytes.value :=
        slice_congr fun i _ => by
          have := hin.1
          rw [h.hub]; congr 1; omega
      simp [Outcome.withStatus, Result.fails, Core.after, XvcClient.after, XvcClient.status_of_ok hf, hdata]
    · simp only [if_neg hin]
      refine ⟨h.reject _ _, ?_⟩
      simp [Outcome.withStatus, fails_invalidArguments, status_after_reject hf]

theorem Shows.mwr (h : Shows hub init a st) (flags addr numBytes : Uleb) (data : List UInt8)
    (hd : data.length = numBytes.value) (bufMax : Nat) :
    Shows hub init (handle (handlers hub) (memCallbacks hub) bufMax (.mwr flags addr numBytes data hd) a).core
        (step hub init (.mwr flags addr numBytes data hd) st).core ∧
      (handle (handlers hub) (memCallbacks hub) bufMax (.mwr flags addr numBytes data hd) a).reply =
        (step hub init (.mwr flags addr numBytes data hd) st).reply := by
  simp only [handle, step, ← h.failed]
  cases hf : a.c.failed with
  | true =>
    rw [Outcome.ofCall_of_failed hf]
    refine ⟨h, ?_⟩
    simp [Outcome.withStatus, XvcClient.status_of_failed hf]
  | false =>
    rw [Outcome.ofCall_of_ok hf]
    simp only [memCallbacks, Bool.false_eq_true, if_false]
    by_cases hin : hub.Inside addr.value numBytes.value
    · simp only [if_pos hin]
      refine ⟨⟨h.pending, fun i => ?_⟩, ?_⟩
      · -- The write lands at the same byte in the hub and in the log.
        have hle := hin.1
        have hbytes : HubState.bytes hub init { st with writes := st.writes ++ [⟨addr.value, data⟩] } =
            write (st.bytes hub init) addr.value data := (write_readBack _ _ _ _).symm
        rw [hbytes]
        show write a.data (addr.value - hub.addr) data i = _
        unfold write
        by_cases hi : addr.value ≤ hub.addr + i ∧ hub.addr + i < addr.value + data.length
        · rw [if_pos hi, if_pos (by omega)]
          congr 1; omega
        · rw [if_neg hi, if_neg (by omega), h.hub]
      · simp [Outcome.withStatus, Core.after, XvcClient.after, XvcClient.status_of_ok hf]
    · simp only [if_neg hin]
      refine ⟨h.reject _ _, ?_⟩
      simp [Outcome.withStatus, status_after_reject hf]

/-- The requests do to the server what `step` says. -/
theorem simulates (hub : MemRegion) (init : ByteMem) {bufMax : Nat} (hmax : bufMax = maxPacketLen) :
    (Versal.wire (handlers hub) (memCallbacks hub) bufMax).Simulates (wire hub init) (Shows hub init)
      Msg.MemRequest := by
  intro m a st hm h
  cases m with
  | mrd flags addr numBytes => exact h.mrd flags addr numBytes bufMax
  | mwr flags addr numBytes data hd => exact h.mwr flags addr numBytes data hd bufMax
  | error =>
    refine ⟨⟨rfl, h.hub⟩, ?_⟩
    show Leb128.encode 10 (errorBytes bufMax a.c) ++ a.c.pendingError.text.take (errorBytes bufMax a.c) = _
    rw [errorBytes_eq hmax, List.take_length, h.pending]
    rfl
  | _ => exact hm.elim

end HubState

theorem Msg.MemRequest.wellFormed {m : Msg} {rx : RxBuffer} (hm : m.MemRequest)
    (hfits : m.enc.length ≤ rx.bufMax) : m.WellFormed (handlers hub) rx := by
  cases m with
  | mrd flags addr numBytes => exact ⟨rfl, hfits⟩
  | mwr flags addr numBytes data hd => exact ⟨rfl, hfits⟩
  | error => exact ⟨trivial, hfits⟩
  | _ => exact hm.elim

/-- **End to end.** A new connection to `xvc_mem`, in the buffer that `xvcserver_start` allocates,
receives `mrd:`, `mwr:` and `error:` messages in any chunks, each of which completes a batch of
them whose replies fit the reply buffer. Whenever it waits in `recv` again, the bytes sent are the
replies of `HubState.step` to the complete messages in order, the pending error is that of the
state reached, and each byte of the hub is the one that the last write to it stored. A chunk that
fits and completes another such batch is not refused. -/
theorem memory_semantics (hub : MemRegion) (rx : RxBuffer) (hmax : rx.bufMax = maxPacketLen)
    (init mem replyBuf : ByteMem) :
    let session := (Conn.start rx init mem replyBuf).Session (protocol (handlers hub))
    let ok := fun m : Msg => m.MemRequest ∧ m.enc.length ≤ rx.bufMax
    let W := HubState.wire hub init
    (∃ c, session [] c) ∧
    ∀ chunks mss q d, Batched Msg.enc ok [] chunks mss q → (∀ m ∈ mss.flatten, ok m) →
      W.BatchesFit mss {} → session chunks d →
      d.phase = .recv ∧ sentOf d.s.trace = (W.run mss.flatten {}).reply ∧
        HubState.Shows hub init d.s.view.core (W.run mss.flatten {}).core ∧
        ∀ chunk ms q', chunk ≠ [] → chunk.length ≤ d.s.room → q ++ chunk = ms.flatMap Msg.enc ++ q' →
          Tail Msg.enc ok q' → (∀ m ∈ ms, ok m) →
          (W.run ms (W.run mss.flatten {}).core).reply.length ≤ maxPacketLen →
          ∃ e, session (chunks ++ [chunk]) e := by
  intro session ok W
  have hok : ∀ m, ok m → m.WellFormed (handlers hub) rx ∧ m.Served (handlers hub) (memCallbacks hub) :=
    fun m hm => ⟨hm.1.wellFormed hm.2, memCallbacks_served hm.1⟩
  have hr := realizes (h := handlers hub) (memCallbacks hub) rx nofun
  have hsim := HubState.simulates hub init hmax
  have hshow : HubState.Shows hub init ⟨{}, init⟩ {} :=
    ⟨rfl, fun i => by simp [HubState.bytes]⟩
  have hinv : LockingKnown (handlers hub) (⟨{}, init⟩ : Core ByteMem) := fun _ => rfl
  obtain ⟨c, hc, hwait⟩ := start_waits hr init mem replyBuf
  refine ⟨⟨c, c, hc, .nil c⟩, ?_⟩
  rintro chunks mss q d hb hms hfit ⟨c', hc', hfeed⟩
  obtain rfl := hc.unique hc'
  have hreq : ∀ m ∈ mss.flatten, m.MemRequest := fun m hm => (hms m hm).1
  have hd := hwait.feed hr (hb.mono hok) (fun m hm => hok m (hms m hm)) hinv (hsim.batchesFit hreq hshow hfit) hfeed
  obtain ⟨hcore, hreply⟩ := hsim.run hreq hshow
  have hview : d.s.view.core = _ := hd.core
  refine ⟨hd.phase, ?_, ?_, ?_⟩
  · rw [hd.sent, ← hreply]
    simp [View.apply, View.flush]
  · rw [hview]
    exact hcore
  · intro chunk ms q' hne hroom heq htail hms' hrep
    have hrep' := (hsim.run (fun m hm => (hms' m hm).1) hcore).2
    obtain ⟨e, he, -⟩ := hd.exists_feed hr (fun m hm => hok m (hms' m hm)) heq (htail.mono hok)
      (Wire.inv_run hr (fun m hm => hok m (hms m hm)) hinv) hne hroom (by rw [← hrep'] at hrep; exact hrep)
    exact ⟨e, c, hc, hfeed.append he⟩

/-- A word is written to the hub and read back. -/
def writeThenRead : List Msg :=
  let flags : Uleb := ⟨[0], by decide, by decide⟩
  let addr : Uleb := ⟨[0x80, 0x80, 0x80, 0xa0, 0x0a], by decide, by decide⟩
  let numBytes : Uleb := ⟨[4], by decide, by decide⟩
  [.mwr flags addr numBytes [1, 2, 3, 4] rfl, .mrd flags addr numBytes]

theorem memory_semantics_read_back :
    let session :=
      (Conn.start (Server.loaded () []).rx zeroHub zeroHub zeroHub).Session (protocol (handlers defaultHub))
    (∃ c, session [] c) ∧
      ∀ d, session [writeThenRead.flatMap Msg.enc] d → sentOf d.s.trace = [0, 1, 2, 3, 4, 0] := by
  intro session
  have hall := memory_semantics defaultHub (Server.loaded () []).rx rfl zeroHub zeroHub zeroHub
  refine ⟨hall.1, fun d hs => ?_⟩
  have hms : ∀ m ∈ writeThenRead, m.MemRequest ∧ m.enc.length ≤ (Server.loaded () []).rx.bufMax := by
    intro m hm
    rcases List.mem_cons.mp hm with rfl | hm
    · exact ⟨⟨by decide, by decide⟩, by decide⟩
    · rw [List.mem_singleton.mp hm]
      exact ⟨⟨by decide, by decide⟩, by decide⟩
  have hb : Batched Msg.enc (fun m : Msg => m.MemRequest ∧ m.enc.length ≤ (Server.loaded () []).rx.bufMax) []
      [writeThenRead.flatMap Msg.enc] [writeThenRead] [] := .cons (by simp) (.inl rfl) (.nil [])
  have := (hall.2 _ _ _ d hb (by simpa using hms) ⟨by decide, trivial⟩ hs).2.1
  rw [this]
  decide

end Versal
end Xvc
