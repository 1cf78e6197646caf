import Xvc.Lib.Machine
import Xvc.Server.Contain
import Xvc.Server.Common
import Xvc.Server.Reply
import Xvc.Versal.XvcMem

/-!
# The reply buffer of `mem/versal`

The replies of a batch accumulate in a buffer of `replyMax` bytes. `replySize` is what a request adds
to `reply_len`, `replyRoom` how far behind `reply_len` its branch stores; neither is checked by the
code, except for the status and LEB128 bytes.

* `exec_replyLen`, `exec_stays`: both, for each branch.
* `reply_buffer_bound`: in a run in which every request that is executed has its room, nothing is
  stored outside the buffer, and no more than the buffer is sent.
-/

namespace Xvc
namespace Versal

open ByteMem Server

variable {σ : Type}

/-! ## The capacity -/

/-- The loop of `reply_buf_size`; an `unsigned` is doubled at most 32 times. -/
def growReplyMax (bytes : Nat) : Nat → Nat → Nat
  | 0, replyMax => replyMax
  | k + 1, replyMax => if replyMax < bytes then growReplyMax bytes k (replyMax * 2) else replyMax

/-- `reply_buf_size`: the new `reply_max`. -/
def replyBufSize (replyMax bytes : Nat) : Nat :=
  if replyMax < bytes then growReplyMax bytes 32 (if replyMax = 0 then 1 else replyMax) else replyMax

/-- `reply_max` in `read_packet`. -/
def replyMax : Nat := replyBufSize 0 maxPacketLen

theorem replyMax_eq : replyMax = 16384 := by decide

/-! ## What a request needs -/

/-- The status byte of a reply. -/
def Request.statusKind : Request → StatusKind
  | .getinfo | .capabilities | .error => .never
  | .shift _ _ | .settck _ => .optional
  | _ => .always

/-- The other bytes of a reply. -/
def dataSize (h : XvcServerHandlers σ) (s : Server σ) : Request → Nat
  | .getinfo => (getinfoText s.rx.bufMax).length
  | .capabilities => (Leb128.encode 10 (capabilitiesText h).length).length + (capabilitiesText h).length
  | .error => (Leb128.encode 10 (errorBytes s.rx.bufMax s.c)).length + errorBytes s.rx.bufMax s.c
  | .configure _ _ | .lock _ | .unlock | .state _ _ _ | .mwr _ _ _ _ => 0
  | .shift bits _ => shiftBytes bits
  | .settck _ => 4
  | .rshift _ flags _ count _ => tdoBytes flags count
  | .mrd _ _ numBytes => numBytes

/-- What a request adds to `reply_len`. -/
def replySize (h : XvcServerHandlers σ) (s : Server σ) (r : Request) : Nat :=
  dataSize h s r + r.statusKind.bytes s.c

theorem replyState_setLocked (s : Server σ) (v : Int) : (setLocked s v).replyState = s.replyState :=
  replyState_unlessFailed rfl

/-- Any handlers, any state: a request appends `dataSize` bytes and its status. -/
theorem exec_answers (h : XvcServerHandlers σ) {s : Server σ} (hs : s.replyLen < 2 ^ 32) (r : Request) :
    Answers s r.statusKind (dataSize h s r) (exec h s r) := by
  cases r with
  | getinfo => exact .never rfl
  | capabilities => exact .never (replyLen_replyUlebBytes s _ _)
  | configure declared p => exact .of_replyLen hs rfl
  | error =>
    have hu : (execError s).replyLen = _ := replyLen_replyUlebBytes s _ _
    rw [length_errorText] at hu
    exact .never hu
  | lock timeout =>
    refine .of_replyLen hs (replyLen_of_replyState (replyState_unlessFailed ?_))
    split
    · rfl
    split
    · rfl
    · exact (replyState_setLocked _ 1).trans (replyState_callOrNull s _ _)
  | unlock =>
    refine .of_replyLen hs (replyLen_of_replyState (replyState_unlessFailed ?_))
    split
    · rfl
    split
    · rfl
    · exact (replyState_setLocked _ 0).trans (replyState_callOrNull s _ _)
  | shift bits p => exact .of_replyState (replyState_data (replyState_unlessFailed (replyState_callback _ _ _)))
  | settck nsperiod =>
    refine .of_replyState ((replyState_bytes (replyState_unlessFailed (replyState_callback _ _ _))).trans ?_)
    rw [setUintLe, length_leBytes]
    rfl
  | rshift instruction flags state count p =>
    exact .of_replyState (replyState_data (replyState_unlessFailed (replyState_callOrNull _ _ _)))
  | state flags state count =>
    exact .of_replyLen hs (replyLen_of_replyState (replyState_unlessFailed (replyState_callOrNull _ _ _)))
  | mrd flags addr numBytes =>
    exact .of_replyState (replyState_data (replyState_unlessFailed (replyState_callOrNull _ _ _)))
  | mwr flags addr numBytes p =>
    exact .of_replyLen hs (replyLen_of_replyState (replyState_unlessFailed (replyState_callOrNull _ _ _)))

/-- A request adds `replySize` bytes to the reply. -/
theorem exec_replyLen {h : XvcServerHandlers σ} {s : Server σ} {r : Request}
    (hfit : s.replyLen + replySize h s r < 2 ^ 32) : (exec h s r).replyLen = s.replyLen + replySize h s r :=
  (exec_answers h (by omega) r).replyLen hfit

/-! ## How far a request stores -/

/-- The handlers store to the buffers that they are given and nowhere else: one byte for eight bits of
TDO, and for `mrd:` what the `mrd` of `xvc_mem` stores. -/
structure FillsBuffers (hub : MemRegion) (h : XvcServerHandlers σ) : Prop where
  setTck : ∀ d n, (h.setTck d n).1.stores = []
  shiftTmsTdi : ∀ d mem count a b i, ∀ w ∈ (h.shiftTmsTdi d mem count a b i).stores,
    i ≤ w.1 ∧ w.1 + w.2.length ≤ i + (count + 7) / 8
  lock : ∀ f, h.lock = some f → ∀ d t, (f d t).stores = []
  unlock : ∀ f, h.unlock = some f → ∀ d, (f d).stores = []
  registerShift : ∀ f, h.registerShift = some f → ∀ d mem instruction flags state count tdi tdo,
    ∀ w ∈ (f d mem instruction flags state count tdi tdo).stores,
      ∃ i, tdo = some i ∧ i ≤ w.1 ∧ w.1 + w.2.length ≤ i + tdoBytes flags count
  state : ∀ f, h.state = some f → ∀ d flags state count, (f d flags state count).stores = []
  flush : ∀ f, h.flush = some f → ∀ d mem, (f d mem).1.stores = []
  mrd : ∀ f, h.mrd = some f → ∀ d flags addr numBytes i, ∃ mem,
    (f d flags addr numBytes i).stores = (mrd hub mem flags addr numBytes i).stores
  mwr : ∀ f, h.mwr = some f → ∀ d mem flags addr numBytes p, (f d mem flags addr numBytes p).stores = []

/-- The bytes from `reply_len` on that the branch of a request stores to. A handler that is called
stores to its whole buffer, `mrd` to whole words of it; `snprintf` stores a NUL. -/
def replyRoom (hub : MemRegion) (h : XvcServerHandlers σ) (s : Server σ) : Request → Nat
  | .getinfo => replySize h s .getinfo + 1
  | .shift bits p => max (replySize h s (.shift bits p)) (if s.c.failed then 0 else (bits + 7) / 8)
  | .mrd flags addr numBytes => max (replySize h s (.mrd flags addr numBytes))
      (if s.c.failed ∨ hub.rejects addr numBytes then 0 else 4 * words numBytes)
  | r => replySize h s r

theorem replySize_le_replyRoom (hub : MemRegion) (h : XvcServerHandlers σ) (s : Server σ) (r : Request) :
    replySize h s r ≤ replyRoom hub h s r := by
  cases r with
  | getinfo => exact Nat.le_succ _
  | shift bits p => exact Nat.le_max_left _ _
  | mrd flags addr numBytes => exact Nat.le_max_left _ _
  | _ => exact Nat.le_refl _

variable {hub : MemRegion} {h : XvcServerHandlers σ} {s : Server σ} {r : Request} {limit : Nat}

theorem mrdLoop_below {mem : ByteMem} {offset buf k i limit : Nat} (hl : buf + i + 4 * k ≤ limit) :
    ∀ w ∈ mrdLoop mem offset buf k i, w.1 + w.2.length ≤ limit := by
  induction k generalizing i with
  | zero => simp [mrdLoop]
  | succ k ih =>
    intro w hw
    rcases List.mem_cons.mp hw with rfl | hw
    · simp only [length_slice]; omega
    · exact ih (by omega) w hw

theorem stays_setLocked (v : Int) : Stays limit s (setLocked s v) := stays_unlessFailed fun _ => .of_trace rfl

/-- A callback without a buffer. -/
theorem stays_of_noStores {f : Option (CallResult σ)} {c : Call} (hf : ∀ r, f = some r → r.stores = []) :
    Stays limit s (callOrNull s f c) :=
  stays_callOrNull fun r hr w hw => by rw [hf r hr] at hw; cases hw

/-- With its room below the limit, a request stores below the limit. -/
theorem exec_stays (hf : FillsBuffers hub h) (hmax : maxPacketLen ≤ limit) (hlimit : limit < 2 ^ 32)
    (hroom : s.replyLen + replyRoom hub h s r ≤ limit) : Stays limit s (exec h s r) := by
  cases r with
  | getinfo =>
    refine (stays_store ?_).trans (stays_extend _)
    simp only [replyRoom, replySize, dataSize] at hroom
    simp only [List.length_append, List.length_singleton]
    omega
  | capabilities =>
    simp only [replyRoom, replySize, dataSize] at hroom
    exact stays_replyUlebBytes hmax hlimit (by omega)
  | configure declared p => exact .trans (.of_trace rfl) (stays_replyStatus hmax)
  | error =>
    have hlen := length_errorText s.rx.bufMax s.c
    refine .trans (stays_replyUlebBytes hmax hlimit ?_) (.of_trace rfl)
    simp only [replyRoom, replySize, dataSize] at hroom
    rw [hlen]
    omega
  | lock timeout =>
    refine .trans (stays_unlessFailed fun _ => ?_) (stays_replyStatus hmax)
    split
    · exact .of_trace rfl
    split
    · exact .of_trace rfl
    · refine .trans (stays_of_noStores fun r hr => ?_) (stays_setLocked 1)
      obtain ⟨f, hlock, rfl⟩ := Option.map_eq_some_iff.mp hr
      exact hf.lock f hlock _ _
  | unlock =>
    refine .trans (stays_unlessFailed fun _ => ?_) (stays_replyStatus hmax)
    split
    · exact .of_trace rfl
    split
    · exact .of_trace rfl
    · refine .trans (stays_of_noStores fun r hr => ?_) (stays_setLocked 0)
      obtain ⟨f, hunlock, rfl⟩ := Option.map_eq_some_iff.mp hr
      exact hf.unlock f hunlock _
  | shift bits p =>
    simp only [replyRoom, replySize, dataSize] at hroom
    refine .trans (stays_unlessFailed fun hn => stays_callback fun w hw => ?_)
      (.trans (stays_replyData ?_) (stays_replyOptionalStatus hmax))
    · have := (hf.shiftTmsTdi _ _ _ _ _ _ w hw).2
      simp only [hn, Bool.false_eq_true, if_false] at hroom
      omega
    · rw [replyLen_of_replyState (replyState_unlessFailed (replyState_callback _ _ _))]
      omega
  | settck nsperiod =>
    simp only [replyRoom, replySize, dataSize] at hroom
    refine .trans (stays_unlessFailed fun _ => stays_callback fun w hw => ?_)
      (.trans (stays_replyBytes ?_) (stays_replyOptionalStatus hmax))
    · rw [hf.setTck] at hw; cases hw
    · rw [replyLen_of_replyState (replyState_unlessFailed (replyState_callback _ _ _))]
      simp only [setUintLe, length_leBytes]
      omega
  | rshift instruction flags state count p =>
    simp only [replyRoom, replySize, dataSize] at hroom
    refine .trans (stays_unlessFailed fun _ => stays_callOrNull fun r hr w hw => ?_)
      (.trans (stays_replyData ?_) (stays_replyStatus hmax))
    · obtain ⟨f, hrs, rfl⟩ := Option.map_eq_some_iff.mp hr
      obtain ⟨i, htdo, -, hle⟩ := hf.registerShift f hrs _ _ _ _ _ _ _ _ w hw
      -- The buffer is NULL when no TDO is asked for.
      split at htdo
      · cases htdo; omega
      · cases htdo
    · rw [replyLen_of_replyState (replyState_unlessFailed (replyState_callOrNull _ _ _))]
      omega
  | state flags state count =>
    refine .trans (stays_unlessFailed fun _ => stays_of_noStores fun r hr => ?_) (stays_replyStatus hmax)
    obtain ⟨f, hstate, rfl⟩ := Option.map_eq_some_iff.mp hr
    exact hf.state f hstate _ _ _ _
  | mrd flags addr numBytes =>
    simp only [replyRoom, replySize, dataSize] at hroom
    refine .trans (stays_unlessFailed fun hn => stays_callOrNull fun r hr w hw => ?_)
      (.trans (stays_replyData ?_) (stays_replyStatus hmax))
    · obtain ⟨f, hmrd, rfl⟩ := Option.map_eq_some_iff.mp hr
      obtain ⟨m, hst⟩ := hf.mrd f hmrd s.clientData flags addr numBytes s.replyLen
      rw [hst] at hw
      unfold mrd at hw
      simp only [hn, Bool.false_eq_true, false_or] at hroom
      split at hw
      · cases hw
      · next hrej =>
        rw [if_neg hrej] at hroom
        exact mrdLoop_below (by omega) w hw
    · rw [replyLen_of_replyState (replyState_unlessFailed (replyState_callOrNull _ _ _))]
      omega
  | mwr flags addr numBytes p =>
    refine .trans (stays_unlessFailed fun _ => stays_of_noStores fun r hr => ?_) (stays_replyStatus hmax)
    obtain ⟨f, hmwr, rfl⟩ := Option.map_eq_some_iff.mp hr
    exact hf.mwr f hmwr _ _ _ _ _ _

/-! ## Runs -/

/-- The request that the loop is about to execute, if there is one, has its room in the reply buffer. -/
def HasRoom (hub : MemRegion) (h : XvcServerHandlers σ) (c : Conn σ) : Prop :=
  ∀ cbuf r q p, c.phase = .parse cbuf → (dispatch h).Dispatched c.s cbuf r q p →
    c.s.replyLen + replyRoom hub h c.s r ≤ replyMax

/-- Nothing was stored outside the reply buffer and no more than that was sent, up to now. -/
structure Bounded (c : Conn σ) : Prop where
  replyLen : c.s.replyLen ≤ replyMax
  events : ∀ e ∈ c.s.trace, e.Below replyMax

/-- A step keeps within the buffer when the request it executes does. -/
theorem Bounded.step (hf : FillsBuffers hub h) {c d : Conn σ} (hstep : Conn.Step (protocol h) c d)
    (hroom : HasRoom hub h c) (hb : Bounded c) : Bounded d := by
  obtain ⟨hlen, hev⟩ := hb
  have hmax : maxPacketLen ≤ replyMax := by decide
  have hlimit : replyMax < 2 ^ 32 := by rw [replyMax_eq]; decide
  cases hstep with
  | @advance cbuf snd hp =>
    have hfin : ∀ fill, Bounded (Conn.finish (protocol h) snd c.s cbuf fill) := fun fill => by
      obtain ⟨h1, h2⟩ := stays_finish (P := protocol h) hf.flush snd cbuf fill hlen
      exact ⟨h2, h1.below hev⟩
    rw [Conn.advance_parse hp]
    cases hiter : (protocol h).iter c.s cbuf with
    | fill => exact hfin true
    | stop => exact hfin false
    | bad => exact ⟨hlen, hev⟩
    | abort => exact ⟨hlen, hev⟩
    | reply t p =>
      obtain ⟨r, q, hd, rfl⟩ := Dispatch.iter_eq_reply.mp hiter
      have hr := hroom cbuf r q p hp hd
      have hsize := replySize_le_replyRoom hub h c.s r
      refine ⟨?_, (exec_stays hf hmax hlimit hr).below hev⟩
      show (exec h c.s r).replyLen ≤ replyMax
      rw [exec_replyLen (by omega)]
      omega
  | recv hp hne hfit => exact ⟨Nat.zero_le _, hev⟩
  | closed hp => exact ⟨hlen, hev⟩
  | failed hp => exact ⟨hlen, hev⟩

/-- **The reply buffer.** Handlers that fill the buffers they are given, any bytes from the client, any
chunks, any results of `send`. As long as each request that is executed has its room, every store is
below `reply_max`, and so is every length that is sent. -/
theorem reply_buffer_bound (hub : MemRegion) (h : XvcServerHandlers σ) (hf : FillsBuffers hub h) (rx : RxBuffer)
    (data : σ) (mem replyBuf : ByteMem) (c : Conn σ)
    (hrun : Relation.ReflTransGen (Machine.Guarded (Conn.Step (protocol h)) (HasRoom hub h))
      (Conn.start rx data mem replyBuf) c) :
    (∀ i n k, Event.store i n ∈ c.s.trace → k < n → i + k < replyMax) ∧
      ∀ bytes rval, Event.send bytes rval ∈ c.s.trace → bytes.length ≤ replyMax := by
  have keep : ∀ c d : Conn σ, Conn.Step (protocol h) c d → HasRoom hub h c → Bounded c → Bounded d :=
    fun _ _ hstep hroom hb => hb.step hf hstep hroom
  have hb := Machine.Guarded.invariant keep ⟨Nat.zero_le _, fun _ he => absurd he List.not_mem_nil⟩ hrun
  exact ⟨fun i n k he hk => hb.events _ he k hk, fun bytes rval he => hb.events _ he⟩

theorem handlers_fillBuffers (hub : MemRegion) : FillsBuffers hub (handlers hub) where
  setTck _ _ := rfl
  shiftTmsTdi _ _ _ _ _ _ := nofun
  lock := nofun
  unlock := nofun
  registerShift := nofun
  state := nofun
  flush := nofun
  mrd f hf d _ _ _ _ := by
    cases hf
    exact ⟨d, rfl⟩
  mwr f hf d mem flags addr numBytes p := by
    cases hf
    unfold mwr
    split <;> rfl

/-- A new connection to `xvc_mem` that waits in `recv`. -/
def firstRecv : Conn ByteMem :=
  Conn.advance (protocol (handlers defaultHub)) Conn.sendAll
    (Conn.start (Server.loaded zeroHub []).rx zeroHub zeroHub zeroHub)

/-- The connection after it has received `bytes` and executed the first message. -/
def afterFirst (bytes : List UInt8) : Conn ByteMem :=
  Conn.advance (protocol (handlers defaultHub)) Conn.sendAll (firstRecv.receive bytes)

/-- How it gets there. -/
theorem firstRecv_step : Conn.Step (protocol (handlers defaultHub))
    (Conn.start (Server.loaded zeroHub []).rx zeroHub zeroHub zeroHub) firstRecv := .advance Conn.sendAll rfl

theorem afterFirst_step (bytes : List UInt8) :
    Conn.Step (protocol (handlers defaultHub)) (firstRecv.receive bytes) (afterFirst bytes) :=
  .advance Conn.sendAll rfl

/-- The connection when it has executed a `getinfo:`, and then sent the reply. -/
def answered : Conn ByteMem :=
  Conn.advance (protocol (handlers defaultHub)) Conn.sendAll (afterFirst (ascii "getinfo:"))

theorem reply_buffer_bound_answered :
    answered.s.trace = [.store 0 22, .send (getinfoText maxPacketLen) 21] ∧
    (∀ i n k, Event.store i n ∈ answered.s.trace → k < n → i + k < replyMax) ∧
      ∀ bytes rval, Event.send bytes rval ∈ answered.s.trace → bytes.length ≤ replyMax := by
  have hrecv : Conn.Step (protocol (handlers defaultHub)) firstRecv (firstRecv.receive (ascii "getinfo:")) :=
    .recv rfl (by decide) (by decide)
  have hsend : Conn.Step (protocol (handlers defaultHub)) (afterFirst (ascii "getinfo:")) answered :=
    .advance Conn.sendAll rfl
  refine ⟨by decide, reply_buffer_bound defaultHub (handlers defaultHub) (handlers_fillBuffers defaultHub)
    (Server.loaded zeroHub []).rx zeroHub zeroHub zeroHub _
    (.tail (.tail (.tail (.tail .refl ⟨firstRecv_step, ?_⟩) ⟨hrecv, ?_⟩) ⟨afterFirst_step _, ?_⟩) ⟨hsend, ?_⟩)⟩
  · -- Nothing has been received.
    rintro cbuf r q p hp ⟨⟨hdr, hscan, -⟩, -⟩
    cases hp
    have hnothing : Holds (Conn.start (Server.loaded zeroHub []).rx zeroHub zeroHub zeroHub).s 0x1000 [] :=
      ⟨rfl, rfl, Nat.zero_le _⟩
    cases (scanHeader_short hnothing (by simp) (by simp)).symm.trans hscan
  · rintro cbuf r q p hp
    cases hp
  · rintro cbuf r q p hp ⟨⟨hdr, hscan, hparse⟩, -⟩
    cases hp
    have hs : scanHeader (firstRecv.receive (ascii "getinfo:")).s 0x1000 = .header (ascii "getinfo:") 0x1008 := rfl
    cases hs.symm.trans hscan
    cases hparse
    decide
  · -- The message was all that has come.
    rintro cbuf r q p hp ⟨⟨hdr, hscan, -⟩, -⟩
    cases hp
    have hs : scanHeader (afterFirst (ascii "getinfo:")).s 0x1008 = .fill := by decide
    cases hs.symm.trans hscan

/-- An `mrd:` of 20000 bytes outside the window of the hub. -/
def longMrd : List UInt8 := ascii "mrd:" ++ [0, 0] ++ Leb128.encode 10 20000

theorem afterFirst_longMrd : (afterFirst longMrd).s.trace = [.call (.mrd 0 0 20000), .store 0 20000] := by
  decide

theorem reply_buffer_not_bounded :
    ¬ ∀ (hub : MemRegion) (h : XvcServerHandlers ByteMem), FillsBuffers hub h →
      ∀ (rx : RxBuffer) (data : ByteMem) (mem replyBuf : ByteMem) (c : Conn ByteMem),
        Relation.ReflTransGen (Conn.Step (protocol h)) (Conn.start rx data mem replyBuf) c →
        (∀ i n k, Event.store i n ∈ c.s.trace → k < n → i + k < replyMax) ∧
          ∀ bytes rval, Event.send bytes rval ∈ c.s.trace → bytes.length ≤ replyMax := by
  intro hall
  have hrecv : Conn.Step (protocol (handlers defaultHub)) firstRecv (firstRecv.receive longMrd) :=
    .recv rfl (by decide) (by decide)
  have hrun := Relation.ReflTransGen.tail (.tail (.tail .refl firstRecv_step) hrecv) (afterFirst_step longMrd)
  have hstore := (hall defaultHub (handlers defaultHub) (handlers_fillBuffers defaultHub) _ _ _ _ _ hrun).1
  rw [afterFirst_longMrd] at hstore
  exact absurd (hstore 0 20000 replyMax (by simp) (by decide)) (by decide)

end Versal
end Xvc
