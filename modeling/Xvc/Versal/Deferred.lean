import Mathlib.Data.List.Forall2
import Xvc.Server.Room
import Xvc.Versal.Act
import Xvc.Versal.Fragmentation
import Xvc.Versal.Twin

/-!
# Handlers that defer their TDO bytes

`shift_tms_tdi` and `register_shift` may leave `tdo_buf` for `flush`, and then read their operand there too.
For that the server must keep the operand and the region of the reply buffer until `flush`.

* `Job`: a shift that `flush` is left with. `Defers R h h'`: the tables `h` and `h'` do the same, but `h'`
  leaves its shifts for `flush`.
* `Batch`: the iterations of the loop between two calls of `recv` or `flush`, with the buffers that were
  handed out. `Batch.kept`: they are disjoint, nothing else is stored there, and the operands stay.
* `deferred_tdo`: on the same inputs both servers send the same bytes.
-/

namespace Xvc
namespace Versal

open ByteMem Server

variable {σ τ : Type}

/-! ## The tables -/

/-- A shift that was asked for: what its operand was, by address, and what it is to store. -/
structure Job where
  operand : List (Nat × List UInt8)
  stores : List (Nat × List UInt8)

/-- The operand is still there. -/
def Job.Ready (mem : ByteMem) (j : Job) : Prop := ∀ w ∈ j.operand, slice mem w.1 w.2.length = w.2

/-- What the pending jobs are to store. -/
def pendingStores (q : List Job) : List (Nat × List UInt8) := q.flatMap Job.stores

/-- One callback stored its TDO in the `n` bytes at `tdo`; the other stored nothing, and is left with the job. -/
structure Postponed (R : List Job → σ → τ → Prop) (q : List Job) (operand : List (Nat × List UInt8)) (tdo : Option Nat)
    (n : Nat) (r : CallResult σ) (r' : CallResult τ) : Prop where
  data : R (q ++ [⟨operand, r.stores⟩]) r.clientData r'.clientData
  ok : r.error = none
  ok' : r'.error = none
  within : ∀ w ∈ r.stores, ∃ i, tdo = some i ∧ i ≤ w.1 ∧ w.1 + w.2.length ≤ i + n
  later : r'.stores = []

/-- `flush` stored what was pending, and there is nothing pending any more. -/
structure Completed (R : List Job → σ → τ → Prop) (q : List Job) (d : σ) (r : CallResult τ × Int) : Prop where
  data : R [] d r.1.clientData
  ok : r.1.error = none
  returns : 0 ≤ r.2
  stores : ∀ m, applyStores r.1.stores m = applyStores (pendingStores q) m

/-- Two tables that compute the same. The first one stores the TDO of a shift in the callback; the second one
when `flush` is called and the operands are still there. `R q` relates their data while the jobs `q` are
pending. The other callbacks do the same in both, `lock` when no TDO byte is pending. -/
structure Defers (R : List Job → σ → τ → Prop) (h : XvcServerHandlers σ) (h' : XvcServerHandlers τ) : Prop where
  table : SameTable h h'
  setTck : ∀ {q d d'} nsperiod lo, R q d d' → (h'.setTck d' nsperiod).2 = (h.setTck d nsperiod).2 ∧
    Matches (R q) lo (h.setTck d nsperiod).1 (h'.setTck d' nsperiod).1
  shiftTmsTdi : ∀ {q d d'} mem count tms tdi tdo, R q d d' →
    Postponed R q [(tms, slice mem tms ((count + 7) / 8)), (tdi, slice mem tdi ((count + 7) / 8))] (some tdo)
      ((count + 7) / 8) (h.shiftTmsTdi d mem count tms tdi tdo) (h'.shiftTmsTdi d' mem count tms tdi tdo)
  lock : ∀ {q d d'} timeout lo, R q d d' → (∀ w ∈ pendingStores q, w.2 = []) →
    Option.Rel (Matches (R q) lo) (h.lock.map fun f => f d timeout) (h'.lock.map fun f => f d' timeout)
  unlock : ∀ {q d d'} lo, R q d d' →
    Option.Rel (Matches (R q) lo) (h.unlock.map fun f => f d) (h'.unlock.map fun f => f d')
  registerShift : ∀ f f', h.registerShift = some f → h'.registerShift = some f' →
    ∀ {q d d'} mem instruction flags state count tdi tdo, R q d d' →
      Postponed R q (tdi.elim [] fun p => [(p, slice mem p (tdiBytes flags count))]) tdo (tdoBytes flags count)
        (f d mem instruction flags state count tdi tdo) (f' d' mem instruction flags state count tdi tdo)
  state : ∀ {q d d'} flags state count lo, R q d d' → Option.Rel (Matches (R q) lo)
    (h.state.map fun f => f d flags state count) (h'.state.map fun f => f d' flags state count)
  mrd : ∀ {q d d'} flags addr numBytes i, R q d d' → Option.Rel (Matches (R q) i)
    (h.mrd.map fun f => f d flags addr numBytes i) (h'.mrd.map fun f => f d' flags addr numBytes i)
  mwr : ∀ {q d d'} mem flags addr numBytes p lo, R q d d' → Option.Rel (Matches (R q) lo)
    (h.mwr.map fun f => f d mem flags addr numBytes p) (h'.mwr.map fun f => f d' mem flags addr numBytes p)
  /-- The first one has nothing to do in `flush`. -/
  flush : ∀ f, h.flush = some f → ∀ d mem, f d mem = ({ clientData := d }, 0)
  completes : ∃ f', h'.flush = some f' ∧ ∀ {q d d'} mem, R q d d' → (∀ j ∈ q, j.Ready mem) →
    Completed R q d (f' d' mem)

/-! ## The buffer lags behind -/

/-- The first buffer has what the pending jobs are to store in the second one. -/
def Lags (q : List Job) (_ : List Event) (b b' : ByteMem) : Prop := b = applyStores (pendingStores q) b'

theorem pendingStores_append (q q' : List Job) : pendingStores (q ++ q') = pendingStores q ++ pendingStores q' :=
  List.flatMap_append

theorem applyStores_append (ws ws' : List (Nat × List UInt8)) (m : ByteMem) :
    applyStores (ws ++ ws') m = applyStores ws' (applyStores ws m) := List.foldl_append

/-- A store behind all of them commutes with them. -/
theorem applyStores_write {ws : List (Nat × List UInt8)} {i : Nat} (h : ∀ w ∈ ws, w.1 + w.2.length ≤ i) (m : ByteMem)
    (l : List UInt8) : applyStores ws (write m i l) = write (applyStores ws m) i l := by
  induction ws generalizing m with
  | nil => rfl
  | cons w ws ih =>
    show applyStores ws (write (write m i l) w.1 w.2) = write (applyStores ws (write m w.1 w.2)) i l
    rw [← ih fun x hx => h x (List.mem_cons_of_mem _ hx), write_comm m (h w List.mem_cons_self)]

theorem frames_lags {q : List Job} {lo : Nat} (h : ∀ w ∈ pendingStores q, w.1 + w.2.length ≤ lo) :
    Frames lo (Lags q) where
  store hi hb := by
    unfold Lags at hb ⊢
    rw [applyStores_write fun w hw => Nat.le_trans (h w hw) hi, hb]
  called _ hb := hb

/-! ## A shift -/

variable {R : σ → τ → Prop} {B : List Event → ByteMem → ByteMem → Prop} {h : XvcServerHandlers σ}
  {h' : XvcServerHandlers τ} {s : Server σ}
  {t : Server τ} {q : List Job}

/-- The callbacks of a shift: the first buffer is ahead by one more job. -/
theorem alike_postponed {R : List Job → σ → τ → Prop} {operand : List (Nat × List UInt8)}
    {tdo : Option Nat} {n : Nat} {r : CallResult σ}
    {r' : CallResult τ} (ha : Alike (R q) (Lags q) s t) (hp : Postponed R q operand tdo n r r') (c : Call) :
    Alike (R (q ++ [⟨operand, r.stores⟩])) (Lags (q ++ [⟨operand, r.stores⟩])) (s.callback c r) (t.callback c r') := by
  obtain ⟨hdata, hok, hok', -, hlater⟩ := hp
  rw [callback_eq, callback_eq, hok, hok', hlater]
  refine ⟨ha.received, ha.c, ha.replyLen, hdata, ?_, ?_⟩
  · show applyStores r.stores s.replyBuf = applyStores (pendingStores (q ++ [⟨operand, r.stores⟩])) t.replyBuf
    rw [pendingStores_append, applyStores_append, ← ha.buf]
    simp [pendingStores]
  · show sentOf (t.trace ++ [Event.call c] ++ []) = sentOf (s.trace ++ [Event.call c] ++ _)
    simp only [sentOf_append, sentOf_stores, ha.sent, sentOf_nil]

/-- The data of a reply behind a callback that raised no error: nothing is stored. -/
theorem alike_dataOk {R' : σ → τ → Prop} {B' : List Event → ByteMem → ByteMem → Prop} {u : Server σ} {v : Server τ}
    {lo n : Nat} (huv : Alike R' B' u v) (hu : u.c.failed = false) (hlo : lo = u.replyLen) (hfit : lo + n < 2 ^ 32) :
    Alike R' B' (u.replyData n) (v.replyData n) ∧ lo + n ≤ (u.replyData n).replyLen := by
  have hv : v.c.failed = false := (congrArg XvcClient.failed huv.c).trans hu
  simp only [Server.replyData, hu, hv, Bool.false_eq_true, if_false]
  refine ⟨huv.extend n, ?_⟩
  show lo + n ≤ u32 (u.replyLen + n)
  rw [← hlo, u32_of_lt hfit]

theorem failed_callback {u : Server σ} (hu : u.c.failed = false) (c : Call) {r : CallResult σ} (hr : r.error = none) :
    (u.callback c r).c.failed = false := by
  rw [callback_eq, hr]
  exact hu

/-- `shift:` whose callback was called and raised no error. -/
theorem alike_shiftOk {R' : σ → τ → Prop} {B' : List Event → ByteMem → ByteMem → Prop} {bits p : Nat}
    (ha : Alike R B s t) (hs : s.c.failed = false)
    (hcalled : ∀ c, Alike R' B'
      (s.callback c (h.shiftTmsTdi s.clientData s.mem bits p (u64 (p + shiftBytes bits)) s.replyLen))
      (t.callback c (h'.shiftTmsTdi t.clientData s.mem bits p (u64 (p + shiftBytes bits)) s.replyLen)))
    (hok : (h.shiftTmsTdi s.clientData s.mem bits p (u64 (p + shiftBytes bits)) s.replyLen).error = none)
    (hB : Frames (s.replyLen + shiftBytes bits) B') (hfit : s.replyLen + shiftBytes bits < 2 ^ 32) :
    Alike R' B' (execShift h s bits p) (execShift h' t bits p) := by
  have ht : t.c.failed = false := (congrArg XvcClient.failed ha.c).trans hs
  unfold execShift
  simp only [Server.unlessFailed, hs, ht, Bool.false_eq_true, if_false, ha.mem, ha.replyLen]
  obtain ⟨hdata, hlo⟩ := alike_dataOk (hcalled _) (failed_callback hs _ hok)
    (replyLen_of_replyState (replyState_callback _ _ _)).symm hfit
  exact hdata.replyOptionalStatus hB hlo

/-- The same for `irshift:` and `drshift:`. -/
theorem alike_rshiftOk {R' : σ → τ → Prop} {B' : List Event → ByteMem → ByteMem → Prop} {instruction : Bool}
    {flags state count p : Nat} {f : σ → ByteMem → Bool → Nat → Nat → Nat → Option Nat → Option Nat → CallResult σ}
    {f' : τ → ByteMem → Bool → Nat → Nat → Nat → Option Nat → Option Nat → CallResult τ}
    (hf : h.registerShift = some f) (hf' : h'.registerShift = some f') (ha : Alike R B s t) (hs : s.c.failed = false)
    (hcalled : ∀ c, Alike R' B'
      (s.callback c (f s.clientData s.mem instruction flags state count
        (if tdiBytes flags count ≠ 0 then some p else none)
        (if tdoBytes flags count ≠ 0 then some s.replyLen else none)))
      (t.callback c (f' t.clientData s.mem instruction flags state count
        (if tdiBytes flags count ≠ 0 then some p else none)
        (if tdoBytes flags count ≠ 0 then some s.replyLen else none))))
    (hok : (f s.clientData s.mem instruction flags state count
        (if tdiBytes flags count ≠ 0 then some p else none)
        (if tdoBytes flags count ≠ 0 then some s.replyLen else none)).error = none)
    (hB : Frames (s.replyLen + tdoBytes flags count) B') (hfit : s.replyLen + tdoBytes flags count < 2 ^ 32) :
    Alike R' B' (execRshift h s instruction flags state count p) (execRshift h' t instruction flags state count p) := by
  have ht : t.c.failed = false := (congrArg XvcClient.failed ha.c).trans hs
  unfold execRshift
  simp only [Server.unlessFailed, hs, ht, Bool.false_eq_true, if_false, ha.mem, ha.replyLen, hf, hf', Option.map_some,
    callOrNull]
  obtain ⟨hdata, hlo⟩ := alike_dataOk (hcalled _) (failed_callback hs _ hok)
    (replyLen_of_replyState (replyState_callback _ _ _)).symm hfit
  exact hdata.replyStatus hB hlo

/-! ## A message -/

/-- The length of the message at `cbuf` does not wrap, and its reply leaves the batch within `max_packet_len`. -/
def InOrder (h : XvcServerHandlers σ) (s : Server σ) (cbuf : Nat) : Prop :=
  LengthsFit h s cbuf ∧
    ∀ r q p, (dispatch h).Dispatched s cbuf r q p → s.replyLen + replySize h s r ≤ maxPacketLen

/-- A message changes nothing before itself: `configure:` edits its own operand. -/
theorem exec_mem_before {r : Request} {cbuf q p : Nat} (hcon : Contained layout s cbuf r q p) (hend : s.cend ≤ 2 ^ 63)
    {x : Nat} (hx : x < q) : (exec h s r).mem x = s.mem x := by
  rcases received_exec h s r with ⟨declared, a, rfl⟩ | hr
  · obtain ⟨-, hqa, hle⟩ := hcon.operand a declared rfl
    have hu : u32 declared ≤ declared := Nat.mod_le _ _
    have hmem : (exec h s (.configure declared a)).mem =
        (configure (lockingAvailable h) s.mem a (u64 (a + u32 declared)) s.c).1 := by
      show (execConfigure _ s declared a).mem = _
      unfold execConfigure
      generalize configure (lockingAvailable h) s.mem a (u64 (a + u32 declared)) s.c = r
      exact (Prod.mk.inj (Prod.mk.inj (Server.received_replyStatus { s with mem := r.1, c := r.2 })).2).2
    rw [hmem, u64_of_lt (by omega)]
    exact (configure_spec (lockingAvailable h) s.mem a (u32 declared) s.c).2 x (.inl (by omega))
  · exact congrFun (Prod.mk.inj (Prod.mk.inj hr).2).2 x

/-- The second server is behind by the jobs `q`: they store below `reply_len`, and their operands are behind
`cbuf` and still there. -/
structure Lagging (R : List Job → σ → τ → Prop) (q : List Job) (s : Server σ) (t : Server τ) (cbuf : Nat) : Prop where
  alike : Alike (R q) (Lags q) s t
  below : ∀ w ∈ pendingStores q, w.1 + w.2.length ≤ s.replyLen
  ready : ∀ j ∈ q, j.Ready s.mem
  behind : ∀ j ∈ q, ∀ w ∈ j.operand, w.1 + w.2.length ≤ cbuf

variable {R : List Job → σ → τ → Prop}

/-- What the earlier jobs need is kept by a message. -/
theorem Lagging.keep {r : Request} {cbuf a p : Nat} (hl : Lagging R q s t cbuf) (hcon : Contained layout s cbuf r a p)
    (hend : s.cend ≤ 2 ^ 63) (ha : cbuf < a) (hfit : s.replyLen + replySize h s r < 2 ^ 32) :
    (∀ w ∈ pendingStores q, w.1 + w.2.length ≤ (exec h s r).replyLen) ∧ (∀ j ∈ q, j.Ready (exec h s r).mem) ∧
      ∀ j ∈ q, ∀ w ∈ j.operand, w.1 + w.2.length ≤ p := by
  have hprog := hcon.progress
  refine ⟨fun w hw => ?_, fun j hj w hw => ?_, fun j hj w hw => ?_⟩
  · rw [exec_replyLen hfit]
    exact Nat.le_trans (hl.below w hw) (Nat.le_add_right _ _)
  · have hb := hl.behind j hj w hw
    rw [← hl.ready j hj w hw, length_slice]
    exact slice_congr fun i hi => exec_mem_before hcon hend (by omega)
  · exact Nat.le_trans (hl.behind j hj w hw) (by omega)

/-- A message that leaves no job. -/
theorem Lagging.exec_same {r : Request} {cbuf a p : Nat} (ht : SameTable h h') (hl : Lagging R q s t cbuf)
    (hcon : Contained layout s cbuf r a p) (hend : s.cend ≤ 2 ^ 63) (ha : cbuf < a)
    (hfit : s.replyLen + replySize h s r ≤ maxPacketLen)
    (hcall : s.c.failed = false → CallMatches (R q) h h' s t.clientData r) :
    Lagging R q (exec h s r) (exec h' t r) p := by
  have hmax := maxPacketLen_lt
  obtain ⟨hbelow, hready, hbehind⟩ := hl.keep (h := h) hcon hend ha (by omega)
  exact ⟨alike_exec ht hl.alike (frames_lags hl.below) (by omega) hcall, hbelow, hready, hbehind⟩

/-- The operand of a `shift:` that is executed, and where it ends. -/
theorem parse_shift_ends {cbuf a p bits o : Nat} {hdr : List UInt8}
    (hm : parse h s cbuf hdr a = .msg (.shift bits o) p) : p = u64 (o + u32 (shiftBytes bits * 2)) := by
  have hshift := (parse_branch hm).2.2 bits o rfl
  unfold parseShift at hshift
  split at hshift
  · cases hshift
  · obtain ⟨-, hr, hp⟩ := check_eq_msg.mp hshift
    cases hr
    exact hp.symm

/-- The operand of a `shift:` is what the handler takes it to be. -/
theorem shift_operand {cbuf a p bits o : Nat} (hd : (dispatch h).Dispatched s cbuf (.shift bits o) a p)
    (hcon : Contained layout s cbuf (.shift bits o) a p) (hend : s.cend ≤ 2 ^ 63) :
    shiftBytes bits = (bits + 7) / 8 ∧ o + 2 * shiftBytes bits = p ∧ p ≤ s.cend := by
  obtain ⟨⟨hdr, -, hparse⟩, -⟩ := hd
  obtain ⟨ho, -, hle⟩ := hcon.operand o _ rfl
  have hends := hcon.ends
  have hin := hcon.inside
  rw [← ho] at hends
  have hp := parse_shift_ends hparse
  have hsmall : shiftBytes bits * 2 < 2 ^ 32 := by
    have : u32 (bits + 7) < 2 ^ 32 := Nat.mod_lt _ (by decide)
    unfold shiftBytes
    omega
  rw [u32_of_lt hsmall] at hp
  have hbytes : layout.operandBytes (.shift bits o) = 2 * ((bits + 7) / 8) := rfl
  rw [hbytes] at hends
  have hnowrap : o + shiftBytes bits * 2 < 2 ^ 64 := by omega
  rw [u64_of_lt hnowrap] at hp
  omega

/-- One more job stores below the end of its region. -/
theorem Lagging.below_push {operand : List (Nat × List UInt8)} {tdo : Option Nat} {n cbuf : Nat} {r : CallResult σ}
    {r' : CallResult τ} (hl : Lagging R q s t cbuf) (hp : Postponed R q operand tdo n r r')
    (htdo : ∀ i, tdo = some i → i = s.replyLen) :
    ∀ w ∈ pendingStores (q ++ [⟨operand, r.stores⟩]), w.1 + w.2.length ≤ s.replyLen + n := by
  intro w hw
  rw [pendingStores_append] at hw
  rcases List.mem_append.mp hw with hw | hw
  · exact Nat.le_trans (hl.below w hw) (Nat.le_add_right _ _)
  · obtain ⟨i, hi, -, hle⟩ := hp.within w (by simpa [pendingStores] using hw)
    rwa [htdo i hi] at hle

/-- A message that leaves one more job, whose operand it has not changed. -/
theorem Lagging.push {operand : List (Nat × List UInt8)} {tdo : Option Nat} {n cbuf p : Nat} {r : CallResult σ}
    {r' : CallResult τ} {u : Server σ} {v : Server τ} (hl : Lagging R q s t cbuf)
    (hp : Postponed R q operand tdo n r r') (htdo : ∀ i, tdo = some i → i = s.replyLen)
    (halike : Alike (R (q ++ [⟨operand, r.stores⟩])) (Lags (q ++ [⟨operand, r.stores⟩])) u v)
    (hlen : s.replyLen + n ≤ u.replyLen) (hready : ∀ j ∈ q, j.Ready u.mem)
    (hbehind : ∀ j ∈ q, ∀ w ∈ j.operand, w.1 + w.2.length ≤ p)
    (hop : ∀ w ∈ operand, slice u.mem w.1 w.2.length = w.2 ∧ w.1 + w.2.length ≤ p) :
    Lagging R (q ++ [⟨operand, r.stores⟩]) u v p := by
  refine ⟨halike, fun w hw => Nat.le_trans (hl.below_push hp htdo w hw) hlen, fun j hj => ?_, fun j hj => ?_⟩
  · rcases List.mem_append.mp hj with hj | hj
    · exact hready j hj
    · cases List.mem_singleton.mp hj
      exact fun w hw => (hop w hw).1
  · rcases List.mem_append.mp hj with hj | hj
    · exact hbehind j hj
    · cases List.mem_singleton.mp hj
      exact fun w hw => (hop w hw).2

/-- With TDI data an `irshift:` or `drshift:` ends behind it. -/
theorem rshift_operand {instruction : Bool} {cbuf a p flags state count o : Nat}
    (hcon : Contained layout s cbuf (.rshift instruction flags state count o) a p) (htdi : tdiBytes flags count ≠ 0) :
    o + tdiBytes flags count ≤ p := by
  have hflags : flags &&& 3 = 0 := by
    by_contra hne
    exact htdi (if_neg hne)
  have hoperand : layout.operand (.rshift instruction flags state count o) = some (o, (count + 7) / 8) := if_pos hflags
  obtain ⟨ho, -, -⟩ := hcon.operand o _ hoperand
  have hends := hcon.ends
  rw [← ho, Layout.operandBytes, hoperand] at hends
  have hle : tdiBytes flags count ≤ (count + 7) / 8 := by
    have : u64 (count + 7) ≤ count + 7 := Nat.mod_le _ _
    unfold tdiBytes
    rw [if_pos hflags]
    omega
  simp only [Option.elim_some] at hends
  omega

/-- `shift:` leaves one more job. -/
theorem Lagging.exec_shift {cbuf a p bits o : Nat} (hd : Defers R h h') (hl : Lagging R q s t cbuf)
    (hdisp : (dispatch h).Dispatched s cbuf (.shift bits o) a p)
    (hcon : Contained layout s cbuf (.shift bits o) a p) (hend : s.cend ≤ 2 ^ 63) (ha : cbuf < a)
    (hfit : s.replyLen + replySize h s (.shift bits o) ≤ maxPacketLen) (hs : s.c.failed = false) :
    ∃ q', Lagging R q' (exec h s (.shift bits o)) (exec h' t (.shift bits o)) p := by
  have hmax := maxPacketLen_lt
  obtain ⟨hbytes, hp, hle⟩ := shift_operand hdisp hcon hend
  obtain ⟨-, hready, hbehind⟩ := hl.keep (h := h) hcon hend ha (by omega)
  have hlen : (exec h s (.shift bits o)).replyLen = _ := exec_replyLen (by omega)
  have hsize : shiftBytes bits ≤ replySize h s (.shift bits o) := Nat.le_add_right _ _
  have hmem : (exec h s (.shift bits o)).mem = s.mem :=
    (Prod.mk.inj (Prod.mk.inj (received_execShift h s bits o)).2).2
  have hpost := hd.shiftTmsTdi s.mem bits o (u64 (o + shiftBytes bits)) s.replyLen hl.alike.data
  have htdo : ∀ i, some s.replyLen = some i → i = s.replyLen := fun i hi => (Option.some.inj hi).symm
  rw [← hbytes] at hpost
  refine ⟨_, hl.push hpost htdo (alike_shiftOk hl.alike hs (fun c => alike_postponed hl.alike hpost c) hpost.ok
    (frames_lags (hl.below_push hpost htdo)) (by omega)) (by rw [hlen]; omega) hready hbehind fun w hw => ?_⟩
  rw [u64_of_lt (show o + shiftBytes bits < 2 ^ 64 by omega)] at hw
  rw [hmem]
  rcases List.mem_cons.mp hw with rfl | hw
  · exact ⟨by rw [length_slice], by simp only [length_slice]; omega⟩
  · cases List.mem_singleton.mp hw
    exact ⟨by rw [length_slice], by simp only [length_slice]; omega⟩

/-- `irshift:` and `drshift:` leave one more job. -/
theorem Lagging.exec_rshift {instruction : Bool} {cbuf a p flags state count o : Nat} (hd : Defers R h h')
    (hl : Lagging R q s t cbuf) (hav : h.registerShift.isSome)
    (hcon : Contained layout s cbuf (.rshift instruction flags state count o) a p) (hend : s.cend ≤ 2 ^ 63)
    (ha : cbuf < a) (hfit : s.replyLen + replySize h s (.rshift instruction flags state count o) ≤ maxPacketLen)
    (hs : s.c.failed = false) :
    ∃ q', Lagging R q' (exec h s (.rshift instruction flags state count o))
      (exec h' t (.rshift instruction flags state count o)) p := by
  have hmax := maxPacketLen_lt
  obtain ⟨f, hf⟩ := Option.isSome_iff_exists.mp hav
  obtain ⟨f', hf'⟩ := Option.isSome_iff_exists.mp (hd.table.registerShift.trans hav)
  obtain ⟨-, hready, hbehind⟩ := hl.keep (h := h) hcon hend ha (by omega)
  have hlen : (exec h s (.rshift instruction flags state count o)).replyLen = _ := exec_replyLen (by omega)
  have hsize : tdoBytes flags count ≤ replySize h s (.rshift instruction flags state count o) := Nat.le_add_right _ _
  have hmem : (exec h s (.rshift instruction flags state count o)).mem = s.mem :=
    (Prod.mk.inj (Prod.mk.inj (received_execRshift h s instruction flags state count o)).2).2
  have hpost := hd.registerShift f f' hf hf' s.mem instruction flags state count
    (if tdiBytes flags count ≠ 0 then some o else none) (if tdoBytes flags count ≠ 0 then some s.replyLen else none)
    hl.alike.data
  have htdo : ∀ i, (if tdoBytes flags count ≠ 0 then some s.replyLen else none) = some i → i = s.replyLen :=
    fun i hi => by
      split at hi
      · exact (Option.some.inj hi).symm
      · cases hi
  refine ⟨_, hl.push hpost htdo (alike_rshiftOk hf hf' hl.alike hs (fun c => alike_postponed hl.alike hpost c) hpost.ok
    (frames_lags (hl.below_push hpost htdo)) (by omega)) (by rw [hlen]; omega) hready hbehind fun w hw => ?_⟩
  rw [hmem]
  by_cases htdi : tdiBytes flags count = 0
  · rw [if_neg (not_not_intro htdi)] at hw
    cases hw
  · rw [if_pos htdi] at hw
    cases List.mem_singleton.mp hw
    have := rshift_operand hcon htdi
    exact ⟨by rw [length_slice], by simp only [length_slice]; omega⟩

/-- The callback of a message that leaves no job does the same on both sides. -/
theorem Defers.callMatches {r : Request} (hd : Defers R h h') {d' : τ} (hdata : R q s.clientData d')
    (hlock : (∃ timeout, r = .lock timeout) → ∀ w ∈ pendingStores q, w.2 = [])
    (hno : (∀ bits p, r ≠ .shift bits p) ∧ ∀ i flags state count p, r ≠ .rshift i flags state count p) :
    CallMatches (R q) h h' s d' r := by
  cases r with
  | settck nsperiod => exact hd.setTck nsperiod _ hdata
  | lock timeout => exact hd.lock timeout _ hdata (hlock ⟨timeout, rfl⟩)
  | unlock => exact hd.unlock _ hdata
  | state flags state count => exact hd.state flags state count _ hdata
  | mrd flags addr numBytes => exact hd.mrd flags addr numBytes _ hdata
  | mwr flags addr numBytes p => exact hd.mwr _ flags addr numBytes p _ hdata
  | shift bits p => exact absurd rfl (hno.1 bits p)
  | rshift i flags state count p => exact absurd rfl (hno.2 i flags state count p)
  | _ => trivial

/-- **A message.** Whatever it is, the second server stays behind by the jobs that are pending. -/
theorem Lagging.exec {cbuf a p : Nat} {r : Request} (hd : Defers R h h') (hl : Lagging R q s t cbuf)
    (hlen : s.bufLen ≤ s.rx.bufMax) (hin : InOrder h s cbuf) (hdisp : (dispatch h).Dispatched s cbuf r a p) :
    ∃ q', Lagging R q' (exec h s r) (exec h' t r) p := by
  have hend := s.cend_le hlen
  have hcon := (contains_iff hlen).mpr hin.1 r a p hdisp
  have hfit := hin.2 r a p hdisp
  obtain ⟨hdr, hscan, hparse⟩ := hdisp.complete
  obtain ⟨ha, -⟩ := scanHeader_bounds hscan
  by_cases hs : s.c.failed = true
  · exact ⟨q, hl.exec_same hd.table hcon hend ha hfit fun hn => absurd (hs.symm.trans hn) Bool.true_eq_false.mp⟩
  have hs : s.c.failed = false := Bool.eq_false_iff.mpr hs
  have hsame : ((∀ bits p, r ≠ .shift bits p) ∧ ∀ i flags state count p, r ≠ .rshift i flags state count p) →
      ∃ q', Lagging R q' (Versal.exec h s r) (Versal.exec h' t r) p := fun hno => by
    refine ⟨q, hl.exec_same hd.table hcon hend ha hfit fun _ => hd.callMatches hl.alike.data ?_ hno⟩
    -- `lock:` is only executed when nothing is to be sent.
    rintro ⟨timeout, rfl⟩ w hw
    have hzero : s.replyLen = 0 := by
      have := hdisp.runs
      simp only [dispatch, Request.waitsForReplies, true_and] at this
      omega
    have := hl.below w hw
    exact List.length_eq_zero_iff.mp (by omega)
  cases r with
  | shift bits o => exact hl.exec_shift hd hdisp hcon hend ha hfit hs
  | rshift i flags state count o => exact hl.exec_rshift hd (parse_available hparse) hcon hend ha hfit hs
  | _ => exact hsame ⟨fun _ _ he => (by cases he), fun _ _ _ _ _ he => (by cases he)⟩

/-! ## What is handed out -/

/-- What a shift callback was given: the bytes of the reply buffer, and its operand by address. -/
structure Handed where
  tdo : Nat
  bytes : Nat
  operand : List (Nat × List UInt8)

/-- What the message hands out. -/
def handedOut (s : Server σ) : Request → List Handed
  | .shift bits p =>
    if s.c.failed then []
    else [⟨s.replyLen, shiftBytes bits, [(p, slice s.mem p (shiftBytes bits)),
      (p + shiftBytes bits, slice s.mem (p + shiftBytes bits) (shiftBytes bits))]⟩]
  | .rshift _ flags _ count p =>
    if s.c.failed then []
    else [⟨s.replyLen, tdoBytes flags count,
      if tdiBytes flags count ≠ 0 then [(p, slice s.mem p (tdiBytes flags count))] else []⟩]
  | _ => []

/-- Only a shift that calls its callback hands something out. -/
theorem mem_handedOut {x : Handed} {r : Request} (hx : x ∈ handedOut s r) : s.c.failed = false ∧
    ((∃ bits p, r = .shift bits p ∧ x = ⟨s.replyLen, shiftBytes bits, [(p, slice s.mem p (shiftBytes bits)),
      (p + shiftBytes bits, slice s.mem (p + shiftBytes bits) (shiftBytes bits))]⟩) ∨
    ∃ i flags state count p, r = .rshift i flags state count p ∧
      x = ⟨s.replyLen, tdoBytes flags count,
        if tdiBytes flags count ≠ 0 then [(p, slice s.mem p (tdiBytes flags count))] else []⟩) := by
  cases hs : s.c.failed with
  | true => cases r <;> simp [handedOut, hs] at hx
  | false =>
    cases r with
    | shift bits p =>
      simp only [handedOut, hs, Bool.false_eq_true, if_false, List.mem_singleton] at hx
      exact ⟨rfl, .inl ⟨bits, p, rfl, hx⟩⟩
    | rshift i flags state count p =>
      simp only [handedOut, hs, Bool.false_eq_true, if_false, List.mem_singleton] at hx
      exact ⟨rfl, .inr ⟨i, flags, state, count, p, rfl, hx⟩⟩
    | _ => cases hx

/-- The messages that the loop executes from `s₀` on, with all that they have handed out. -/
inductive Batch (h : XvcServerHandlers σ) (s₀ : Server σ) : List Handed → Server σ → Nat → Prop
  | start : Batch h s₀ [] s₀ s₀.rx.buf
  | exec {hs : List Handed} {s : Server σ} {cbuf a p : Nat} {r : Request} (hb : Batch h s₀ hs s cbuf)
      (hin : InOrder h s cbuf) (hd : (dispatch h).Dispatched s cbuf r a p) :
      Batch h s₀ (hs ++ handedOut s r) (exec h s r) p

/-- The callbacks store in the buffer that they are given, and those of a shift store nothing yet and raise
no error. -/
structure StoresLater (h : XvcServerHandlers σ) : Prop where
  setTck : ∀ d nsperiod, (h.setTck d nsperiod).1.stores = []
  shiftTmsTdi : ∀ d mem count tms tdi tdo, (h.shiftTmsTdi d mem count tms tdi tdo).stores = [] ∧
    (h.shiftTmsTdi d mem count tms tdi tdo).error = none
  lock : ∀ f, h.lock = some f → ∀ d timeout, (f d timeout).stores = []
  unlock : ∀ f, h.unlock = some f → ∀ d, (f d).stores = []
  registerShift : ∀ f, h.registerShift = some f → ∀ d mem instruction flags state count tdi tdo,
    (f d mem instruction flags state count tdi tdo).stores = [] ∧
      (f d mem instruction flags state count tdi tdo).error = none
  state : ∀ f, h.state = some f → ∀ d flags state count, (f d flags state count).stores = []
  mrd : ∀ f, h.mrd = some f → ∀ d flags addr numBytes i, ∀ w ∈ (f d flags addr numBytes i).stores, i ≤ w.1
  mwr : ∀ f, h.mwr = some f → ∀ d mem flags addr numBytes p, (f d mem flags addr numBytes p).stores = []

/-- The trace goes on with such events. -/
def Adds (tr₀ : List Event) (lo : Nat) (tr : List Event) (b b' : ByteMem) : Prop :=
  b' = b ∧ ∃ es, tr = tr₀ ++ es ∧ ∀ e ∈ es, e.Behind lo

theorem frames_adds (tr₀ : List Event) (lo : Nat) : Frames lo (Adds tr₀ lo) where
  store {tr b b' i l} hi := by
    rintro ⟨rfl, es, rfl, hes⟩
    refine ⟨rfl, es ++ [.store i l.length], by rw [List.append_assoc], fun e he => ?_⟩
    rcases List.mem_append.mp he with he | he
    · exact hes e he
    · cases List.mem_singleton.mp he
      exact hi
  called {tr b b' e} hcall := by
    rintro ⟨rfl, es, rfl, hes⟩
    refine ⟨rfl, es ++ [e], by rw [List.append_assoc], fun e' he => ?_⟩
    rcases List.mem_append.mp he with he | he
    · exact hes e' he
    · rw [List.mem_singleton.mp he]
      exact hcall.behind lo

/-- Between `s` and `t` there are only calls, and stores at or behind `lo`. -/
def AddsTo (lo : Nat) (s t : Server σ) : Prop := ∃ es, t.trace = s.trace ++ es ∧ ∀ e ∈ es, e.Behind lo

theorem alike_self (s : Server σ) (lo : Nat) : Alike Eq (Adds s.trace lo) s s :=
  ⟨rfl, rfl, rfl, rfl, ⟨rfl, [], by simp, nofun⟩, rfl⟩

theorem sameTable_self (h : XvcServerHandlers σ) : SameTable h h := ⟨rfl, rfl, rfl, rfl, rfl, rfl⟩

theorem rel_self {lo : Nat} {f : Option (CallResult σ)} (hf : ∀ r, f = some r → ∀ w ∈ r.stores, lo ≤ w.1) :
    Option.Rel (Matches Eq lo) f f := by
  cases f with
  | none => exact .none
  | some r => exact .some ⟨rfl, rfl, rfl, hf r rfl⟩

/-- Every callback is like itself. -/
theorem StoresLater.callMatches (hl : StoresLater h) (r : Request) : CallMatches Eq h h s s.clientData r := by
  have hnone : ∀ {x : CallResult σ} (lo : Nat), x.stores = [] → ∀ w ∈ x.stores, lo ≤ w.1 := fun lo hx w hw => by
    rw [hx] at hw
    cases hw
  have hmap : ∀ {α : Type} {o : Option α} {g : α → CallResult σ} (lo : Nat), (∀ f, o = some f → (g f).stores = []) →
      ∀ x, o.map g = some x → ∀ w ∈ x.stores, lo ≤ w.1 := fun lo hg x hx => by
    obtain ⟨f, hf, rfl⟩ := Option.map_eq_some_iff.mp hx
    exact hnone lo (hg f hf)
  cases r with
  | settck nsperiod => exact ⟨rfl, rfl, rfl, rfl, hnone _ (hl.setTck _ _)⟩
  | shift bits p => exact ⟨rfl, rfl, rfl, hnone _ (hl.shiftTmsTdi _ _ _ _ _ _).1⟩
  | lock timeout => exact rel_self (hmap _ fun f hf => hl.lock f hf _ _)
  | unlock => exact rel_self (hmap _ fun f hf => hl.unlock f hf _)
  | rshift i flags state count p => exact rel_self (hmap _ fun f hf => (hl.registerShift f hf _ _ _ _ _ _ _ _).1)
  | state flags state count => exact rel_self (hmap _ fun f hf => hl.state f hf _ _ _ _)
  | mrd flags addr numBytes =>
    refine rel_self fun x hx => ?_
    obtain ⟨f, hf, rfl⟩ := Option.map_eq_some_iff.mp hx
    exact hl.mrd f hf _ _ _ _ _
  | mwr flags addr numBytes p => exact rel_self (hmap _ fun f hf => hl.mwr f hf _ _ _ _ _ _)
  | _ => trivial

/-- A message calls and stores, behind what is there to be sent. -/
theorem StoresLater.addsTo (hl : StoresLater h) {r : Request} (hfit : s.replyLen + replySize h s r ≤ maxPacketLen) :
    AddsTo s.replyLen s (exec h s r) := by
  have hmax := maxPacketLen_lt
  have hself : Alike Eq (Adds s.trace s.replyLen) (exec h s r) (exec h s r) :=
    alike_exec (sameTable_self h) (alike_self s s.replyLen) (frames_adds s.trace s.replyLen) (by omega)
      fun _ => hl.callMatches r
  exact hself.buf.2

/-- It stores behind what it hands out, too. -/
theorem StoresLater.addsTo_handed (hl : StoresLater h) {r : Request} {x : Handed} (hx : x ∈ handedOut s r)
    (hav : r.Available h) (hfit : s.replyLen + replySize h s r ≤ maxPacketLen) :
    AddsTo (x.tdo + x.bytes) s (exec h s r) := by
  have hmax := maxPacketLen_lt
  -- The callback itself adds only its call.
  have hcalled : ∀ (lo : Nat) (c : Call) (y : CallResult σ), y.stores = [] →
      Alike Eq (Adds s.trace lo) (s.callback c y) (s.callback c y) := fun lo c y hy => by
    refine (alike_self s lo).callback (frames_adds s.trace lo) c ⟨rfl, rfl, rfl, fun w hw => ?_⟩
    rw [hy] at hw
    cases hw
  obtain ⟨hs, ⟨bits, p, rfl, rfl⟩ | ⟨i, flags, state, count, p, rfl, rfl⟩⟩ := mem_handedOut hx
  · have hsize : shiftBytes bits ≤ replySize h s (.shift bits p) := Nat.le_add_right _ _
    obtain ⟨hstores, hok⟩ := hl.shiftTmsTdi s.clientData s.mem bits p (u64 (p + shiftBytes bits)) s.replyLen
    have hself : Alike Eq (Adds s.trace (s.replyLen + shiftBytes bits)) (execShift h s bits p) (execShift h s bits p) :=
      alike_shiftOk (alike_self s 0) hs (fun c => hcalled _ c _ hstores) hok (frames_adds s.trace _) (by omega)
    exact hself.buf.2
  · have hsize : tdoBytes flags count ≤ replySize h s (.rshift i flags state count p) := Nat.le_add_right _ _
    obtain ⟨f, hf⟩ := Option.isSome_iff_exists.mp hav
    obtain ⟨hstores, hok⟩ := hl.registerShift f hf s.clientData s.mem i flags state count
      (if tdiBytes flags count ≠ 0 then some p else none) (if tdoBytes flags count ≠ 0 then some s.replyLen else none)
    have hself : Alike Eq (Adds s.trace (s.replyLen + tdoBytes flags count))
        (execRshift h s i flags state count p) (execRshift h s i flags state count p) :=
      alike_rshiftOk hf hf (alike_self s 0) hs (fun c => hcalled _ c _ hstores) hok (frames_adds s.trace _) (by omega)
    exact hself.buf.2

/-- What holds of a batch up to `flush`. -/
structure Kept (s₀ : Server σ) (hs : List Handed) (s : Server σ) (cbuf : Nat) : Prop where
  buffer : s.rx = s₀.rx ∧ s.bufLen = s₀.bufLen
  cursor : s.rx.buf ≤ cbuf ∧ cbuf ≤ s.cend ∧ (hs ≠ [] → s.rx.buf < cbuf)
  disjoint : hs.Pairwise fun x y => x.tdo + x.bytes ≤ y.tdo
  below : ∀ x ∈ hs, x.tdo + x.bytes ≤ s.replyLen
  saved : ∀ x ∈ hs, ∀ w ∈ x.operand, slice s.mem w.1 w.2.length = w.2 ∧ w.1 + w.2.length ≤ cbuf
  events : AddsTo 0 s₀ s

theorem AddsTo.trans {lo : Nat} {u : Server σ} {v : Server σ} (h : AddsTo 0 s u) (h' : AddsTo lo u v) :
    AddsTo 0 s v := by
  obtain ⟨es, htr, hes⟩ := h
  obtain ⟨es', htr', hes'⟩ := h'
  refine ⟨es ++ es', by rw [htr', htr, List.append_assoc], fun e he => ?_⟩
  rcases List.mem_append.mp he with he | he
  · exact hes e he
  · cases e with
    | store i n => exact Nat.zero_le i
    | _ => exact hes' _ he

/-- The operand of what a message hands out is part of the message. -/
theorem handedOut_operand {cbuf a p : Nat} {r : Request} (hd : (dispatch h).Dispatched s cbuf r a p)
    (hcon : Contained layout s cbuf r a p) (hend : s.cend ≤ 2 ^ 63) {x : Handed} (hx : x ∈ handedOut s r) :
    x.tdo = s.replyLen ∧ x.bytes ≤ replySize h s r ∧
      ∀ w ∈ x.operand, slice (exec h s r).mem w.1 w.2.length = w.2 ∧ w.1 + w.2.length ≤ p := by
  obtain ⟨-, ⟨bits, o, rfl, rfl⟩ | ⟨i, flags, state, count, o, rfl, rfl⟩⟩ := mem_handedOut hx
  · obtain ⟨-, hp, -⟩ := shift_operand hd hcon hend
    have hmem : (exec h s (.shift bits o)).mem = s.mem :=
      (Prod.mk.inj (Prod.mk.inj (received_execShift h s bits o)).2).2
    refine ⟨rfl, Nat.le_add_right _ _, fun w hw => ?_⟩
    rw [hmem]
    rcases List.mem_cons.mp hw with rfl | hw
    · exact ⟨by rw [length_slice], by simp only [length_slice]; omega⟩
    · cases List.mem_singleton.mp hw
      exact ⟨by rw [length_slice], by simp only [length_slice]; omega⟩
  · have hmem : (exec h s (.rshift i flags state count o)).mem = s.mem :=
      (Prod.mk.inj (Prod.mk.inj (received_execRshift h s i flags state count o)).2).2
    refine ⟨rfl, Nat.le_add_right _ _, fun w hw => ?_⟩
    rw [hmem]
    by_cases htdi : tdiBytes flags count = 0
    · rw [if_neg (not_not_intro htdi)] at hw
      cases hw
    · rw [if_pos htdi] at hw
      cases List.mem_singleton.mp hw
      have := rshift_operand hcon htdi
      exact ⟨by rw [length_slice], by simp only [length_slice]; omega⟩

/-- **The regions.** A batch hands out disjoint regions in order, and keeps the operands where they were. -/
theorem Batch.kept {s₀ : Server σ} {hs : List Handed} {cbuf : Nat} (hl : StoresLater h)
    (hlen : s₀.bufLen ≤ s₀.rx.bufMax) (hb : Batch h s₀ hs s cbuf) : Kept s₀ hs s cbuf := by
  induction hb with
  | start =>
    exact ⟨⟨rfl, rfl⟩, ⟨Nat.le_refl _, Nat.le_add_right _ _, fun hne => absurd rfl hne⟩, .nil, nofun, nofun,
      [], by simp, nofun⟩
  | @exec hs s cbuf a p r _ hin hd ih =>
    have hmax := maxPacketLen_lt
    have hbl : s.bufLen ≤ s.rx.bufMax := by rw [ih.buffer.1, ih.buffer.2]; exact hlen
    have hend := s.cend_le hbl
    have hcon := (contains_iff hbl).mpr hin.1 r a p hd
    have hfit := hin.2 r a p hd
    have hnew : ∀ x ∈ handedOut s r, _ := fun x hx => handedOut_operand hd hcon hend hx
    have hlen' : (Versal.exec h s r).replyLen = _ := exec_replyLen (by omega)
    obtain ⟨hrx, hblen⟩ := keepsBuffer h s r
    have hrx : (Versal.exec h s r).rx = s.rx := hrx
    have hblen : (Versal.exec h s r).bufLen = s.bufLen := hblen
    have hprog := hcon.progress
    have hcur := ih.cursor
    obtain ⟨hdr, hscan, -⟩ := hd.complete
    obtain ⟨ha, -⟩ := scanHeader_bounds hscan
    refine ⟨⟨hrx.trans ih.buffer.1, hblen.trans ih.buffer.2⟩, ⟨?_, ?_, fun _ => ?_⟩, ?_, fun x hx => ?_,
      fun x hx => ?_, ?_⟩
    · rw [hrx]; omega
    · show p ≤ (Versal.exec h s r).rx.buf + (Versal.exec h s r).bufLen
      rw [hrx, hblen]
      exact hcon.inside
    · rw [hrx]; omega
    · -- What is handed out now begins where the reply ended.
      refine List.pairwise_append.mpr ⟨ih.disjoint, ?_, fun x hx y hy => ?_⟩
      · cases r <;> simp only [handedOut] <;> first | exact .nil | (split <;> simp)
      · rw [(hnew y hy).1]
        exact ih.below x hx
    · rw [hlen']
      rcases List.mem_append.mp hx with hx | hx
      · exact Nat.le_trans (ih.below x hx) (Nat.le_add_right _ _)
      · obtain ⟨h1, h2, -⟩ := hnew x hx
        omega
    · rcases List.mem_append.mp hx with hx | hx
      · intro w hw
        obtain ⟨h1, h2⟩ := ih.saved x hx w hw
        refine ⟨?_, by omega⟩
        refine Eq.trans (slice_congr fun i hi => ?_) h1
        exact exec_mem_before hcon hend (by omega)
      · exact (hnew x hx).2.2
    · exact ih.events.trans (hl.addsTo hfit)

/-- `flush` is the first thing behind the messages, on what they have left; then come its stores, and the send. -/
theorem finish_flushes {f : σ → ByteMem → CallResult σ × Int} (hf : h.flush = some f) {cbuf : Nat}
    (hlt : s.rx.buf < cbuf) (snd : Nat → Int) (fill : Bool) :
    ∃ es, (Conn.finish (protocol h) snd s cbuf fill).s.trace = s.trace ++ [.flush] ++
        ((f s.clientData s.mem).1.stores.map fun w => .store w.1 w.2.length) ++ es ∧
      (es = [] ∨ ∃ bytes rval, es = [.send bytes rval]) := by
  have hrun : (s.runFlush (protocol h)).1.trace = s.trace ++ [.flush] ++
      (f s.clientData s.mem).1.stores.map fun w => .store w.1 w.2.length := by
    simp only [Server.runFlush, protocol, hf, stores_eq]
    split <;> rfl
  rw [Conn.finish_eq, if_pos hlt]
  split
  · exact ⟨[], by rw [List.append_nil]; exact hrun, .inl rfl⟩
  · exact ⟨_, by rw [Conn.trace_sendReply, hrun], .inr ⟨_, _, rfl⟩⟩

/-- What the server keeps for handlers that defer their TDO, in a batch that has handed out `hs`. -/
structure Regions (h : XvcServerHandlers σ) (s₀ : Server σ) (hs : List Handed) (s : Server σ) (cbuf : Nat) : Prop where
  batch : Batch h s₀ hs s cbuf
  kept : Kept s₀ hs s cbuf
  /-- The next message stores behind all that has been handed out, also by itself. -/
  next : ∀ r a p, InOrder h s cbuf → (dispatch h).Dispatched s cbuf r a p →
    ∀ x ∈ hs ++ handedOut s r, AddsTo (x.tdo + x.bytes) s (exec h s r)
  /-- `lock` is not called while TDO bytes are pending. -/
  lock : ∀ timeout a p, (dispatch h).Dispatched s cbuf (.lock timeout) a p → s.replyLen = 0 ∧ ∀ x ∈ hs, x.bytes = 0
  /-- Behind the last message `flush` is called first, and then the reply is sent. -/
  flush : ∀ f, h.flush = some f → ∀ snd fill, s.rx.buf < cbuf →
    ∃ es, (Conn.finish (protocol h) snd s cbuf fill).s.trace = s.trace ++ [.flush] ++
        ((f s.clientData s.mem).1.stores.map fun w => .store w.1 w.2.length) ++ es ∧
      (es = [] ∨ ∃ bytes rval, es = [.send bytes rval])

theorem AddsTo.mono {lo lo' : Nat} {u v : Server σ} (h : AddsTo lo u v) (hle : lo' ≤ lo) : AddsTo lo' u v := by
  obtain ⟨es, htr, hes⟩ := h
  refine ⟨es, htr, fun e he => ?_⟩
  cases e with
  | store i n => exact Nat.le_trans hle (hes _ he)
  | _ => exact hes _ he

theorem Batch.regions {s₀ : Server σ} {hs : List Handed} {cbuf : Nat} (hl : StoresLater h)
    (hlen : s₀.bufLen ≤ s₀.rx.bufMax) (hb : Batch h s₀ hs s cbuf) : Regions h s₀ hs s cbuf := by
  have hk := hb.kept hl hlen
  refine ⟨hb, hk, fun r a p hin hd x hx => ?_, fun timeout a p hd => ?_,
    fun f hf snd fill hlt => finish_flushes hf hlt snd fill⟩
  · have hfit := hin.2 r a p hd
    obtain ⟨hdr, -, hparse⟩ := hd.complete
    rcases List.mem_append.mp hx with hx | hx
    · exact (hl.addsTo hfit).mono (hk.below x hx)
    · exact hl.addsTo_handed hx (parse_available hparse) hfit
  · have hzero : s.replyLen = 0 := by
      have := hd.runs
      simp only [dispatch, Request.waitsForReplies, true_and] at this
      omega
    refine ⟨hzero, fun x hx => ?_⟩
    have := hk.below x hx
    omega

/-! ## Runs -/

/-- `flush`: the second server catches up. -/
theorem alike_runFlush {cbuf : Nat} (hd : Defers R h h') (hl : Lagging R q s t cbuf) :
    (s.runFlush (protocol h)).2 = 0 ∧ 0 ≤ (t.runFlush (protocol h')).2 ∧
      Alike (R []) (Lags []) (s.runFlush (protocol h)).1 (t.runFlush (protocol h')).1 := by
  obtain ⟨f', hf', hcomp⟩ := hd.completes
  obtain ⟨hdata, hok, hret, hstores⟩ := hcomp t.mem hl.alike.data (by rw [hl.alike.mem]; exact hl.ready)
  have hs : ∃ es, s.runFlush (protocol h) = ({ s with trace := s.trace ++ es }, 0) ∧ sentOf es = [] := by
    cases hf : h.flush with
    | none => exact ⟨[], by simp [Server.runFlush, protocol, hf], rfl⟩
    | some f => exact ⟨[.flush], by simp [Server.runFlush, protocol, hf, hd.flush f hf, Server.stores], rfl⟩
  have ht : t.runFlush (protocol h') = ({ t with
      clientData := (f' t.clientData t.mem).1.clientData
      replyBuf := applyStores (f' t.clientData t.mem).1.stores t.replyBuf
      trace := t.trace ++ [Event.flush] ++
        (f' t.clientData t.mem).1.stores.map fun w => .store w.1 w.2.length }, (f' t.clientData t.mem).2) := by
    simp only [Server.runFlush, protocol, hf', stores_eq, hok]
  obtain ⟨es, hs, hes⟩ := hs
  rw [hs, ht]
  refine ⟨rfl, hret, hl.alike.received, hl.alike.c, hl.alike.replyLen, hdata, ?_, ?_⟩
  · show s.replyBuf = applyStores _ t.replyBuf
    rw [hstores]
    exact hl.alike.buf
  · show sentOf (t.trace ++ [Event.flush] ++ _) = sentOf (s.trace ++ es)
    simp only [sentOf_append, sentOf_stores, hes, hl.alike.sent]
    simp [sentOf]

/-- Two connections at the same place, the second one behind by what `flush` has not been called for. -/
structure Trails (R : List Job → σ → τ → Prop) (rx : RxBuffer) (q : List Job) (c : Conn σ) (d : Conn τ) : Prop where
  phase : d.phase = c.phase
  within : c.Within rx
  alike : Alike (R q) (Lags q) c.s d.s
  recv : c.phase = .recv → q = []
  parse : ∀ cbuf, c.phase = .parse cbuf → rx.buf ≤ cbuf ∧ Lagging R q c.s d.s cbuf ∧ (q = [] ∨ rx.buf < cbuf)

variable {rx : RxBuffer} {c c' : Conn σ} {d : Conn τ}

theorem trails_of_alike (hphase : d.phase = c.phase) (hw : c.Within rx) (ha : Alike (R []) (Lags []) c.s d.s)
    (hstart : ∀ cbuf, c.phase = .parse cbuf → cbuf = rx.buf) : Trails R rx [] c d where
  phase := hphase
  within := hw
  alike := ha
  recv _ := rfl
  parse cbuf hp := ⟨Nat.le_of_eq (hstart cbuf hp).symm,
    ⟨ha, fun _ hw => absurd hw List.not_mem_nil, fun _ hj => absurd hj List.not_mem_nil,
      fun _ hj => absurd hj List.not_mem_nil⟩, .inl rfl⟩

/-- The end of a batch: with messages executed `flush` comes first, and without there is no job. -/
theorem trails_finish {cbuf : Nat} (hd : Defers R h h') (hl : Lagging R q s t cbuf) (hrx : s.rx = rx)
    (hlen : s.bufLen ≤ rx.bufMax) (hc : cbuf ≤ s.cend) (hq : q = [] ∨ rx.buf < cbuf) (snd : Nat → Int) (fill : Bool) :
    Trails R rx [] (Conn.finish (protocol h) snd s cbuf fill) (Conn.finish (protocol h') snd t cbuf fill) := by
  have hw := (Conn.finish_safe_iff (P := protocol h) snd fill hrx hlen hc).1
  obtain ⟨h1, h2, hal⟩ := alike_runFlush hd hl
  have hrx' : (s.runFlush (protocol h)).1.rx = rx := (rx_of_received (received_runFlush _ _)).trans hrx
  rw [Conn.finish_eq] at hw ⊢
  rw [Conn.finish_eq, hl.alike.rx]
  split at hw
  · next hlt =>
    rw [if_neg (by omega)] at hw
    rw [if_pos hlt, if_pos hlt, if_neg (by omega), if_neg (by omega)]
    have hpend : slice (t.runFlush (protocol h')).1.replyBuf 0 (s.runFlush (protocol h)).1.replyLen =
        slice (s.runFlush (protocol h)).1.replyBuf 0 (s.runFlush (protocol h)).1.replyLen :=
      slice_congr fun i _ => congrFun hal.buf.symm _
    obtain ⟨hphase, hdone⟩ := Conn.alike_sendReply hal (fun hb => hb) hpend snd cbuf fill
    exact trails_of_alike hphase hw hdone fun p hp => by rw [(Conn.sendReply_parse hp).1, hrx']
  · next hge =>
    have hnil : q = [] := by
      rcases hq with hq | hq
      · exact hq
      · rw [hrx] at hge
        exact absurd hq hge
    subst hnil
    rw [if_neg hge, if_neg hge]
    exact trails_of_alike rfl hw hl.alike nofun

/-- The condition at the message that the loop is about to look at. -/
def NextInOrder (h : XvcServerHandlers σ) (c : Conn σ) : Prop := ∀ cbuf, c.phase = .parse cbuf → InOrder h c.s cbuf

/-- The second server follows every step. -/
theorem Trails.step {i : Input} (hd : Defers R h h') (hstep : Conn.Takes (protocol h) i c c') (hin : NextInOrder h c)
    (ht : Trails R rx q c d) : ∃ d' q', Conn.Takes (protocol h') i d d' ∧ Trails R rx q' c' d' := by
  cases hstep with
  | @advance _ cbuf snd hp =>
    have hp' : d.phase = .parse cbuf := ht.phase.trans hp
    obtain ⟨hbuf, hl, hq⟩ := ht.parse cbuf hp
    have hin := hin cbuf hp
    have hc := ht.within.cursor cbuf hp
    have hlen := ht.within.bufLen
    have hrx := ht.within.buffer
    have hend : ∀ ph, (∀ p, ph ≠ .parse p) → ph ≠ .recv → Trails R rx q ⟨ph, c.s⟩ ⟨ph, d.s⟩ := fun ph hnp hnr =>
      ⟨rfl, Conn.within_of_not_parse hnp hrx hlen, ht.alike, fun h => absurd h hnr, fun p h => absurd h (hnp p)⟩
    refine ⟨Conn.advance (protocol h') snd d, ?_⟩
    rw [Conn.advance_parse hp]
    rcases iter_twin hd.table ht.alike cbuf with ⟨h1, h2⟩ | ⟨h1, h2⟩ | ⟨h1, h2⟩ | ⟨h1, h2⟩ | ⟨r, a, p, hdisp, h1, h2⟩
    · refine ⟨[], .advance snd hp', ?_⟩
      rw [Conn.advance_parse hp', h1, h2]
      exact trails_finish hd hl hrx hlen hc hq snd true
    · refine ⟨[], .advance snd hp', ?_⟩
      rw [Conn.advance_parse hp', h1, h2]
      exact trails_finish hd hl hrx hlen hc hq snd false
    · refine ⟨q, .advance snd hp', ?_⟩
      rw [Conn.advance_parse hp', h1, h2]
      exact hend _ nofun nofun
    · refine ⟨q, .advance snd hp', ?_⟩
      rw [Conn.advance_parse hp', h1, h2]
      exact hend _ nofun nofun
    · have hcon := (contains_iff (by rw [hrx]; exact hlen)).mpr hin.1 r a p hdisp
      obtain ⟨q', hl'⟩ := hl.exec hd (by rw [hrx]; exact hlen) hin hdisp
      have hprog := hcon.progress
      obtain ⟨hkrx, hkbl⟩ := keepsBuffer h c.s r
      refine ⟨q', .advance snd hp', ?_⟩
      rw [Conn.advance_parse hp', h1, h2]
      refine ⟨rfl, ⟨hkrx.trans hrx, hkbl.trans_le hlen, ?_⟩, hl'.alike, nofun, ?_⟩
      · rintro cbuf' hcb
        cases hcb
        show p ≤ (exec h c.s r).rx.buf + (exec h c.s r).bufLen
        rw [show (exec h c.s r).rx = c.s.rx from hkrx, show (exec h c.s r).bufLen = c.s.bufLen from hkbl]
        exact hcon.inside
      · rintro cbuf' hcb
        cases hcb
        exact ⟨by omega, hl', .inr (by omega)⟩
  | @recv _ chunk hp hne hfit =>
    obtain rfl := ht.recv hp
    have hw := (ht.within.step_recv (P := protocol h) (.recv hp hne hfit) hp).1
    have hal := (ht.alike.receive chunk).readMore
    exact ⟨_, [], .recv (ht.phase.trans hp) hne (by rw [ht.alike.room]; exact hfit),
      trails_of_alike hal.1 hw hal.2 fun p hp => by cases hp; exact congrArg RxBuffer.buf ht.within.buffer⟩
  | closed hp =>
    obtain rfl := ht.recv hp
    exact ⟨_, [], .closed (ht.phase.trans hp),
      trails_of_alike rfl (ht.within.step_recv (P := protocol h) (.closed hp) hp).1 ht.alike nofun⟩
  | failed hp =>
    obtain rfl := ht.recv hp
    exact ⟨_, [], .failed (ht.phase.trans hp),
      trails_of_alike rfl (ht.within.step_recv (P := protocol h) (.failed hp) hp).1 ht.alike nofun⟩

/-- On the same inputs the second server has one run, and it sends the same bytes. -/
theorem deferred_sends (hd : Defers R h h') (rx : RxBuffer) {data : σ} {data' : τ} (hdata : R [] data data')
    (mem replyBuf : ByteMem) {inputs : List Input}
    (hrun : Machine.Run (fun i => Machine.Guarded (Conn.Takes (protocol h) i) (NextInOrder h))
      (Conn.start rx data mem replyBuf) inputs c) :
    ∃ d, Machine.Run (Conn.Takes (protocol h')) (Conn.start rx data' mem replyBuf) inputs d ∧
      sentOf d.s.trace = sentOf c.s.trace ∧
      ∀ e, Machine.Run (Conn.Takes (protocol h')) (Conn.start rx data' mem replyBuf) inputs e → e = d := by
  have hstart : ∃ q, Trails R rx q (Conn.start rx data mem replyBuf) (Conn.start rx data' mem replyBuf) :=
    ⟨[], trails_of_alike rfl (Conn.within_readMore rfl (Nat.zero_le _)) ⟨rfl, rfl, rfl, hdata, rfl, rfl⟩
      fun p hp => by cases hp; rfl⟩
  obtain ⟨d, hd', q, ht⟩ := hrun.simulates (I := fun c d => ∃ q, Trails R rx q c d)
    (fun _ _ _ _ hstep hin ⟨_, ht⟩ => by
      obtain ⟨d', q', hd', ht'⟩ := ht.step hd hstep hin
      exact ⟨d', hd', q', ht'⟩) hstart
  exact ⟨d, hd', ht.alike.sent, fun e he => he.unique (fun _ _ _ _ h h' => h.unique h') hd'⟩

/-- At the head of the loop the connection is in a batch. -/
structure InBatch (h : XvcServerHandlers σ) (rx : RxBuffer) (c : Conn σ) : Prop where
  buffer : c.s.rx = rx
  bufLen : c.s.bufLen ≤ rx.bufMax
  batch : ∀ cbuf, c.phase = .parse cbuf → ∃ s₀ hs, s₀.replyLen = 0 ∧ s₀.bufLen ≤ s₀.rx.bufMax ∧ Batch h s₀ hs c.s cbuf

/-- A batch begins. -/
theorem inBatch_of_start (hrx : c.s.rx = rx) (hlen : c.s.bufLen ≤ rx.bufMax)
    (hstart : ∀ cbuf, c.phase = .parse cbuf → cbuf = rx.buf ∧ c.s.replyLen = 0) : InBatch h rx c where
  buffer := hrx
  bufLen := hlen
  batch cbuf hp := by
    obtain ⟨rfl, hz⟩ := hstart cbuf hp
    refine ⟨c.s, [], hz, by rw [hrx]; exact hlen, ?_⟩
    rw [← hrx]
    exact .start

theorem InBatch.step {i : Input} (hl : StoresLater h) (hstep : Conn.Takes (protocol h) i c c') (hin : NextInOrder h c)
    (hb : InBatch h rx c) : InBatch h rx c' := by
  obtain ⟨hrx, hlen, hbatch⟩ := hb
  cases hstep with
  | @advance _ cbuf snd hp =>
    obtain ⟨s₀, hs, hz, hlen₀, hb⟩ := hbatch cbuf hp
    have hk := hb.kept hl hlen₀
    have hfin : ∀ fill, InBatch h rx (Conn.finish (protocol h) snd c.s cbuf fill) := fun fill => by
      have hwithin := (Conn.finish_safe_iff (P := protocol h) snd fill hrx hlen hk.cursor.2.1).1
      refine inBatch_of_start hwithin.buffer hwithin.bufLen fun p hp => ?_
      rw [Conn.finish_eq] at hp ⊢
      split at hp
      · next hlt =>
        split at hp
        · cases hp
        · next hret =>
          rw [if_pos hlt, if_neg hret]
          have hrx' := rx_of_received (received_runFlush (protocol h) c.s)
          obtain ⟨h1, h2⟩ := Conn.sendReply_parse hp
          exact ⟨by rw [h1, hrx', hrx], h2⟩
      · cases hp
    rw [Conn.advance_parse hp]
    cases hiter : (protocol h).iter c.s cbuf with
    | fill => exact hfin true
    | stop => exact hfin false
    | bad => exact ⟨hrx, hlen, nofun⟩
    | abort => exact ⟨hrx, hlen, nofun⟩
    | reply t p =>
      obtain ⟨r, a, hd, rfl⟩ := Dispatch.iter_eq_reply.mp hiter
      obtain ⟨hkrx, hkbl⟩ := keepsBuffer h c.s r
      refine ⟨hkrx.trans hrx, hkbl.trans_le hlen, fun cbuf' hcb => ?_⟩
      cases hcb
      exact ⟨s₀, _, hz, hlen₀, .exec hb (hin cbuf hp) hd⟩
  | @recv _ chunk hp hne hfit =>
    refine inBatch_of_start hrx ?_ fun cbuf hcb => ?_
    · show c.s.bufLen + chunk.length ≤ rx.bufMax
      unfold Server.room at hfit
      rw [hrx] at hfit
      omega
    · cases hcb
      exact ⟨congrArg RxBuffer.buf hrx, rfl⟩
  | closed hp => exact ⟨hrx, hlen, nofun⟩
  | failed hp => exact ⟨hrx, hlen, nofun⟩

/-- **Deferred TDO.** Two tables that compute the same, the second one leaving its shifts for `flush`; any
messages whose lengths do not wrap, any chunks, any results of `send`, each batch within `max_packet_len`.
On the same inputs the second server has one run, and it sends the same bytes. In every such run of the
second server the regions that a batch has handed out are disjoint, nothing else is stored there, the operands
stay, and `flush` comes behind the messages and before the reply is sent. -/
theorem deferred_tdo (R : List Job → σ → τ → Prop) (h : XvcServerHandlers σ) (h' : XvcServerHandlers τ)
    (hd : Defers R h h') (hl : StoresLater h') (rx : RxBuffer) (data : σ) (data' : τ) (hdata : R [] data data')
    (mem replyBuf : ByteMem) (inputs : List Input) :
    (∀ c, Machine.Run (fun i => Machine.Guarded (Conn.Takes (protocol h) i) (NextInOrder h))
        (Conn.start rx data mem replyBuf) inputs c →
      ∃ d, Machine.Run (Conn.Takes (protocol h')) (Conn.start rx data' mem replyBuf) inputs d ∧
        sentOf d.s.trace = sentOf c.s.trace ∧
        ∀ e, Machine.Run (Conn.Takes (protocol h')) (Conn.start rx data' mem replyBuf) inputs e → e = d) ∧
    ∀ d, Machine.Run (fun i => Machine.Guarded (Conn.Takes (protocol h') i) (NextInOrder h'))
        (Conn.start rx data' mem replyBuf) inputs d →
      ∀ cbuf, d.phase = .parse cbuf → ∃ s₀ hs, s₀.replyLen = 0 ∧ Regions h' s₀ hs d.s cbuf := by
  refine ⟨fun c hrun => deferred_sends hd rx hdata mem replyBuf hrun, fun d hrun cbuf hp => ?_⟩
  have hstart : InBatch h' rx (Conn.start rx data' mem replyBuf) :=
    inBatch_of_start rfl (Nat.zero_le _) fun p hp => by cases hp; exact ⟨rfl, rfl⟩
  have hb := hrun.invariant (fun _ _ _ hstep hin hb => hb.step hl hstep hin) hstart
  obtain ⟨s₀, hs, hz, hlen₀, hbatch⟩ := hb.batch cbuf hp
  exact ⟨s₀, hs, hz, hbatch.regions hl hlen₀⟩

/-- A shift is answered with its TDI bits, and a memory write is taken. -/
def copying : XvcServerHandlers Unit := { loopback with mwr := some fun d _ _ _ _ _ => { clientData := d } }

/-- The TDI bits are only copied by `flush`: where they are, how many bytes, and where to. -/
def lazyCopying : XvcServerHandlers (List (Nat × Nat × Nat)) where
  setTck d nsperiod := ({ clientData := d }, nsperiod)
  shiftTmsTdi d _ count _ tdi tdo := { clientData := d ++ [(tdi, (count + 7) / 8, tdo)] }
  lock := none
  unlock := none
  registerShift := none
  state := none
  flush := some fun d mem => ({ clientData := [], stores := d.map fun e => (e.2.2, slice mem e.1 e.2.1) }, 0)
  mrd := none
  mwr := some fun d _ _ _ _ _ => { clientData := d }

/-- A copy that is left is the job's. -/
def IsCopy (j : Job) (e : Nat × Nat × Nat) : Prop :=
  ∃ bytes, (e.1, bytes) ∈ j.operand ∧ bytes.length = e.2.1 ∧ j.stores = [(e.2.2, bytes)]

theorem copies_eq {jobs : List Job} {copies : List (Nat × Nat × Nat)} (hq : List.Forall₂ IsCopy jobs copies)
    {mem : ByteMem} (hready : ∀ j ∈ jobs, j.Ready mem) :
    (copies.map fun e => (e.2.2, slice mem e.1 e.2.1)) = pendingStores jobs := by
  induction hq with
  | nil => rfl
  | @cons j e jobs copies he _ ih =>
    obtain ⟨bytes, hmem, hlen, hst⟩ := he
    have hb := hready j List.mem_cons_self _ hmem
    rw [List.map_cons, ih fun j hj => hready j (List.mem_cons_of_mem _ hj), ← hlen, hb]
    simp [pendingStores, hst]

theorem copying_defers : Defers (fun q _ copies => List.Forall₂ IsCopy q copies) copying lazyCopying where
  table := ⟨rfl, rfl, rfl, rfl, rfl, rfl⟩
  setTck _ _ hq := ⟨rfl, hq, rfl, rfl, fun w hw => absurd hw List.not_mem_nil⟩
  shiftTmsTdi mem count tms tdi tdo hq := by
    have hcopy : IsCopy ⟨[(tms, slice mem tms ((count + 7) / 8)), (tdi, slice mem tdi ((count + 7) / 8))],
        [(tdo, slice mem tdi ((count + 7) / 8))]⟩ (tdi, (count + 7) / 8, tdo) :=
      ⟨_, List.mem_cons_of_mem _ List.mem_cons_self, length_slice _ _ _, rfl⟩
    refine ⟨List.rel_append hq (.cons hcopy .nil), rfl, rfl, fun w hw => ?_, rfl⟩
    cases List.mem_singleton.mp hw
    exact ⟨tdo, rfl, Nat.le_refl _, by simp⟩
  lock _ _ _ _ := .none
  unlock _ _ := .none
  registerShift := nofun
  state _ _ _ _ _ := .none
  mrd _ _ _ _ _ := .none
  mwr _ _ _ _ _ _ hq := .some ⟨hq, rfl, rfl, fun w hw => absurd hw List.not_mem_nil⟩
  flush := nofun
  completes := ⟨_, rfl, fun mem hq hready => ⟨.nil, rfl, Int.le_refl 0, fun m => by rw [← copies_eq hq hready]⟩⟩

theorem lazyCopying_storesLater : StoresLater lazyCopying where
  setTck _ _ := rfl
  shiftTmsTdi _ _ _ _ _ _ := ⟨rfl, rfl⟩
  lock := nofun
  unlock := nofun
  registerShift := nofun
  state := nofun
  mrd := nofun
  mwr f hf _ _ _ _ _ _ := by cases hf; rfl

/-- A `shift:` of eight bits. -/
def shiftByte : List UInt8 := ascii "shift:" ++ [8, 0, 0, 0] ++ [0x01] ++ [0xa5]

/-- A connection to `copying` that has received it. -/
def byteReceived : Conn Unit :=
  (Conn.advance (protocol copying) Conn.sendAll
    (Conn.start (Server.loaded () []).rx () zeroHub zeroHub)).receive shiftByte

/-- And has executed it. -/
def byteShifted : Conn Unit := Conn.advance (protocol copying) Conn.sendAll byteReceived

theorem byteShifted_phase : byteShifted.phase = .parse 0x100c := by decide +kernel

theorem deferred_tdo_copying :
    ∃ d, Machine.Run (Conn.Takes (protocol lazyCopying)) (Conn.start (Server.loaded () []).rx [] zeroHub zeroHub)
      (oneMessage shiftByte) d ∧ sentOf d.s.trace = [0xa5] := by
  have hnone : ∀ {c : Conn Unit} {cbuf : Nat}, Holds c.s cbuf [] → InOrder copying c.s cbuf := fun hh => by
    have hs := scanHeader_short hh (by simp) (by simp)
    refine ⟨fun hdr q hscan => ?_, ?_⟩
    · cases hs.symm.trans hscan
    · rintro r q p ⟨⟨hdr, hscan, -⟩, -⟩
      cases hs.symm.trans hscan
  have hscan : scanHeader byteReceived.s 0x1000 = .header (ascii "shift:") 0x1006 := rfl
  have hshift : InOrder copying byteReceived.s 0x1000 := by
    refine ⟨fun hdr q hs => ?_, ?_⟩
    · cases hscan.symm.trans hs
      exact ⟨fun he => absurd he (by decide), fun _ _ => by decide, fun he => absurd he (by decide),
        fun he => absurd he (by decide)⟩
    · rintro r q p ⟨⟨hdr, hs, hparse⟩, -⟩
      cases hscan.symm.trans hs
      cases hparse
      decide
  have hrun : Machine.Run (fun i => Machine.Guarded (Conn.Takes (protocol copying) i) (NextInOrder copying))
      (Conn.start (Server.loaded () []).rx () zeroHub zeroHub) (oneMessage shiftByte)
      (Conn.advance (protocol copying) Conn.sendAll byteShifted) := by
    refine .cons ⟨.advance Conn.sendAll rfl, fun cbuf hp => ?_⟩ (.cons ⟨.recv rfl (by decide) (by decide), nofun⟩
      (.cons ⟨.advance Conn.sendAll rfl, fun cbuf hp => ?_⟩ (.cons ⟨.advance Conn.sendAll byteShifted_phase,
        fun cbuf hp => ?_⟩ (.nil _))))
    · cases hp
      exact hnone ⟨rfl, rfl, Nat.zero_le _⟩
    · cases hp
      exact hshift
    · cases byteShifted_phase.symm.trans hp
      exact hnone ⟨by decide +kernel, by decide +kernel, by decide +kernel⟩
  obtain ⟨d, hrun', hsent, -⟩ := (deferred_tdo _ copying lazyCopying copying_defers lazyCopying_storesLater
    (Server.loaded () []).rx () [] .nil zeroHub zeroHub (oneMessage shiftByte)).1 _ hrun
  exact ⟨d, hrun', hsent.trans (by decide +kernel)⟩

/-- A `shift:` of 19 bytes whose TDI bits read as a `configure:`, and an `mwr:` whose length of `2 ^ 64 - 35` bytes
leads back to them. -/
def backIntoShift : List UInt8 :=
  ascii "shift:" ++ [0x98, 0, 0, 0] ++ List.replicate 19 0 ++ ascii "configure:" ++ [24] ++ ascii "status-" ++ [0] ++
    ascii "mwr:" ++ [0, 0, 0xdd, 0xff, 0xff, 0xff, 0xff, 0xff, 0xff, 0xff, 0xff, 1]

/-- It is received at once, and then there are three messages to execute. -/
def backIntoShiftInputs : List Input :=
  [.advance Conn.sendAll, .recv backIntoShift, .advance Conn.sendAll, .advance Conn.sendAll, .advance Conn.sendAll,
    .advance Conn.sendAll]

theorem deferred_tdo_edited :
    Defers (fun q _ copies => List.Forall₂ IsCopy q copies) copying lazyCopying ∧ StoresLater lazyCopying ∧
    (∃ c, Machine.Run (Conn.Takes (protocol copying)) (Conn.start (Server.loaded () []).rx () zeroHub zeroHub)
      backIntoShiftInputs c ∧
      sentOf c.s.trace = ascii "configure:" ++ [24] ++ ascii "status-" ++ [0, 0, 0]) ∧
    ∃ d, Machine.Run (Conn.Takes (protocol lazyCopying)) (Conn.start (Server.loaded () []).rx [] zeroHub zeroHub)
      backIntoShiftInputs d ∧
      sentOf d.s.trace = ascii "configure:" ++ [24] ++ ascii "status" ++ [0, 0, 0, 0] := by
  refine ⟨copying_defers, lazyCopying_storesLater,
    ⟨_, .cons (.advance _ rfl) (.cons (.recv rfl (by decide) (by decide)) (.cons (.advance _ rfl)
      (.cons (.advance _ (?_ : _ = Phase.parse 0x1030)) (.cons (.advance _ (?_ : _ = Phase.parse 0x101d))
      (.cons (.advance _ (?_ : _ = Phase.parse 0x1040)) (.nil _)))))), ?_⟩,
    ⟨_, .cons (.advance _ rfl) (.cons (.recv rfl (by decide) (by decide)) (.cons (.advance _ rfl)
      (.cons (.advance _ (?_ : _ = Phase.parse 0x1030)) (.cons (.advance _ (?_ : _ = Phase.parse 0x101d))
      (.cons (.advance _ (?_ : _ = Phase.parse 0x1040)) (.nil _)))))), ?_⟩⟩
  all_goals decide +kernel

end Versal
end Xvc
