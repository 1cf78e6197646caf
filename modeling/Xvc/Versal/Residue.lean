import Xvc.Versal.Act
import Xvc.Versal.Memory
import Xvc.Versal.Twin

/-!
# What earlier clients leave in the reply buffer

The reply buffer of `mem/versal` is one for all clients and is never cleared, so a reply can only tell what
its connection has stored if every byte below `reply_len` has been stored to since the connection began.

* `Stored tr i`: the connection has stored to byte `i`. `Covered`: to all bytes that are to be sent.
* `covered_exec`: the branches of `xvc_mem` keep this, but for `shift:`, whose callback stores nothing.
* `replies_independent`: two connections on the same inputs, with any two old contents of the buffer,
  send the same bytes as long as no `shift:` sends what it has not stored.
-/

namespace Xvc
namespace Versal

open ByteMem Server

variable {σ : Type} {s t : Server σ} {tr es : List Event} {i n : Nat}

/-- Byte `i` of the reply buffer has been stored to. -/
def Stored (tr : List Event) (i : Nat) : Prop := ∃ j n, Event.store j n ∈ tr ∧ j ≤ i ∧ i < j + n

/-- The buffers agree on what has been stored. -/
def AgreeStored (tr : List Event) (b b' : ByteMem) : Prop := ∀ i, Stored tr i → b' i = b i

/-- All that is to be sent has been stored. -/
def Covered (s : Server σ) : Prop := ∀ i, i < s.replyLen → Stored s.trace i

theorem Stored.append (h : Stored tr i) (es : List Event) : Stored (tr ++ es) i := by
  obtain ⟨j, n, hm, hi⟩ := h
  exact ⟨j, n, List.mem_append_left es hm, hi⟩

theorem Stored.mono (h : Stored tr i) (hp : tr <+: es) : Stored es i := by
  obtain ⟨j, n, hm, hi⟩ := h
  exact ⟨j, n, hp.subset hm, hi⟩

theorem stored_last {j : Nat} (hj : j ≤ i) (hi : i < j + n) : Stored (tr ++ [.store j n]) i :=
  ⟨j, n, by simp, hj, hi⟩

/-- Equal stores make the buffers agree there, and leave what they agreed on. -/
theorem frames_agreeStored (lo : Nat) : Frames lo AgreeStored where
  store {tr b b' i l} _ h := by
    rintro k ⟨j, n, hm, hk⟩
    by_cases hin : i ≤ k ∧ k < i + l.length
    · unfold write
      rw [if_pos hin, if_pos hin]
    · rw [write_of_disjoint b' l (by omega), write_of_disjoint b l (by omega)]
      rcases List.mem_append.mp hm with hm | hm
      · exact h k ⟨j, n, hm, hk⟩
      · cases List.mem_singleton.mp hm
        exact absurd hk hin
  called {tr b b' e} he h := by
    rintro k ⟨j, n, hm, hk⟩
    rcases List.mem_append.mp hm with hm | hm
    · exact h k ⟨j, n, hm, hk⟩
    · rw [← List.mem_singleton.mp hm] at he
      exact he.elim

theorem keptBySend_agreeStored : KeptBySend AgreeStored := fun h => by
  rintro k ⟨j, n, hm, hk⟩
  rcases List.mem_append.mp hm with hm | hm
  · exact h k ⟨j, n, hm, hk⟩
  · cases List.mem_singleton.mp hm

/-! ## The helpers store what they append -/

namespace Covered

theorem of_trace (h : Covered s) (hlen : t.replyLen = s.replyLen) (htr : s.trace <+: t.trace) : Covered t :=
  fun i hi => (h i (by omega)).mono htr

theorem extend (h : Covered s) (hn : ∀ i, i < n → Stored s.trace (s.replyLen + i)) : Covered (s.extend n) := by
  intro i hi
  have hle : u32 (s.replyLen + n) ≤ s.replyLen + n := Nat.mod_le _ _
  have hlt : i < u32 (s.replyLen + n) := hi
  rcases Nat.lt_or_ge i s.replyLen with hb | hb
  · exact h i hb
  · have := hn (i - s.replyLen) (by omega)
    rwa [Nat.add_sub_cancel' hb] at this

theorem store (h : Covered s) (i : Nat) (l : List UInt8) : Covered (s.store i l) :=
  h.of_trace rfl (List.prefix_append _ _)

theorem replyBytes (h : Covered s) (l : List UInt8) : Covered (s.replyBytes l) :=
  (h.store s.replyLen l).extend fun i hi =>
    stored_last (Nat.le_add_right _ _) (by show s.replyLen + i < s.replyLen + l.length; omega)

theorem replyStatus (h : Covered s) (hfit : s.replyLen < maxPacketLen) : Covered s.replyStatus := by
  have hs : s.replyStatus = s.replyBytes [if s.c.failed then 1 else 0] := by
    unfold Server.replyStatus
    rw [if_pos hfit]
    rfl
  rw [hs]
  exact h.replyBytes _

end Covered

/-- The groups of a LEB128 number that fits are stored one behind the other. -/
theorem stored_replyUlebLoop (k value pos : Nat) (hpos : ∀ i, i < pos → Stored s.trace (s.replyLen + i))
    (hfit : s.replyLen + pos + (Leb128.encode k value).length ≤ maxPacketLen) :
    s.trace <+: (s.replyUlebLoop k value pos).1.trace ∧
      ∀ i, i < (s.replyUlebLoop k value pos).2 → Stored (s.replyUlebLoop k value pos).1.trace (s.replyLen + i) := by
  induction k generalizing s value pos with
  | zero => exact ⟨List.prefix_refl _, hpos⟩
  | succ k ih =>
    have hmax := maxPacketLen_lt
    have hcons : 1 ≤ (Leb128.encode (k + 1) value).length := by
      rw [Leb128.encode]
      split <;> simp
    rw [Server.replyUlebLoop]
    generalize (if 0x80 ≤ value then UInt8.ofNat ((value &&& 0x7f) ||| 0x80)
      else UInt8.ofNat (value &&& 0x7f)) = b
    rw [u32_of_lt (show s.replyLen + pos < 2 ^ 32 by omega), if_pos (show s.replyLen + pos < maxPacketLen by omega)]
    have hnext : ∀ i, i < pos + 1 → Stored (s.store (s.replyLen + pos) [b]).trace (s.replyLen + i) := fun i hi => by
      rcases Nat.lt_or_ge i pos with hlt | hge
      · exact (hpos i hlt).append _
      · exact stored_last (by omega) (by simp only [List.length_singleton]; omega)
    split
    · next hv =>
      rw [Leb128.encode, if_neg hv, List.length_cons] at hfit
      obtain ⟨hp, hst⟩ := ih (s := s.store (s.replyLen + pos) [b]) (value >>> 7) (pos + 1) hnext
        (by show s.replyLen + (pos + 1) + _ ≤ _; omega)
      exact ⟨(List.prefix_append _ _).trans hp, hst⟩
    · exact ⟨List.prefix_append _ _, hnext⟩

theorem Covered.replyUlebBytes (h : Covered s) {value : Nat} (l : List UInt8)
    (hfit : s.replyLen + (Leb128.encode 10 value).length ≤ maxPacketLen) :
    Covered ((s.replyUleb128 value).replyBytes l) := by
  obtain ⟨hp, hst⟩ := stored_replyUlebLoop (s := s) 10 value 0 (fun i hi => absurd hi (Nat.not_lt_zero i)) hfit
  have hlen := (replyUlebLoop_spec s 10 value 0).1
  refine Covered.replyBytes (Covered.extend (h.of_trace hlen hp) fun i hi => ?_) l
  rw [hlen]
  exact hst i hi

/-- The data of a reply: zeros, or what the callback has stored. -/
theorem Covered.replyData (h : Covered s) (hdata : s.c.failed = false → ∀ i, i < n → Stored s.trace (s.replyLen + i)) :
    Covered (s.replyData n) := by
  unfold Server.replyData
  split
  · refine Covered.extend (h.of_trace rfl (List.prefix_append _ _)) fun i hi => ?_
    exact stored_last (Nat.le_add_right _ _) (by show s.replyLen + i < s.replyLen + n; omega)
  · next hf => exact h.extend (hdata (Bool.eq_false_iff.mpr hf))

theorem Covered.callback (h : Covered s) (c : Call) (r : CallResult σ) : Covered (s.callback c r) :=
  h.of_trace (replyLen_of_replyState (replyState_callback s c r))
    (by rw [callback_eq, List.append_assoc]; exact List.prefix_append _ _)

theorem Covered.callOrNull (h : Covered s) (f : Option (CallResult σ)) (c : Call) : Covered (callOrNull s f c) := by
  cases f with
  | none => exact h.of_trace rfl (List.prefix_append _ _)
  | some r => exact h.callback c r

theorem Covered.unlessFailed (h : Covered s) {f : Server σ → Server σ} (hf : s.c.failed = false → Covered (f s)) :
    Covered (s.unlessFailed f) := by
  unfold Server.unlessFailed
  split
  · exact h
  · next hn => exact hf (Bool.eq_false_iff.mpr hn)

/-! ## The branches of `xvc_mem` -/

/-- `mrd` stores every byte of its buffer. -/
theorem stored_mrdLoop (mem : ByteMem) (offset buf : Nat) {k j : Nat} (hj : 4 * j ≤ i) (hi : i < 4 * j + 4 * k) :
    ∃ w ∈ mrdLoop mem offset buf k (4 * j), w.1 ≤ buf + i ∧ buf + i < w.1 + w.2.length := by
  induction k generalizing j with
  | zero => omega
  | succ k ih =>
    rcases Nat.lt_or_ge i (4 * j + 4) with hlt | hge
    · exact ⟨_, List.mem_cons_self, by simp only; omega, by simp only [length_slice]; omega⟩
    · obtain ⟨w, hw, hin⟩ := ih (j := j + 1) (by omega) (by omega)
      exact ⟨w, List.mem_cons_of_mem _ hw, hin⟩

variable {hub : MemRegion} {u : Server ByteMem}

/-- `mrd` raises an error or stores all that is asked for. -/
theorem stored_mrd (hf : u.c.failed = false) (flags addr numBytes : Nat) (c : Call)
    (hok : (u.callback c (mrd hub u.clientData flags addr numBytes u.replyLen)).c.failed = false) (hi : i < numBytes) :
    Stored (u.callback c (mrd hub u.clientData flags addr numBytes u.replyLen)).trace (u.replyLen + i) := by
  rw [callback_eq] at hok ⊢
  unfold mrd at hok ⊢
  split at hok
  · have hfails := Core.failed_after (a := u.view.core) ⟨u.clientData, some (invalidArguments addr numBytes)⟩ hf
    rw [fails_invalidArguments] at hfails
    exact absurd (hok.symm.trans hfails) (by decide)
  · next hrej =>
    have hle : numBytes ≤ 4 * words numBytes := by unfold words; omega
    obtain ⟨w, hw, hlo, hhi⟩ := stored_mrdLoop (j := 0) u.clientData (addr - hub.addr) u.replyLen (Nat.zero_le i)
      (k := words numBytes) (by omega)
    simp only [if_neg hrej]
    exact ⟨w.1, w.2.length, List.mem_append_right _ (List.mem_map.mpr ⟨w, hw, rfl⟩), hlo, hhi⟩

/-- The end of a branch with data. -/
theorem covered_dataStatus {v : Server ByteMem} (hv : v.replyState = u.replyState) (hc : Covered v)
    (hfit : u.replyLen + n < maxPacketLen)
    (hdata : v.c.failed = false → ∀ i, i < n → Stored v.trace (v.replyLen + i)) :
    Covered (v.replyData n).replyStatus := by
  have hmax := maxPacketLen_lt
  refine (hc.replyData hdata).replyStatus ?_
  rw [(Prod.mk.inj (replyState_data hv)).1, u32_of_lt (by omega)]
  exact hfit

/-- `mrd:`: zeros with an error, and else the words of the hub. -/
theorem covered_mrd (h : Covered u) (flags addr numBytes : Nat) (hfit : u.replyLen + numBytes < maxPacketLen) :
    Covered (execMrd (handlers hub) u flags addr numBytes) := by
  have hstate := replyState_unlessFailed (s := u) (f := fun s => Xvc.callOrNull s
    ((handlers hub).mrd.map fun f => f s.clientData flags addr numBytes s.replyLen) (.mrd flags addr numBytes))
    (replyState_callOrNull _ _ _)
  refine covered_dataStatus hstate (h.unlessFailed fun _ => h.callOrNull _ _) hfit fun hok i hi => ?_
  rw [replyLen_of_replyState hstate]
  -- No error is pending after the callback, so none was before it.
  cases hf : u.c.failed with
  | true => simp [Server.unlessFailed, hf] at hok
  | false =>
    simp only [Server.unlessFailed, hf, Bool.false_eq_true, if_false] at hok ⊢
    exact stored_mrd hf flags addr numBytes _ hok hi

/-- The end of a branch with an optional status, behind `n` bytes. -/
theorem covered_optional {v : Server ByteMem} (hv : v.replyState = (u32 (u.replyLen + n), u.c.enableStatus))
    (hc : Covered v) (hfit : u.replyLen + (n + StatusKind.bytes u.c .optional) ≤ maxPacketLen) :
    Covered v.replyOptionalStatus := by
  have hmax := maxPacketLen_lt
  obtain ⟨hlen, hstatus⟩ := Prod.mk.inj hv
  unfold Server.replyOptionalStatus
  split
  · exact hc
  · next he =>
    have hen : ¬ u.c.enableStatus = 0 := fun h0 => he (hstatus.trans h0)
    simp only [StatusKind.bytes, if_neg hen] at hfit
    exact hc.replyStatus (by rw [hlen, u32_of_lt (by omega)]; omega)

/-- A `shift:` whose TDO has been stored before, or is zeros because of an error. -/
theorem covered_shift (h : Covered u) (bits p : Nat)
    (hfit : u.replyLen + replySize (handlers hub) u (.shift bits p) ≤ maxPacketLen)
    (hdata : u.c.failed = false → ∀ i, i < shiftBytes bits → Stored u.trace (u.replyLen + i)) :
    Covered (execShift (handlers hub) u bits p) := by
  have hstate := replyState_unlessFailed (s := u) (f := fun s => s.callback
    (.shiftTmsTdi bits (slice s.mem p ((bits + 7) / 8)) (slice s.mem (u64 (p + shiftBytes bits)) ((bits + 7) / 8)))
    ((handlers hub).shiftTmsTdi s.clientData s.mem bits p (u64 (p + shiftBytes bits)) s.replyLen))
    (replyState_callback _ _ _)
  refine covered_optional (replyState_data hstate) ?_ hfit
  refine Covered.replyData (h.unlessFailed fun _ => h.callback _ _) fun hok i hi => ?_
  rw [replyLen_of_replyState hstate]
  cases hf : u.c.failed with
  | true => simp [Server.unlessFailed, hf] at hok
  | false =>
    simp only [Server.unlessFailed, hf, Bool.false_eq_true, if_false]
    rw [callback_eq]
    exact ((hdata hf i hi).append _).append _

/-- What a `shift:` sends has been stored: `shift_tms_tdi` itself stores nothing. -/
def ShiftStored (s : Server σ) (r : Request) : Prop :=
  ∀ bits p, r = .shift bits p → s.c.failed = false → ∀ i, i < shiftBytes bits → Stored s.trace (s.replyLen + i)

/-- A reply that is only a status. -/
theorem covered_status {v : Server ByteMem} (hv : v.replyState = u.replyState) (hc : Covered v)
    (hfit : u.replyLen < maxPacketLen) : Covered v.replyStatus :=
  hc.replyStatus (by rw [replyLen_of_replyState hv]; exact hfit)

theorem Covered.setLocked {v : Server ByteMem} (h : Covered v) (w : Int) : Covered (Versal.setLocked v w) :=
  h.unlessFailed fun _ => h.of_trace rfl (List.prefix_refl _)

/-- Every branch that `xvc_mem` reaches stores what it appends. -/
theorem covered_exec {cbuf q p : Nat} {r : Request} (hd : (dispatch (handlers hub)).Dispatched u cbuf r q p)
    (h : Covered u) (hfit : u.replyLen + replySize (handlers hub) u r ≤ maxPacketLen) (hshift : ShiftStored u r) :
    Covered (exec (handlers hub) u r) := by
  have hmax := maxPacketLen_lt
  obtain ⟨hdr, -, hparse⟩ := hd.complete
  cases r with
  | getinfo =>
    refine Covered.extend (h.store _ _) fun i hi => stored_last (Nat.le_add_right _ _) ?_
    show u.replyLen + i < u.replyLen + (getinfoText u.rx.bufMax ++ [0]).length
    rw [List.length_append]
    omega
  | capabilities =>
    simp only [replySize, dataSize] at hfit
    exact h.replyUlebBytes _ (by omega)
  | configure declared p =>
    refine Covered.replyStatus (h.of_trace rfl (List.prefix_refl _)) ?_
    simp only [replySize, dataSize, Request.statusKind, StatusKind.bytes] at hfit
    exact Nat.lt_of_succ_le (by omega)
  | error =>
    simp only [replySize, dataSize] at hfit
    exact (h.replyUlebBytes _ (by omega)).of_trace rfl (List.prefix_refl _)
  | lock timeout =>
    simp only [replySize, dataSize, Request.statusKind, StatusKind.bytes] at hfit
    refine covered_status (u := u) (replyState_unlessFailed ?_) (h.unlessFailed fun _ => ?_) (by omega)
    · split
      · rfl
      split
      · rfl
      · exact (replyState_setLocked _ 1).trans (replyState_callOrNull u _ _)
    · split
      · exact h.of_trace rfl (List.prefix_refl _)
      split
      · exact h.of_trace rfl (List.prefix_refl _)
      · exact (h.callOrNull _ _).setLocked 1
  | unlock =>
    simp only [replySize, dataSize, Request.statusKind, StatusKind.bytes] at hfit
    refine covered_status (u := u) (replyState_unlessFailed ?_) (h.unlessFailed fun _ => ?_) (by omega)
    · split
      · rfl
      split
      · rfl
      · exact (replyState_setLocked _ 0).trans (replyState_callOrNull u _ _)
    · split
      · exact h.of_trace rfl (List.prefix_refl _)
      split
      · exact h.of_trace rfl (List.prefix_refl _)
      · exact (h.callOrNull _ _).setLocked 0
  | shift bits p => exact covered_shift h bits p hfit (hshift bits p rfl)
  | settck nsperiod =>
    have hstate := replyState_unlessFailed (s := u) (f := fun v => v.callback (.setTck nsperiod)
      { clientData := u.clientData }) (replyState_callback _ _ _)
    have hbytes := fun l => replyState_bytes (l := l) hstate
    refine covered_optional (n := 4) ?_ (Covered.replyBytes (h.unlessFailed fun _ => h.callback _ _) _) hfit
    refine (hbytes _).trans ?_
    rw [setUintLe, length_leBytes]
  | rshift instruction flags state count p => exact absurd (parse_available hparse) Bool.false_ne_true
  | state flags state count =>
    simp only [replySize, dataSize, Request.statusKind, StatusKind.bytes] at hfit
    exact covered_status (replyState_unlessFailed (replyState_callOrNull _ _ _))
      (h.unlessFailed fun _ => h.callOrNull _ _) (by omega)
  | mrd flags addr numBytes =>
    simp only [replySize, dataSize, Request.statusKind, StatusKind.bytes] at hfit
    exact covered_mrd h flags addr numBytes (by omega)
  | mwr flags addr numBytes p =>
    simp only [replySize, dataSize, Request.statusKind, StatusKind.bytes] at hfit
    exact covered_status (replyState_unlessFailed (replyState_callOrNull _ _ _))
      (h.unlessFailed fun _ => h.callOrNull _ _) (by omega)

/-! ## Two connections -/

theorem mrd_above (hub : MemRegion) (d : ByteMem) (flags addr numBytes i : Nat) :
    ∀ w ∈ (mrd hub d flags addr numBytes i).stores, i ≤ w.1 := by
  unfold mrd
  split
  · exact fun w hw => absurd hw List.not_mem_nil
  · exact mrdLoop_above _ _ _ _ _

theorem mwr_above (hub : MemRegion) (d rx : ByteMem) (flags addr numBytes p : Nat) :
    ∀ w ∈ (mwr hub d rx flags addr numBytes p).stores, i ≤ w.1 := by
  unfold mwr
  split <;> exact fun w hw => absurd hw List.not_mem_nil

/-- The callbacks of `xvc_mem` do the same on the same hub, and store in their buffer. -/
theorem callMatches_handlers (r : Request) : CallMatches Eq (handlers hub) (handlers hub) u u.clientData r := by
  cases r with
  | settck nsperiod => exact ⟨rfl, rfl, rfl, rfl, nofun⟩
  | shift bits p => exact ⟨rfl, rfl, rfl, nofun⟩
  | lock timeout => exact .none
  | unlock => exact .none
  | rshift instruction flags state count p => exact .none
  | state flags state count => exact .none
  | mrd flags addr numBytes => exact .some ⟨rfl, rfl, rfl, mrd_above hub _ _ _ _ _⟩
  | mwr flags addr numBytes p => exact .some ⟨rfl, rfl, rfl, mwr_above hub _ _ _ _ _ _⟩
  | _ => trivial

theorem sameTable_handlers (hub : MemRegion) : SameTable (handlers hub) (handlers hub) := ⟨rfl, rfl, rfl, rfl, rfl, rfl⟩

/-- Two connections that differ only in what the buffer held before them; all that is to be sent is new. -/
structure SameBut (c d : Conn ByteMem) : Prop where
  phase : d.phase = c.phase
  alike : Alike Eq AgreeStored c.s d.s
  covered : ∀ cbuf, c.phase = .parse cbuf → Covered c.s

variable {v : Server ByteMem} {c d c' : Conn ByteMem}

theorem sameBut_readMore (h : Alike Eq AgreeStored u v) : SameBut (Conn.readMore u) (Conn.readMore v) where
  phase := h.readMore.1
  alike := h.readMore.2
  covered _ _ i hi := absurd hi (Nat.not_lt_zero i)

theorem sameBut_of_not_parse {p : Phase} (hp : ∀ cbuf, p ≠ .parse cbuf) (h : Alike Eq AgreeStored u v) :
    SameBut ⟨p, u⟩ ⟨p, v⟩ := ⟨rfl, h, fun cbuf hc => absurd hc (hp cbuf)⟩

/-- Both send the same: every byte of it has been stored. -/
theorem sameBut_finish (h : Alike Eq AgreeStored u v) (hc : Covered u) (snd : Nat → Int) (cbuf : Nat) (fill : Bool) :
    SameBut (Conn.finish (protocol (handlers hub)) snd u cbuf fill)
      (Conn.finish (protocol (handlers hub)) snd v cbuf fill) := by
  have hpend : slice v.replyBuf 0 u.replyLen = slice u.replyBuf 0 u.replyLen := slice_congr fun i hi => by
    rw [Nat.zero_add]
    exact h.buf i (hc i hi)
  have hflush : ∀ w : Server ByteMem, w.runFlush (protocol (handlers hub)) = (w, 0) := fun _ => rfl
  rw [Conn.finish_eq, Conn.finish_eq, hflush, hflush, h.rx, if_neg (Int.lt_irrefl 0), if_neg (Int.lt_irrefl 0)]
  split
  · obtain ⟨hphase, hdone⟩ := Conn.alike_sendReply h keptBySend_agreeStored hpend snd cbuf fill
    refine ⟨hphase, hdone, fun p hp i hi => ?_⟩
    rw [(Conn.sendReply_parse hp).2] at hi
    exact absurd hi (Nat.not_lt_zero i)
  · exact sameBut_of_not_parse nofun h

/-- The request that the loop is about to execute keeps the batch within `max_packet_len`, and is not a
`shift:` that sends bytes that the connection has not stored. -/
def OwnReply (hub : MemRegion) (c : Conn ByteMem) : Prop :=
  ∀ cbuf r q p, c.phase = .parse cbuf → (dispatch (handlers hub)).Dispatched c.s cbuf r q p →
    c.s.replyLen + replySize (handlers hub) c.s r ≤ maxPacketLen ∧ ShiftStored c.s r

/-- The other connection follows every step. -/
theorem SameBut.step {i : Input} (hstep : Conn.Takes (protocol (handlers hub)) i c c') (hown : OwnReply hub c)
    (h : SameBut c d) : ∃ d', Conn.Takes (protocol (handlers hub)) i d d' ∧ SameBut c' d' := by
  obtain ⟨hphase, hal, hcov⟩ := h
  have hmax := maxPacketLen_lt
  cases hstep with
  | @advance _ cbuf snd hp =>
    have hp' : d.phase = .parse cbuf := hphase.trans hp
    refine ⟨_, .advance snd hp', ?_⟩
    have hcov := hcov cbuf hp
    rw [Conn.advance_parse hp, Conn.advance_parse hp']
    rcases iter_twin (sameTable_handlers hub) hal cbuf with ⟨h1, h2⟩ | ⟨h1, h2⟩ | ⟨h1, h2⟩ | ⟨h1, h2⟩ |
      ⟨r, q, p, hd, h1, h2⟩
    · rw [h1, h2]
      exact sameBut_finish hal hcov snd cbuf true
    · rw [h1, h2]
      exact sameBut_finish hal hcov snd cbuf false
    · rw [h1, h2]
      exact sameBut_of_not_parse nofun hal
    · rw [h1, h2]
      exact sameBut_of_not_parse nofun hal
    · rw [h1, h2]
      obtain ⟨hfit, hshift⟩ := hown cbuf r q p hp hd
      refine ⟨rfl, alike_exec (sameTable_handlers hub) hal (frames_agreeStored _) (by omega) fun _ => ?_,
        fun _ _ => covered_exec hd hcov hfit hshift⟩
      rw [← hal.data]
      exact callMatches_handlers r
  | recv hp hne hfit =>
    exact ⟨_, .recv (hphase.trans hp) hne (by rw [hal.room]; exact hfit), sameBut_readMore (hal.receive _)⟩
  | closed hp => exact ⟨_, .closed (hphase.trans hp), sameBut_of_not_parse nofun hal⟩
  | failed hp => exact ⟨_, .failed (hphase.trans hp), sameBut_of_not_parse nofun hal⟩

/-- **Replies tell nothing of earlier clients.** A connection on any inputs whose requests all meet the
condition, and a second one with other bytes in the reply buffer: on the same inputs the second one can
only do one thing, and it sends the same bytes. -/
theorem replies_independent (hub : MemRegion) (rx : RxBuffer) (data mem replyBuf replyBuf' : ByteMem)
    (inputs : List Input) (c : Conn ByteMem)
    (hrun : Machine.Run (fun i => Machine.Guarded (Conn.Takes (protocol (handlers hub)) i) (OwnReply hub))
      (Conn.start rx data mem replyBuf) inputs c) :
    ∃ d, Machine.Run (Conn.Takes (protocol (handlers hub))) (Conn.start rx data mem replyBuf') inputs d ∧
      sentOf d.s.trace = sentOf c.s.trace ∧
      ∀ e, Machine.Run (Conn.Takes (protocol (handlers hub))) (Conn.start rx data mem replyBuf') inputs e → e = d := by
  have hstart : SameBut (Conn.start rx data mem replyBuf) (Conn.start rx data mem replyBuf') :=
    ⟨rfl, ⟨rfl, rfl, rfl, rfl, fun _ ⟨_, _, hm, _⟩ => absurd hm List.not_mem_nil, rfl⟩,
      fun _ _ i hi => absurd hi (Nat.not_lt_zero i)⟩
  obtain ⟨d, hd, hsame⟩ := hrun.simulates (fun _ _ _ _ hstep hown h => h.step hstep hown) hstart
  exact ⟨d, hd, hsame.alike.sent, fun e he => he.unique (fun _ _ _ _ h h' => h.unique h') hd⟩

/-- A new connection to `xvc_mem` on a reply buffer that holds `replyBuf`. -/
def fresh (replyBuf : ByteMem) : Conn ByteMem :=
  Conn.start (Server.loaded zeroHub []).rx zeroHub zeroHub replyBuf

/-- The connection after it has received `bytes`. -/
def received (replyBuf : ByteMem) (bytes : List UInt8) : Conn ByteMem :=
  (Conn.advance (protocol (handlers defaultHub)) Conn.sendAll (fresh replyBuf)).receive bytes

/-- The connection after it has executed one message. -/
def executed (replyBuf : ByteMem) (bytes : List UInt8) : Conn ByteMem :=
  Conn.advance (protocol (handlers defaultHub)) Conn.sendAll (received replyBuf bytes)

/-- The connection after it has sent the reply. -/
def replied (replyBuf : ByteMem) (bytes : List UInt8) : Conn ByteMem :=
  Conn.advance (protocol (handlers defaultHub)) Conn.sendAll (executed replyBuf bytes)

/-- A buffer that holds ones. -/
def usedBuffer : ByteMem := fun _ => 1

theorem executed_getinfo : (executed zeroHub (ascii "getinfo:")).phase = .parse 0x1008 := by decide +kernel

theorem replies_independent_getinfo :
    ∃ d, Machine.Run (Conn.Takes (protocol (handlers defaultHub))) (fresh usedBuffer)
      (oneMessage (ascii "getinfo:")) d ∧
      sentOf d.s.trace = sentOf (replied zeroHub (ascii "getinfo:")).s.trace ∧
      ∀ e, Machine.Run (Conn.Takes (protocol (handlers defaultHub))) (fresh usedBuffer)
        (oneMessage (ascii "getinfo:")) e → e = d := by
  refine replies_independent defaultHub (Server.loaded zeroHub []).rx zeroHub zeroHub zeroHub usedBuffer
    (oneMessage (ascii "getinfo:")) (replied zeroHub (ascii "getinfo:"))
    (.cons ⟨.advance Conn.sendAll rfl, ?_⟩ (.cons ⟨.recv rfl (by decide) (by decide), ?_⟩
      (.cons ⟨.advance Conn.sendAll rfl, ?_⟩ (.cons ⟨.advance Conn.sendAll executed_getinfo, ?_⟩ (.nil _)))))
  · -- Nothing has been received.
    rintro cbuf r q p hp ⟨⟨hdr, hscan, -⟩, -⟩
    cases hp
    have hnothing : Holds (fresh zeroHub).s 0x1000 [] := ⟨rfl, rfl, Nat.zero_le _⟩
    cases (scanHeader_short hnothing (by simp) (by simp)).symm.trans hscan
  · rintro cbuf r q p hp
    cases hp
  · rintro cbuf r q p hp ⟨⟨hdr, hscan, hparse⟩, -⟩
    cases hp
    have hs : scanHeader (received zeroHub (ascii "getinfo:")).s 0x1000 = .header (ascii "getinfo:") 0x1008 := rfl
    cases hs.symm.trans hscan
    cases hparse
    exact ⟨by decide, fun _ _ hr => by cases hr⟩
  · -- The whole message has been executed.
    rintro cbuf r q p hp ⟨⟨hdr, hscan, -⟩, -⟩
    cases executed_getinfo.symm.trans hp
    have hnothing : Holds (executed zeroHub (ascii "getinfo:")).s 0x1008 [] :=
      ⟨rfl, by decide +kernel, by decide +kernel⟩
    cases (scanHeader_short hnothing (by simp) (by simp)).symm.trans hscan

/-- A `shift:` of one bit. -/
def shiftOne : List UInt8 := ascii "shift:" ++ [1, 0, 0, 0] ++ [0] ++ [0]

theorem waits_fresh : (Conn.advance (protocol (handlers defaultHub)) Conn.sendAll (fresh zeroHub)).phase = .recv ∧
    (Conn.advance (protocol (handlers defaultHub)) Conn.sendAll (fresh usedBuffer)).phase = .recv := by decide

theorem executed_shiftOne : (executed zeroHub shiftOne).phase = .parse 0x100c ∧
    (executed usedBuffer shiftOne).phase = .parse 0x100c := by decide +kernel

theorem replied_shiftOne : sentOf (replied zeroHub shiftOne).s.trace = [0] ∧
    sentOf (replied usedBuffer shiftOne).s.trace = [1] := by decide +kernel

theorem replies_reveal_buffer :
    ¬ ∀ (replyBuf replyBuf' : ByteMem) (c d : Conn ByteMem),
      Machine.Run (Conn.Takes (protocol (handlers defaultHub))) (fresh replyBuf) (oneMessage shiftOne) c →
      Machine.Run (Conn.Takes (protocol (handlers defaultHub))) (fresh replyBuf') (oneMessage shiftOne) d →
      sentOf d.s.trace = sentOf c.s.trace := by
  intro hall
  have hrun : ∀ b, (Conn.advance (protocol (handlers defaultHub)) Conn.sendAll (fresh b)).phase = .recv →
      shiftOne.length ≤ (Conn.advance (protocol (handlers defaultHub)) Conn.sendAll (fresh b)).s.room →
      (executed b shiftOne).phase = .parse 0x100c →
      Machine.Run (Conn.Takes (protocol (handlers defaultHub))) (fresh b) (oneMessage shiftOne) (replied b shiftOne) :=
    fun b hwait hroom hp => .cons (.advance Conn.sendAll rfl) (.cons (.recv hwait (by decide) hroom)
      (.cons (.advance Conn.sendAll rfl) (.cons (.advance Conn.sendAll hp) (.nil _))))
  have heq := hall zeroHub usedBuffer _ _ (hrun zeroHub waits_fresh.1 (by decide) executed_shiftOne.1)
    (hrun usedBuffer waits_fresh.2 (by decide) executed_shiftOne.2)
  rw [replied_shiftOne.1, replied_shiftOne.2] at heq
  exact absurd heq (by decide)

end Versal
end Xvc
