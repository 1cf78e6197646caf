import Xvc.Server.Contain
import Xvc.Versal.XvcMem

/-!
# Containment of the `mem/versal` messages

The length arithmetic of four branches can wrap: the 32 bits that `configure:` keeps of its length,
`bits + 7` of `shift:`, `count + 7` of `irshift:` and `drshift:`, and `p + num_bytes` of `mwr:`.
`LengthsFit` says that the one at `cbuf` does not, or that the branch waits for more bytes anyway.
`contains_iff` shows that this is exactly when the operand handed to the handler, and the next
`cbuf`, are what was received.
-/

namespace Xvc
namespace Versal

open ByteMem

variable {σ : Type}

/-- The shape of the messages of `mem/versal`. -/
def layout : Layout Request where
  fields
    | .getinfo | .capabilities | .error | .unlock => .ulebs 0
    | .configure _ _ | .lock _ => .ulebs 1
    | .shift _ _ | .settck _ => .bytes 4
    | .rshift _ _ _ _ _ | .state _ _ _ | .mrd _ _ _ | .mwr _ _ _ _ => .ulebs 3
  operand
    | .configure declared p => some (p, declared)
    | .shift bits p => some (p, 2 * ((bits + 7) / 8))
    | .rshift _ flags _ count p => if flags &&& 3 = 0 then some (p, (count + 7) / 8) else none
    | .mwr _ _ numBytes p => some (p, numBytes)
    | _ => none

/-! ## When the lengths do not wrap -/

/-- `bits + 7` of a `shift:` whose bit count was received fits an `unsigned`. -/
def shiftFits (s : Server σ) (q : Nat) : Prop :=
  q + 4 ≤ s.cend → getUintLe (slice s.mem q 4) + 7 < 2 ^ 32

/-- `count + 7` of an `irshift:` or `drshift:` with TDI data, whose fields were received, fits an
`unsigned long`. -/
def rshiftFits (s : Server σ) (q : Nat) : Prop :=
  let v := getUleb128x3 s.mem q s.cend
  u32 v.1 &&& 3 = 0 → v.2.2.2 ≤ s.cend → v.2.2.1 + 7 < 2 ^ 64

/-- `p + num_bytes` of `mwr:` fits a pointer, or wraps to one past what was received. -/
def mwrFits (s : Server σ) (q : Nat) : Prop :=
  let v := getUleb128x3 s.mem q s.cend
  v.2.2.2 + v.2.2.1 < 2 ^ 64 ∨ s.cend < u64 (v.2.2.2 + v.2.2.1)

/-- The length of the message at `cbuf`, whose header is `hdr`, does not wrap. -/
structure HeaderFits (h : XvcServerHandlers σ) (s : Server σ) (hdr : List UInt8) (q : Nat) : Prop where
  configure : hdr = ascii "configure:" → configureFits s q
  shift : hdr = ascii "shift:" → shiftFits s q
  rshift : hdr = ascii "irshift:" ∨ hdr = ascii "drshift:" → h.registerShift.isSome → rshiftFits s q
  mwr : hdr = ascii "mwr:" → h.mwr.isSome → mwrFits s q

/-- The length of the message at `cbuf` does not wrap. -/
def LengthsFit (h : XvcServerHandlers σ) (s : Server σ) (cbuf : Nat) : Prop :=
  ∀ hdr q, scanHeader s cbuf = .header hdr q → HeaderFits h s hdr q

/-! ## The branches -/

variable {h : XvcServerHandlers σ} {s : Server σ} {cbuf q p : Nat} {hdr : List UInt8} {r : Request}

/-- The branch that a complete message comes from. -/
theorem parse_eq_msg (hm : parse h s cbuf hdr q = .msg r p) :
    ((r = .getinfo ∨ r = .capabilities ∨ r = .error ∨ r = .unlock) ∧ p = q) ∨
    (hdr = ascii "configure:" ∧ parseConfigure Request.configure s cbuf q = .msg r p) ∨
    (hdr = ascii "lock:" ∧ parseLock s cbuf q = .msg r p) ∨
    (hdr = ascii "shift:" ∧ parseShift s cbuf q = .msg r p) ∨
    (hdr = ascii "settck:" ∧ parseSettck s q = .msg r p) ∨
    ((hdr = ascii "irshift:" ∨ hdr = ascii "drshift:") ∧ h.registerShift.isSome ∧
      parseRshift s (hdr = ascii "irshift:") cbuf q = .msg r p) ∨
    (hdr = ascii "state:" ∧ h.state.isSome ∧ parseState s cbuf q = .msg r p) ∨
    (hdr = ascii "mrd:" ∧ h.mrd.isSome ∧ parseMrd s cbuf q = .msg r p) ∨
    (hdr = ascii "mwr:" ∧ h.mwr.isSome ∧ parseMwr s cbuf q = .msg r p) := by
  unfold parse at hm
  by_cases hh : hdr = ascii "getinfo:"
  · rw [if_pos hh] at hm; cases hm; exact .inl ⟨.inl rfl, rfl⟩
  rw [if_neg hh] at hm
  clear hh
  by_cases hh : hdr = ascii "capabilities:"
  · rw [if_pos hh] at hm; cases hm; exact .inl ⟨.inr (.inl rfl), rfl⟩
  rw [if_neg hh] at hm
  clear hh
  by_cases hh : hdr = ascii "configure:"
  · rw [if_pos hh] at hm; exact .inr (.inl ⟨hh, hm⟩)
  rw [if_neg hh] at hm
  clear hh
  by_cases hh : hdr = ascii "error:"
  · rw [if_pos hh] at hm; cases hm; exact .inl ⟨.inr (.inr (.inl rfl)), rfl⟩
  rw [if_neg hh] at hm
  clear hh
  by_cases hh : hdr = ascii "lock:"
  · rw [if_pos hh] at hm; exact .inr (.inr (.inl ⟨hh, hm⟩))
  rw [if_neg hh] at hm
  clear hh
  by_cases hh : hdr = ascii "unlock:"
  · rw [if_pos hh] at hm; cases hm; exact .inl ⟨.inr (.inr (.inr rfl)), rfl⟩
  rw [if_neg hh] at hm
  clear hh
  by_cases hh : hdr = ascii "shift:"
  · rw [if_pos hh] at hm; exact .inr (.inr (.inr (.inl ⟨hh, hm⟩)))
  rw [if_neg hh] at hm
  clear hh
  by_cases hh : hdr = ascii "settck:"
  · rw [if_pos hh] at hm; exact .inr (.inr (.inr (.inr (.inl ⟨hh, hm⟩))))
  rw [if_neg hh] at hm
  clear hh
  by_cases hh : (hdr = ascii "irshift:" ∨ hdr = ascii "drshift:") ∧ h.registerShift.isSome
  · rw [if_pos hh] at hm; exact .inr (.inr (.inr (.inr (.inr (.inl ⟨hh.1, hh.2, hm⟩)))))
  rw [if_neg hh] at hm
  clear hh
  by_cases hh : hdr = ascii "state:" ∧ h.state.isSome
  · rw [if_pos hh] at hm; exact .inr (.inr (.inr (.inr (.inr (.inr (.inl ⟨hh.1, hh.2, hm⟩))))))
  rw [if_neg hh] at hm
  clear hh
  by_cases hh : hdr = ascii "mrd:" ∧ h.mrd.isSome
  · rw [if_pos hh] at hm; exact .inr (.inr (.inr (.inr (.inr (.inr (.inr (.inl ⟨hh.1, hh.2, hm⟩)))))))
  rw [if_neg hh] at hm
  clear hh
  by_cases hh : hdr = ascii "mwr:" ∧ h.mwr.isSome
  · rw [if_pos hh] at hm; exact .inr (.inr (.inr (.inr (.inr (.inr (.inr (.inr ⟨hh.1, hh.2, hm⟩)))))))
  rw [if_neg hh] at hm
  cases hm

/-- A branch for one header, as `parse` reaches it. -/
theorem parse_configure : parse h s cbuf (ascii "configure:") q = parseConfigure Request.configure s cbuf q :=
  rfl

theorem parse_lock : parse h s cbuf (ascii "lock:") q = parseLock s cbuf q := rfl

theorem parse_shift : parse h s cbuf (ascii "shift:") q = parseShift s cbuf q := rfl

theorem parse_settck : parse h s cbuf (ascii "settck:") q = parseSettck s q := rfl

theorem parse_rshift (hr : h.registerShift.isSome)
    (hh : hdr = ascii "irshift:" ∨ hdr = ascii "drshift:") :
    parse h s cbuf hdr q = parseRshift s (hdr = ascii "irshift:") cbuf q := by
  rcases hh with rfl | rfl
  · show (if (ascii "irshift:" = ascii "irshift:" ∨ ascii "irshift:" = ascii "drshift:") ∧
      h.registerShift.isSome then parseRshift s true cbuf q else _) = _
    exact if_pos ⟨.inl rfl, hr⟩
  · show (if (ascii "drshift:" = ascii "irshift:" ∨ ascii "drshift:" = ascii "drshift:") ∧
      h.registerShift.isSome then parseRshift s false cbuf q else _) = _
    exact if_pos ⟨.inr rfl, hr⟩

theorem parse_state (hs : h.state.isSome) : parse h s cbuf (ascii "state:") q = parseState s cbuf q := by
  show (if ascii "state:" = ascii "state:" ∧ h.state.isSome then parseState s cbuf q else _) = _
  exact if_pos ⟨rfl, hs⟩

theorem parse_mrd (hm : h.mrd.isSome) : parse h s cbuf (ascii "mrd:") q = parseMrd s cbuf q := by
  show (if ascii "mrd:" = ascii "mrd:" ∧ h.mrd.isSome then parseMrd s cbuf q else _) = _
  exact if_pos ⟨rfl, hm⟩

theorem parse_mwr (hm : h.mwr.isSome) : parse h s cbuf (ascii "mwr:") q = parseMwr s cbuf q := by
  show (if ascii "mwr:" = ascii "mwr:" ∧ h.mwr.isSome then parseMwr s cbuf q else _) = _
  exact if_pos ⟨rfl, hm⟩

/-! ## Each branch is contained exactly when its length fits -/

theorem layout_configure : (∀ n p, layout.fields (.configure n p) = .ulebs 1) ∧
    ∀ n p, layout.operand (.configure n p) = some (p, n) := ⟨fun _ _ => rfl, fun _ _ => rfl⟩

theorem getUleb128x3_cursor (mem : ByteMem) {cend : Nat} (hq : q ≤ cend) :
    q < (getUleb128x3 mem q cend).2.2.2 ∧ (getUleb128x3 mem q cend).2.2.2 ≤ cend + 3 := by
  have h1 := getUleb128_cursor mem q cend
  have h2 := getUleb128_cursor mem (getUleb128 mem q cend).2 cend
  have h3 := getUleb128_cursor mem (getUleb128 mem (getUleb128 mem q cend).2 cend).2 cend
  unfold getUleb128x3
  simp only
  omega

section Branches

variable (hlen : s.bufLen ≤ s.rx.bufMax) (hq : cbuf < q) (hqe : q ≤ s.cend)

include hq in
theorem lock_contained (hm : parseLock s cbuf q = .msg r p) : Contained layout s cbuf r q p := by
  obtain ⟨hle, rfl, rfl⟩ := check_eq_msg.mp hm
  have := getUleb128_cursor s.mem q s.cend
  exact .of_fields rfl rfl (by omega) hle

include hlen hq hqe in
theorem settck_contained (hm : parseSettck s q = .msg r p) : Contained layout s cbuf r q p := by
  have hce := s.cend_le hlen
  have h4 : u64 (q + 4) = q + 4 := u64_of_lt (by omega)
  unfold parseSettck at hm
  rw [h4] at hm
  split at hm
  · cases hm
  · next hle => cases hm; exact .of_fields rfl rfl (by omega) (by omega)

include hq hqe in
theorem state_contained (hm : parseState s cbuf q = .msg r p) : Contained layout s cbuf r q p := by
  obtain ⟨hle, rfl, rfl⟩ := check_eq_msg.mp hm
  have := getUleb128x3_cursor s.mem hqe
  exact .of_fields rfl rfl (by omega) hle

include hq hqe in
theorem mrd_contained (hm : parseMrd s cbuf q = .msg r p) : Contained layout s cbuf r q p := by
  obtain ⟨hle, rfl, rfl⟩ := check_eq_msg.mp hm
  have := getUleb128x3_cursor s.mem hqe
  exact .of_fields rfl rfl (by omega) hle

include hlen hq hqe in
theorem shiftFits_iff :
    (∀ r p, parseShift s cbuf q = .msg r p → Contained layout s cbuf r q p) ↔ shiftFits s q := by
  have hce := s.cend_le hlen
  have h4 : u64 (q + 4) = q + 4 := u64_of_lt (by omega)
  have hbits : getUintLe (slice s.mem q 4) < 2 ^ 32 := getUintLe_lt _
  unfold parseShift shiftFits
  rw [h4]
  generalize getUintLe (slice s.mem q 4) = bits at hbits ⊢
  by_cases hfour : s.cend < q + 4
  · simp only [if_pos hfour]
    exact ⟨fun _ _ => by omega, fun _ _ _ => nofun⟩
  · simp only [if_neg hfour, check_eq_msg]
    have hb : shiftBytes bits < 2 ^ 29 := by unfold shiftBytes u32; omega
    have hpend : u64 (q + 4 + u32 (shiftBytes bits * 2)) = q + 4 + shiftBytes bits * 2 := by
      rw [u32_of_lt (by omega), u64_of_lt (by omega)]
    rw [hpend]
    constructor
    · intro hcon _
      refine Decidable.byContradiction fun hwrap => ?_
      -- The bit count wraps to fewer than eight bits: no operand is counted.
      have hzero : shiftBytes bits = 0 := by unfold shiftBytes u32; omega
      rw [hzero] at hcon
      have hends := (hcon _ _ ⟨by omega, rfl, rfl⟩).ends
      simp only [layout, Layout.operandBytes, Fields.endFrom, Option.elim] at hends
      omega
    · rintro hfit r p ⟨hle, rfl, rfl⟩
      have heq : shiftBytes bits = (bits + 7) / 8 := by
        unfold shiftBytes; rw [u32_of_lt (hfit (by omega))]
      rw [heq] at hle ⊢
      refine ⟨?_, ?_, by omega, hle⟩
      · intro a n hop
        cases hop
        simp only [layout, Fields.endFrom, true_and]
        omega
      · simp only [layout, Layout.operandBytes, Fields.endFrom, Option.elim]
        omega

include hlen hq hqe in
theorem rshiftFits_iff (instruction : Bool) :
    (∀ r p, parseRshift s instruction cbuf q = .msg r p → Contained layout s cbuf r q p) ↔
      rshiftFits s q := by
  have hce := s.cend_le hlen
  have hcur := getUleb128x3_cursor s.mem hqe
  have hcount : (getUleb128x3 s.mem q s.cend).2.2.1 < 2 ^ 64 := getUleb128_lt _ _ _
  have hend : ulebsEnd s.mem s.cend 3 q = (getUleb128x3 s.mem q s.cend).2.2.2 := rfl
  unfold parseRshift rshiftFits
  simp only [check_eq_msg]
  generalize getUleb128x3 s.mem q s.cend = v at *
  obtain ⟨flags, state, count, e⟩ := v
  simp only at hcur hcount hend ⊢
  have hb : tdiBytes (u32 flags) count < 2 ^ 61 := by unfold tdiBytes u64; split <;> omega
  rw [show u64 (e + tdiBytes (u32 flags) count) = e + tdiBytes (u32 flags) count from
    u64_of_lt (by omega)]
  constructor
  · intro hcon hflags hle
    refine Decidable.byContradiction fun hwrap => ?_
    have hzero : tdiBytes (u32 flags) count = 0 := by
      unfold tdiBytes u64; rw [if_pos hflags]; omega
    rw [hzero] at hcon
    have hends := (hcon _ _ ⟨by omega, rfl, rfl⟩).ends
    simp only [layout, Layout.operandBytes, Fields.endFrom, if_pos hflags, Option.elim, hend] at hends
    omega
  · rintro hfit r p ⟨hle, rfl, rfl⟩
    by_cases hflags : u32 flags &&& 3 = 0
    · have heq : tdiBytes (u32 flags) count = (count + 7) / 8 := by
        unfold tdiBytes; rw [if_pos hflags, u64_of_lt (hfit hflags (by omega))]
      rw [heq] at hle ⊢
      refine ⟨?_, ?_, by omega, hle⟩
      · intro a n hop
        simp only [layout, if_pos hflags] at hop
        cases hop
        simp only [layout, Fields.endFrom, hend, true_and]
        omega
      · simp only [layout, Layout.operandBytes, Fields.endFrom, if_pos hflags, Option.elim, hend]
    · have heq : tdiBytes (u32 flags) count = 0 := by unfold tdiBytes; rw [if_neg hflags]
      rw [heq] at hle ⊢
      exact .of_fields (by simp only [layout, if_neg hflags])
        (by simp only [layout, Fields.endFrom, hend, Nat.add_zero])
        (by omega) hle

include hlen hq hqe in
theorem mwrFits_iff :
    (∀ r p, parseMwr s cbuf q = .msg r p → Contained layout s cbuf r q p) ↔ mwrFits s q := by
  have hce := s.cend_le hlen
  have hcur := getUleb128x3_cursor s.mem hqe
  have hend : ulebsEnd s.mem s.cend 3 q = (getUleb128x3 s.mem q s.cend).2.2.2 := rfl
  unfold parseMwr mwrFits
  simp only [check_eq_msg]
  generalize getUleb128x3 s.mem q s.cend = v at *
  obtain ⟨flags, addr, numBytes, e⟩ := v
  simp only at hcur hend ⊢
  constructor
  · intro hcon
    by_cases hle : u64 (e + numBytes) ≤ s.cend
    · have hends := (hcon _ _ ⟨hle, rfl, rfl⟩).ends
      simp only [layout, Layout.operandBytes, Fields.endFrom, Option.elim, hend] at hends
      have : u64 (e + numBytes) < 2 ^ 64 := Nat.mod_lt _ (by decide)
      exact .inl (by omega)
    · exact .inr (by omega)
  · rintro hfit r p ⟨hle, rfl, rfl⟩
    have heq : u64 (e + numBytes) = e + numBytes := by
      rcases hfit with hfit | hfit
      · exact u64_of_lt hfit
      · omega
    rw [heq] at hle ⊢
    refine ⟨?_, ?_, by omega, hle⟩
    · intro a n hop
      cases hop
      simp only [layout, Fields.endFrom, hend, true_and]
      omega
    · simp only [layout, Layout.operandBytes, Fields.endFrom, Option.elim, hend]

end Branches

/-! ## The whole loop -/

/-- Only `configure:` changes what was received. -/
theorem received_exec (h : XvcServerHandlers σ) (s : Server σ) (r : Request) :
    (∃ declared p, r = .configure declared p) ∨ (exec h s r).received = s.received := by
  cases r with
  | configure declared p => exact .inl ⟨declared, p, rfl⟩
  | getinfo => exact .inr (received_execGetinfo s)
  | capabilities => exact .inr (received_execCapabilities _ s)
  | error => exact .inr (received_execError s)
  | lock timeout => exact .inr (received_execLock h s timeout)
  | unlock => exact .inr (received_execUnlock h s)
  | shift bits p => exact .inr (received_execShift h s bits p)
  | settck nsperiod => exact .inr (received_execSettck h s nsperiod)
  | rshift instruction flags state count p =>
    exact .inr (received_execRshift h s instruction flags state count p)
  | state flags state count => exact .inr (received_execState h s flags state count)
  | mrd flags addr numBytes => exact .inr (received_execMrd h s flags addr numBytes)
  | mwr flags addr numBytes p => exact .inr (received_execMwr h s flags addr numBytes p)

/-- No request of `mem/versal` moves the receive buffer. -/
theorem keepsBuffer (h : XvcServerHandlers σ) : (dispatch h).KeepsBuffer := by
  intro s r
  rcases received_exec h s r with ⟨declared, p, rfl⟩ | hr
  · exact execConfigure_keeps (lockingAvailable h) s declared p
  · exact ⟨Server.rx_of_received hr, Server.bufLen_of_received hr⟩

/-- An iteration is contained exactly when the length at `cbuf` does not wrap. -/
theorem contains_iff (hlen : s.bufLen ≤ s.rx.bufMax) :
    (dispatch h).Contains layout s cbuf ↔ LengthsFit h s cbuf := by
  constructor
  · intro hcon hdr q hscan
    obtain ⟨hq, hqe⟩ := scanHeader_bounds hscan
    have hcon' : ∀ r p, parse h s cbuf hdr q = .msg r p → r.waitsForReplies = false →
        Contained layout s cbuf r q p :=
      fun r p hp hw => hcon r q p ⟨⟨hdr, hscan, hp⟩, by simp [dispatch, hw]⟩
    refine ⟨?_, ?_, ?_, ?_⟩
    · rintro rfl
      refine (configureFits_iff layout_configure.1 layout_configure.2 hlen hq hqe).mp fun r p hp => ?_
      obtain ⟨-, rfl, -⟩ := parseConfigure_eq_msg.mp hp
      exact hcon' _ _ hp rfl
    · rintro rfl
      refine (shiftFits_iff hlen hq hqe).mp fun r p hp => hcon' r p hp ?_
      unfold parseShift at hp
      split at hp
      · cases hp
      · obtain ⟨-, rfl, -⟩ := check_eq_msg.mp hp; rfl
    · intro hh hr
      refine (rshiftFits_iff hlen hq hqe (hdr = ascii "irshift:")).mp fun r p hp => ?_
      obtain ⟨-, rfl, -⟩ := check_eq_msg.mp hp
      exact hcon' _ _ ((parse_rshift hr hh).trans hp) rfl
    · rintro rfl hm
      refine (mwrFits_iff hlen hq hqe).mp fun r p hp => ?_
      obtain ⟨-, rfl, -⟩ := check_eq_msg.mp hp
      exact hcon' _ _ ((parse_mwr hm).trans hp) rfl
  · rintro hfit r q p ⟨⟨hdr, hscan, hp⟩, -⟩
    obtain ⟨hq, hqe⟩ := scanHeader_bounds hscan
    have hf := hfit hdr q hscan
    rcases parse_eq_msg hp with ⟨hr, rfl⟩ | ⟨hh, hp⟩ | ⟨-, hp⟩ | ⟨hh, hp⟩ | ⟨-, hp⟩ | ⟨hh, hr, hp⟩ |
      ⟨-, -, hp⟩ | ⟨-, -, hp⟩ | ⟨hh, hm, hp⟩
    · rcases hr with rfl | rfl | rfl | rfl <;> exact .of_fields rfl rfl hq hqe
    · exact (configureFits_iff layout_configure.1 layout_configure.2 hlen hq hqe).mpr
        (hf.configure hh) r p hp
    · exact lock_contained hq hp
    · exact (shiftFits_iff hlen hq hqe).mpr (hf.shift hh) r p hp
    · exact settck_contained hlen hq hqe hp
    · exact (rshiftFits_iff hlen hq hqe _).mpr (hf.rshift hh hr) r p hp
    · exact state_contained hq hqe hp
    · exact mrd_contained hq hqe hp
    · exact (mwrFits_iff hlen hq hqe).mpr (hf.mwr hh hm) r p hp

theorem getUleb128x3_congr {m m' : ByteMem} {a b : Nat} (hm : AgreeOn m m' a b) (hq : a ≤ q) :
    getUleb128x3 m' q b = getUleb128x3 m q b := by
  have h1 := getUleb128_cursor m q b
  have h2 := getUleb128_cursor m (getUleb128 m q b).2 b
  unfold getUleb128x3
  simp only [hm.getUleb128_eq hq, hm.getUleb128_eq (p := (getUleb128 m q b).2) (by omega),
    hm.getUleb128_eq (p := (getUleb128 m (getUleb128 m q b).2 b).2) (by omega)]

/-- A branch decodes the same request from any memory that holds the received bytes. -/
theorem parse_congr {m' : ByteMem} (hm : AgreeOn s.mem m' cbuf s.cend) (hlen : s.bufLen ≤ s.rx.bufMax)
    (hq : cbuf ≤ q) (hqe : q ≤ s.cend) :
    parse h { s with mem := m' } cbuf hdr q = parse h s cbuf hdr q := by
  have hce := s.cend_le hlen
  have h1 : getUleb128 m' q s.cend = getUleb128 s.mem q s.cend := hm.getUleb128_eq hq
  have h3 : getUleb128x3 m' q s.cend = getUleb128x3 s.mem q s.cend := getUleb128x3_congr hm hq
  have h4 : ¬ s.cend < u64 (q + 4) → slice m' q 4 = slice s.mem q 4 := fun hle =>
    hm.slice_eq hq (by rw [u64_of_lt (by omega)] at hle; omega)
  have hcend : Server.cend { s with mem := m' } = s.cend := rfl
  have hconf : parseConfigure Request.configure { s with mem := m' } cbuf q =
      parseConfigure Request.configure s cbuf q := hm.parseConfigure_eq hq
  have hlock : parseLock { s with mem := m' } cbuf q = parseLock s cbuf q := by
    unfold parseLock; simp only [hcend, h1]; rfl
  have hshift : parseShift { s with mem := m' } cbuf q = parseShift s cbuf q := by
    unfold parseShift
    by_cases hle : s.cend < u64 (q + 4)
    · simp only [hcend, if_pos hle]
    · simp only [hcend, if_neg hle, h4 hle]; rfl
  have hsettck : parseSettck { s with mem := m' } q = parseSettck s q := by
    unfold parseSettck
    by_cases hle : s.cend < u64 (q + 4)
    · simp only [hcend, if_pos hle]
    · simp only [hcend, if_neg hle, h4 hle]
  have hrshift : ∀ b, parseRshift { s with mem := m' } b cbuf q = parseRshift s b cbuf q := by
    intro b; unfold parseRshift; simp only [hcend, h3]; rfl
  have hstate : parseState { s with mem := m' } cbuf q = parseState s cbuf q := by
    unfold parseState; simp only [hcend, h3]; rfl
  have hmrd : parseMrd { s with mem := m' } cbuf q = parseMrd s cbuf q := by
    unfold parseMrd; simp only [hcend, h3]; rfl
  have hmwr : parseMwr { s with mem := m' } cbuf q = parseMwr s cbuf q := by
    unfold parseMwr; simp only [hcend, h3]; rfl
  unfold parse
  rw [hconf, hlock, hshift, hsettck, hrshift, hstate, hmrd, hmwr]

/-- Which request an iteration executes depends on the received bytes from `cbuf` only. -/
theorem dispatched_congr {m' : ByteMem} (hm : AgreeOn s.mem m' cbuf s.cend)
    (hlen : s.bufLen ≤ s.rx.bufMax) (hc : cbuf ≤ s.cend) :
    (dispatch h).Dispatched { s with mem := m' } cbuf r q p ↔ (dispatch h).Dispatched s cbuf r q p := by
  have hparse : ∀ hdr, scanHeader s cbuf = .header hdr q →
      parse h { s with mem := m' } cbuf hdr q = parse h s cbuf hdr q := fun hdr hscan => by
    obtain ⟨h1, h2⟩ := scanHeader_bounds hscan
    exact parse_congr hm hlen (by omega) h2
  constructor
  · rintro ⟨⟨hdr, hscan, hp⟩, hw⟩
    rw [hm.scanHeader_eq hc] at hscan
    exact ⟨⟨hdr, hscan, (hparse hdr hscan).symm.trans hp⟩, hw⟩
  · rintro ⟨⟨hdr, hscan, hp⟩, hw⟩
    exact ⟨⟨hdr, (hm.scanHeader_eq hc).trans hscan, (hparse hdr hscan).trans hp⟩, hw⟩

/-- **Containment and progress.** An iteration of the loop hands out exactly what was received, and
goes on exactly behind it, if and only if the length at `cbuf` does not wrap. As long as no length
does, `n` iterations that reach `reply:` move `cbuf` by at least `n` bytes and never past `cend`, so
the loop ends. What an iteration decodes depends on no byte before `cbuf` or from `cend` on. -/
theorem read_packet_contained (h : XvcServerHandlers σ) (s : Server σ) (cbuf : Nat)
    (hlen : s.bufLen ≤ s.rx.bufMax) (hc : cbuf ≤ s.cend) :
    ((dispatch h).Contains layout s cbuf ↔ LengthsFit h s cbuf) ∧
      (∀ n t p, Replies (dispatch h) (LengthsFit h) n s cbuf t p → cbuf + n ≤ p ∧ p ≤ s.cend) ∧
      ∀ m' r q p, AgreeOn s.mem m' cbuf s.cend →
        ((dispatch h).Dispatched { s with mem := m' } cbuf r q p ↔
          (dispatch h).Dispatched s cbuf r q p) := by
  refine ⟨contains_iff hlen, fun n t p hrun => ?_, fun m' r q p hm => dispatched_congr hm hlen hc⟩
  obtain ⟨h1, h2, -⟩ := hrun.progress (L := layout) (keepsBuffer h)
    (fun _ _ hok hl _ => (contains_iff hl).mpr hok) hlen hc
  exact ⟨h1, h2⟩

/-- An `mwr:` of one word. -/
def smallMwr : List UInt8 := ascii "mwr:" ++ [0, 0, 4, 1, 2, 3, 4]

theorem read_packet_contained_small :
    (dispatch (handlers defaultHub)).Contains layout (Server.loaded zeroHub smallMwr) 0x1000 := by
  refine (read_packet_contained (handlers defaultHub) (Server.loaded zeroHub smallMwr) 0x1000 (by decide)
    (by decide)).1.mpr fun hdr q hscan => ?_
  have hs : scanHeader (Server.loaded zeroHub smallMwr) 0x1000 = .header (ascii "mwr:") 0x1004 := rfl
  rw [hs] at hscan
  cases hscan
  exact ⟨fun hh => absurd hh (by decide), fun hh => absurd hh (by decide), fun hh => absurd hh (by decide),
    fun _ _ => .inl (by decide)⟩

/-- An `mwr:` of `2^64 - 16` bytes: the next message would begin where this one does. -/
def wrappingMwr : List UInt8 := ascii "mwr:" ++ [0, 0] ++ Leb128.encode 10 (2 ^ 64 - 16)

theorem wrappingMwr_dispatched :
    (dispatch (handlers defaultHub)).Dispatched (Server.loaded zeroHub wrappingMwr) 0x1000
      (.mwr 0 0 (2 ^ 64 - 16) 0x1010) 0x1004 0x1000 := by
  refine ⟨⟨ascii "mwr:", ?_, ?_⟩, ?_⟩
  · rfl
  · rfl
  · decide

theorem read_packet_not_contained :
    ¬ ∀ (h : XvcServerHandlers ByteMem) (s : Server ByteMem) (cbuf : Nat),
      s.bufLen ≤ s.rx.bufMax → cbuf ≤ s.cend → (dispatch h).Contains layout s cbuf := by
  intro hall
  have hcon := hall (handlers defaultHub) (Server.loaded zeroHub wrappingMwr) 0x1000 (by decide) (by decide)
    _ _ _ wrappingMwr_dispatched
  exact absurd hcon.progress (by decide)

end Versal
end Xvc
