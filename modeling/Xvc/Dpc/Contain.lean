import Xvc.Dpc.Requests
import Xvc.Server.Contain

/-!
# Containment of the `dpc` messages

Two branches of `dpc/src/xvcserver.c` have a length. `configure:` is that of `mem/versal`. `idpc:`
multiplies a 64-bit number of words by 4 and adds a pointer to it before its only check, and both
operations can wrap; the handler gets the number of words itself. `idpcFits` says that neither does,
or that the branch waits for more bytes, and `contains_iff` that this is exactly when the packet
handed to the handler is what was received.
-/

namespace Xvc
namespace Dpc

open ByteMem

variable {σ : Type}

/-- The shape of the messages of `dpc`. -/
def layout : Layout Request where
  fields
    | .getinfo | .capabilities | .error => .ulebs 0
    | .configure _ _ | .edpc _ => .ulebs 1
    | .idpc _ _ _ => .ulebs 2
  operand
    | .configure declared p => some (p, declared)
    | .idpc _ numWords p => some (p, 4 * numWords)
    | _ => none

/-- The end of the packet of `idpc:` fits a pointer, or wraps to one past what was received. -/
def idpcFits (s : Server σ) (q : Nat) : Prop :=
  let v := getUleb128 s.mem q s.cend
  let w := getUleb128 s.mem v.2 s.cend
  w.2 + 4 * w.1 < 2 ^ 64 ∨ s.cend < u64 (w.2 + u64 (w.1 * 4))

/-- The length of the message whose header is `hdr` does not wrap. -/
structure HeaderFits (h : XvcServerHandlers σ) (s : Server σ) (hdr : List UInt8) (q : Nat) : Prop where
  configure : hdr = ascii "configure:" → configureFits s q
  idpc : hdr = ascii "idpc:" → h.idpc.isSome → idpcFits s q

/-- The length of the message at `cbuf` does not wrap. -/
def LengthsFit (h : XvcServerHandlers σ) (s : Server σ) (cbuf : Nat) : Prop :=
  ∀ hdr q, scanHeader s cbuf = .header hdr q → HeaderFits h s hdr q

variable {h : XvcServerHandlers σ} {s : Server σ} {cbuf q p : Nat} {hdr : List UInt8} {r : Request}

/-- The branch that a complete message comes from. -/
theorem parse_eq_msg (hm : parse h s cbuf hdr q = .msg r p) :
    ((r = .getinfo ∨ r = .capabilities ∨ r = .error) ∧ p = q) ∨
    (hdr = ascii "configure:" ∧ parseConfigure Request.configure s cbuf q = .msg r p) ∨
    (hdr = ascii "edpc:" ∧ h.edpc.isSome ∧ parseEdpc s cbuf q = .msg r p) ∨
    (hdr = ascii "idpc:" ∧ h.idpc.isSome ∧ parseIdpc s cbuf q = .msg r p) := by
  unfold parse at hm
  by_cases hh : hdr = ascii "getinfo:"
  · rw [if_pos hh] at hm; cases hm; exact .inl ⟨.inl rfl, rfl⟩
  rw [if_neg hh] at hm
  clear hh
  by_cases hh : hdr = ascii "capabilities:"
  · rw [if_pos hh] at hm; cases hm; exact .inl ⟨.inr (.inl rfl), rfl⟩
  rw [if_neg hh] at hm
  clear hh
  by_cases hh : hdr = ascii "configure:"
  · rw [if_pos hh] at hm; exact .inr (.inl ⟨hh, hm⟩)
  rw [if_neg hh] at hm
  clear hh
  by_cases hh : hdr = ascii "error:"
  · rw [if_pos hh] at hm; cases hm; exact .inl ⟨.inr (.inr rfl), rfl⟩
  rw [if_neg hh] at hm
  clear hh
  by_cases hh : hdr = ascii "edpc:" ∧ h.edpc.isSome
  · rw [if_pos hh] at hm; exact .inr (.inr (.inl ⟨hh.1, hh.2, hm⟩))
  rw [if_neg hh] at hm
  clear hh
  by_cases hh : hdr = ascii "idpc:" ∧ h.idpc.isSome
  · rw [if_pos hh] at hm; exact .inr (.inr (.inr ⟨hh.1, hh.2, hm⟩))
  rw [if_neg hh] at hm
  cases hm

theorem parse_configure : parse h s cbuf (ascii "configure:") q = parseConfigure Request.configure s cbuf q :=
  rfl

theorem parse_edpc (he : h.edpc.isSome) : parse h s cbuf (ascii "edpc:") q = parseEdpc s cbuf q := by
  show (if ascii "edpc:" = ascii "edpc:" ∧ h.edpc.isSome then parseEdpc s cbuf q else _) = _
  exact if_pos ⟨rfl, he⟩

theorem parse_idpc (hi : h.idpc.isSome) : parse h s cbuf (ascii "idpc:") q = parseIdpc s cbuf q := by
  show (if ascii "idpc:" = ascii "idpc:" ∧ h.idpc.isSome then parseIdpc s cbuf q else _) = _
  exact if_pos ⟨rfl, hi⟩

/-! ## Each branch is contained exactly when its length fits -/

theorem layout_configure : (∀ n p, layout.fields (.configure n p) = .ulebs 1) ∧
    ∀ n p, layout.operand (.configure n p) = some (p, n) := ⟨fun _ _ => rfl, fun _ _ => rfl⟩

theorem edpc_contained (hq : cbuf < q) (hm : parseEdpc s cbuf q = .msg r p) :
    Contained layout s cbuf r q p := by
  obtain ⟨hle, rfl, rfl⟩ := check_eq_msg.mp hm
  have := getUleb128_cursor s.mem q s.cend
  exact .of_fields rfl rfl (by omega) hle

theorem idpcFits_iff (hlen : s.bufLen ≤ s.rx.bufMax) (hq : cbuf < q) :
    (∀ r p, parseIdpc s cbuf q = .msg r p → Contained layout s cbuf r q p) ↔ idpcFits s q := by
  have hce := s.cend_le hlen
  have h1 := getUleb128_cursor s.mem q s.cend
  have h2 := getUleb128_cursor s.mem (getUleb128 s.mem q s.cend).2 s.cend
  have hend : ulebsEnd s.mem s.cend 2 q = (getUleb128 s.mem (getUleb128 s.mem q s.cend).2 s.cend).2 := rfl
  unfold parseIdpc idpcFits
  simp only [check_eq_msg]
  generalize getUleb128 s.mem (getUleb128 s.mem q s.cend).2 s.cend = w at *
  generalize getUleb128 s.mem q s.cend = v at *
  obtain ⟨numWords, e⟩ := w
  simp only at h2 hend ⊢
  constructor
  · intro hcon
    by_cases hle : u64 (e + u64 (numWords * 4)) ≤ s.cend
    · have hends := (hcon _ _ ⟨hle, rfl, rfl⟩).ends
      simp only [layout, Layout.operandBytes, Fields.endFrom, Option.elim, hend] at hends
      have : u64 (e + u64 (numWords * 4)) < 2 ^ 64 := Nat.mod_lt _ (by decide)
      exact .inl (by omega)
    · exact .inr (by omega)
  · rintro hfit r p ⟨hle, rfl, rfl⟩
    have heq : u64 (e + u64 (numWords * 4)) = e + 4 * numWords := by
      rcases hfit with hfit | hfit
      · rw [u64_of_lt (n := numWords * 4) (by omega), u64_of_lt (by omega)]; omega
      · omega
    rw [heq] at hle ⊢
    refine ⟨?_, ?_, by omega, hle⟩
    · intro a n hop
      cases hop
      simp only [layout, Fields.endFrom, hend, true_and]
      omega
    · simp only [layout, Layout.operandBytes, Fields.endFrom, Option.elim, hend]

/-! ## The whole loop -/

theorem received_execEdpc (h : XvcServerHandlers σ) (s : Server σ) (flags : Nat) :
    (execEdpc h s flags).received = s.received := by
  unfold execEdpc
  generalize callEdpc h s flags = r
  have hcall : (s.unlessFailed fun s => callOrNull s (h.edpc.map fun _ => r.call) (.edpc flags)).received =
      s.received := Server.received_unlessFailed (received_callOrNull _ _ _)
  simp only
  rw [Server.received_replyStatus, Server.received_replyData]
  cases r.buf with
  | none => simp only [Server.received_replyUleb128]; exact hcall
  | some b => simp only [Server.received_store, Server.received_replyUleb128]; exact hcall

theorem received_execIdpc (h : XvcServerHandlers σ) (s : Server σ) (flags numWords p : Nat) :
    (execIdpc h s flags numWords p).received = s.received := by
  unfold execIdpc
  rw [Server.received_replyStatus, Server.received_unlessFailed]
  rw [received_callOrNull]

/-- No request of `dpc` moves the receive buffer. -/
theorem keepsBuffer (h : XvcServerHandlers σ) : (dispatch h).KeepsBuffer := by
  intro s r
  suffices hr : (∃ declared p, r = .configure declared p) ∨ (exec h s r).received = s.received by
    rcases hr with ⟨declared, p, rfl⟩ | hr
    · exact execConfigure_keeps (lockingAvailable h) s declared p
    · exact ⟨Server.rx_of_received hr, Server.bufLen_of_received hr⟩
  cases r with
  | configure declared p => exact .inl ⟨declared, p, rfl⟩
  | getinfo => exact .inr (received_execGetinfo s)
  | capabilities => exact .inr (received_execCapabilities _ s)
  | error => exact .inr (received_execError s)
  | edpc flags => exact .inr (received_execEdpc h s flags)
  | idpc flags numWords p => exact .inr (received_execIdpc h s flags numWords p)

/-- An iteration is contained exactly when the length at `cbuf` does not wrap. -/
theorem contains_iff (hlen : s.bufLen ≤ s.rx.bufMax) :
    (dispatch h).Contains layout s cbuf ↔ LengthsFit h s cbuf := by
  constructor
  · intro hcon hdr q hscan
    obtain ⟨hq, hqe⟩ := scanHeader_bounds hscan
    have hcon' : ∀ r p, parse h s cbuf hdr q = .msg r p → Contained layout s cbuf r q p :=
      fun r p hp => hcon r q p ⟨⟨hdr, hscan, hp⟩, by simp [dispatch]⟩
    refine ⟨?_, ?_⟩
    · rintro rfl
      exact (configureFits_iff layout_configure.1 layout_configure.2 hlen hq hqe).mp hcon'
    · rintro rfl hi
      refine (idpcFits_iff hlen hq).mp fun r p hp => hcon' r p ?_
      rw [parse_idpc hi]; exact hp
  · rintro hfit r q p ⟨⟨hdr, hscan, hp⟩, -⟩
    obtain ⟨hq, hqe⟩ := scanHeader_bounds hscan
    have hf := hfit hdr q hscan
    rcases parse_eq_msg hp with ⟨hr, rfl⟩ | ⟨hh, hp⟩ | ⟨-, -, hp⟩ | ⟨hh, hi, hp⟩
    · rcases hr with rfl | rfl | rfl <;> exact .of_fields rfl rfl hq hqe
    · exact (configureFits_iff layout_configure.1 layout_configure.2 hlen hq hqe).mpr
        (hf.configure hh) r p hp
    · exact edpc_contained hq hp
    · exact (idpcFits_iff hlen hq).mpr (hf.idpc hh hi) r p hp

/-- **Containment and progress.** An iteration of the loop hands out exactly what was received, and
goes on exactly behind it, if and only if the length at `cbuf` does not wrap; as long as no length
does, `n` iterations that reach `reply:` move `cbuf` by at least `n` bytes and never past `cend`, so
the loop ends and no byte is dispatched twice. -/
theorem dpc_read_packet_contained (h : XvcServerHandlers σ) (s : Server σ) (cbuf : Nat)
    (hlen : s.bufLen ≤ s.rx.bufMax) (hc : cbuf ≤ s.cend) :
    ((dispatch h).Contains layout s cbuf ↔ LengthsFit h s cbuf) ∧
      ∀ n t p, Replies (dispatch h) (LengthsFit h) n s cbuf t p → cbuf + n ≤ p ∧ p ≤ s.cend := by
  refine ⟨contains_iff hlen, fun n t p hrun => ?_⟩
  obtain ⟨h1, h2, -⟩ := hrun.progress (L := layout) (keepsBuffer h)
    (fun _ _ hok hl _ => (contains_iff hl).mpr hok) hlen hc
  exact ⟨h1, h2⟩

/-- A table whose packet callbacks do nothing. -/
def idleHandlers : XvcServerHandlers Unit where
  lock := none
  unlock := none
  flush := none
  idpc := some fun _ _ _ _ _ => { clientData := () }
  edpc := some fun _ _ => { call := { clientData := () } }

/-- An `idpc:` of one word. -/
def smallIdpc : List UInt8 := ascii "idpc:" ++ [0, 1, 1, 2, 3, 4]

theorem dpc_read_packet_contained_small :
    (dispatch idleHandlers).Contains layout (Server.loaded () smallIdpc) 0x1000 := by
  refine (dpc_read_packet_contained idleHandlers (Server.loaded () smallIdpc) 0x1000 (by decide)
    (by decide)).1.mpr fun hdr q hscan => ?_
  have hs : scanHeader (Server.loaded () smallIdpc) 0x1000 = .header (ascii "idpc:") 0x1005 := rfl
  rw [hs] at hscan
  cases hscan
  exact ⟨fun hh => absurd hh (by decide), fun _ _ => .inl (by decide)⟩

/-- An `idpc:` of `2^62 - 4` words: the next message would begin where this one does. -/
def wrappingIdpc : List UInt8 := ascii "idpc:" ++ [0x80, 0] ++ Leb128.encode 10 (2 ^ 62 - 4)

theorem wrappingIdpc_dispatched :
    (dispatch idleHandlers).Dispatched (Server.loaded () wrappingIdpc) 0x1000
      (.idpc 0 (2 ^ 62 - 4) 0x1010) 0x1005 0x1000 := by
  have hflags : getUleb128 (Server.loaded () wrappingIdpc).mem 0x1005 (Server.loaded () wrappingIdpc).cend =
      (0, 0x1007) := rfl
  have hwords : getUleb128 (Server.loaded () wrappingIdpc).mem 0x1007 (Server.loaded () wrappingIdpc).cend =
      (2 ^ 62 - 4, 0x1010) := by decide
  have hparse : parse idleHandlers (Server.loaded () wrappingIdpc) 0x1000 (ascii "idpc:") 0x1005 =
      parseIdpc (Server.loaded () wrappingIdpc) 0x1000 0x1005 := parse_idpc rfl
  have hmsg : parseIdpc (Server.loaded () wrappingIdpc) 0x1000 0x1005 =
      .msg (.idpc 0 (2 ^ 62 - 4) 0x1010) 0x1000 := by
    unfold parseIdpc
    rw [hflags]
    simp only [hwords]
    rfl
  have hdisp : (dispatch idleHandlers).parse = parse idleHandlers := rfl
  exact ⟨⟨ascii "idpc:", rfl, by rw [hdisp, hparse, hmsg]⟩, by decide⟩

theorem dpc_read_packet_not_contained :
    ¬ ∀ (h : XvcServerHandlers Unit) (s : Server Unit) (cbuf : Nat),
      s.bufLen ≤ s.rx.bufMax → cbuf ≤ s.cend → (dispatch h).Contains layout s cbuf := by
  intro hall
  have hcon := hall idleHandlers (Server.loaded () wrappingIdpc) 0x1000 (by decide) (by decide)
    _ _ _ wrappingIdpc_dispatched
  exact absurd hcon.progress (by decide)

end Dpc
end Xvc
