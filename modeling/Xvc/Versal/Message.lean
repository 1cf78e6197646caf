import Xvc.Server.Common
import Xvc.Server.Framing
import Xvc.Versal.Contain

/-!
# The messages of `mem/versal` on the wire

`Msg` has a value for each well-formed message of the protocol, and for nothing else: the operands
have the length that the header says, and a number is any LEB128 encoding of at most ten bytes.
`Msg.enc` is its bytes.

* `parse_whole`: on the bytes of a message, whatever follows them, the server decodes its request.
* `iter_cut`: on a proper prefix of a message, one iteration of the loop asks for more bytes. No
  branch gets as far as its handler, and no assertion fails.
-/

namespace Xvc
namespace Versal

open ByteMem Stream

/-- A well-formed message. -/
inductive Msg where
  | getinfo
  | capabilities
  | configure (len : Uleb) (text : List UInt8) (h : text.length = len.value)
  | error
  | lock (timeout : Uleb)
  | unlock
  | shift (bits : Nat) (tms tdi : List UInt8) (hbits : bits + 7 < 2 ^ 32)
      (htms : tms.length = (bits + 7) / 8) (htdi : tdi.length = (bits + 7) / 8)
  | settck (nsperiod : Nat) (h : nsperiod < 2 ^ 32)
  | rshift (instruction : Bool) (flags state count : Uleb) (tdi : List UInt8)
      (h : tdi.length = if u32 flags.value &&& 3 = 0 then (count.value + 7) / 8 else 0)
  | state (flags state count : Uleb)
  | mrd (flags addr numBytes : Uleb)
  | mwr (flags addr numBytes : Uleb) (data : List UInt8) (h : data.length = numBytes.value)

namespace Msg

/-- The name of the message, without its `:`. -/
def name : Msg → List UInt8
  | getinfo => ascii "getinfo"
  | capabilities => ascii "capabilities"
  | configure _ _ _ => ascii "configure"
  | error => ascii "error"
  | lock _ => ascii "lock"
  | unlock => ascii "unlock"
  | shift _ _ _ _ _ _ => ascii "shift"
  | settck _ _ => ascii "settck"
  | rshift instruction _ _ _ _ _ => if instruction then ascii "irshift" else ascii "drshift"
  | state _ _ _ => ascii "state"
  | mrd _ _ _ => ascii "mrd"
  | mwr _ _ _ _ _ => ascii "mwr"

/-- The numbers behind the `:`. -/
def numbers : Msg → List Uleb
  | getinfo | capabilities | error | unlock | shift _ _ _ _ _ _ | settck _ _ => []
  | configure len _ _ => [len]
  | lock timeout => [timeout]
  | rshift _ flags st count _ _ => [flags, st, count]
  | .state flags st count => [flags, st, count]
  | mrd flags addr numBytes => [flags, addr, numBytes]
  | mwr flags addr numBytes _ _ => [flags, addr, numBytes]

/-- The bytes behind the numbers. -/
def payload : Msg → List UInt8
  | getinfo | capabilities | error | lock _ | unlock | state _ _ _ | mrd _ _ _ => []
  | configure _ text _ => text
  | shift bits tms tdi _ _ _ => leBytes 4 bits ++ (tms ++ tdi)
  | settck nsperiod _ => leBytes 4 nsperiod
  | rshift _ _ _ _ tdi _ => tdi
  | mwr _ _ _ data _ => data

/-- What follows the `:`. -/
def body (m : Msg) : List UInt8 := Uleb.enc m.numbers ++ m.payload

/-- The bytes of the message. -/
def enc (m : Msg) : List UInt8 := m.name ++ [58] ++ m.body

/-- The decoded message, when the bytes behind its numbers are at `p`. -/
def request (p : Nat) : Msg → Request
  | getinfo => .getinfo
  | capabilities => .capabilities
  | configure len _ _ => .configure len.value p
  | error => .error
  | lock timeout => .lock (u32 timeout.value)
  | unlock => .unlock
  | shift bits _ _ _ _ _ => .shift bits (p + 4)
  | settck nsperiod _ => .settck nsperiod
  | rshift instruction flags st count _ _ =>
    .rshift instruction (u32 flags.value) (u32 st.value) count.value p
  | .state flags st count => .state (u32 flags.value) (u32 st.value) count.value
  | mrd flags addr numBytes => .mrd (u32 flags.value) addr.value numBytes.value
  | mwr flags addr numBytes _ _ => .mwr (u32 flags.value) addr.value numBytes.value p

/-- The server has the handler that the message needs. -/
def Available {σ : Type} (h : XvcServerHandlers σ) : Msg → Prop
  | rshift _ _ _ _ _ _ => h.registerShift.isSome
  | state _ _ _ => h.state.isSome
  | mrd _ _ _ => h.mrd.isSome
  | mwr _ _ _ _ _ => h.mwr.isSome
  | _ => True

/-- The room that has to be left: `configure:` asserts that its end lies before the buffer's. -/
def slack : Msg → Nat
  | configure _ _ _ => 1
  | _ => 0

/-- The message can be sent to the server: its handler is there, and it fits the receive buffer. -/
structure WellFormed {σ : Type} (h : XvcServerHandlers σ) (rx : RxBuffer) (m : Msg) : Prop where
  available : m.Available h
  fits : m.enc.length + m.slack ≤ rx.bufMax

theorem name_spec (m : Msg) : 58 ∉ m.name ∧ m.name.length < 30 := by
  cases m with
  | rshift instruction _ _ _ _ _ => cases instruction <;> (dsimp only [name]; decide)
  | _ => dsimp only [name]; decide

theorem enc_ne_nil (m : Msg) : m.enc ≠ [] := by simp [enc]

end Msg

variable {σ : Type} {h : XvcServerHandlers σ} {s : Server σ} {cbuf q : Nat} {l rest : List UInt8}

/-! ## Three numbers -/

theorem getUleb128x3_eq (mem : ByteMem) (p bufend : Nat) :
    getUlebs mem bufend 3 p =
      ([(getUleb128x3 mem p bufend).1, (getUleb128x3 mem p bufend).2.1, (getUleb128x3 mem p bufend).2.2.1],
        (getUleb128x3 mem p bufend).2.2.2) := rfl

theorem getUleb128x3_whole {a b c : Uleb} (hh : Holds s q (Uleb.enc [a, b, c] ++ rest)) :
    getUleb128x3 s.mem q s.cend = (a.value, b.value, c.value, q + (Uleb.enc [a, b, c]).length) := by
  have hw := getUlebs_whole hh
  rw [show [a, b, c].length = 3 from rfl, getUleb128x3_eq] at hw
  simpa [Prod.ext_iff, and_assoc] using hw

/-- Three numbers that are cut short: the third is not more than it should be, and nothing when the
first is not there. -/
theorem getUleb128x3_cut {a b c : Uleb} (hh : Holds s q l) (hl : Proper l (Uleb.enc [a, b, c])) :
    ∃ a' b' c' e, getUleb128x3 s.mem q s.cend = (a', b', c', e) ∧ s.cend < e ∧
      e ≤ q + (Uleb.enc [a, b, c]).length ∧ c' ≤ c.value ∧ (c' = 0 ∨ a' = a.value) := by
  obtain ⟨vs, e, hg, h1, h2, hcut⟩ := getUlebs_cut hh hl
  rw [show [a, b, c].length = 3 from rfl, getUleb128x3_eq] at hg
  generalize getUleb128x3 s.mem q s.cend = g at hg
  obtain ⟨a', b', c', e'⟩ := g
  obtain ⟨rfl, rfl⟩ := Prod.mk.inj hg
  refine ⟨a', b', c', _, rfl, h1, h2, ?_⟩
  simp only [List.map_cons, List.map_nil] at hcut
  rcases hcut.cons_cases with ⟨x, y, -, hv⟩ | ⟨us, hv, hcut₂⟩
  · -- Cut in the first.
    simp only [List.length_cons, List.length_nil, List.replicate, List.cons.injEq] at hv
    omega
  rcases hcut₂.cons_cases with ⟨x, y, -, rfl⟩ | ⟨us', rfl, hcut₃⟩
  · simp only [List.length_cons, List.length_nil, List.replicate, List.cons.injEq] at hv
    omega
  rcases hcut₃.cons_cases with ⟨x, y, hc, rfl⟩ | ⟨us'', -, hcut₄⟩
  · -- Cut in the third: the first two are there, and the third has some of its bits.
    simp only [List.length_nil, List.replicate, List.cons.injEq] at hv
    have : x ≤ c.value := by rw [hc]; exact Nat.left_le_or
    omega
  · exact absurd hcut₄ Leb128.not_cut_nil

/-! ## Whole messages -/

theorem parseLock_whole {timeout : Uleb} (hh : Holds s q (Uleb.enc [timeout] ++ rest)) :
    parseLock s cbuf q = .msg (.lock (u32 timeout.value)) (q + (Uleb.enc [timeout]).length) := by
  have he := hh.le_cend
  simp only [Uleb.enc, List.map_cons, List.map_nil, List.flatten_cons, List.flatten_nil,
    List.append_nil] at *
  have hv := getUleb128_whole hh
  unfold parseLock
  simp only [hv]
  rw [if_neg (by omega)]

/-- The end of a `shift:` as the code computes it. -/
theorem shift_end {bits : Nat} {tms tdi : List UInt8} (hbits : bits + 7 < 2 ^ 32)
    (htms : tms.length = (bits + 7) / 8) (htdi : tdi.length = (bits + 7) / 8)
    (hlt : q + (4 + (tms.length + tdi.length)) < 2 ^ 64) :
    u64 (q + 4 + u32 (shiftBytes bits * 2)) = q + (4 + (tms.length + tdi.length)) := by
  have hb : shiftBytes bits = (bits + 7) / 8 := by
    unfold shiftBytes
    rw [u32_of_lt hbits]
  rw [hb, u32_of_lt (by omega), u64_of_lt (by omega)]
  omega

theorem parseShift_whole {bits : Nat} {tms tdi : List UInt8} (hbits : bits + 7 < 2 ^ 32)
    (htms : tms.length = (bits + 7) / 8) (htdi : tdi.length = (bits + 7) / 8)
    (hh : Holds s q (leBytes 4 bits ++ (tms ++ tdi) ++ rest)) :
    parseShift s cbuf q = .msg (.shift bits (q + 4)) (q + (leBytes 4 bits ++ (tms ++ tdi)).length) := by
  have he := hh.le_cend
  have hce := s.cend_le hh.fits
  have h4 : slice s.mem q 4 = leBytes 4 bits := by
    have := (Holds.take (l := leBytes 4 bits) (r := tms ++ tdi ++ rest) (by simpa using hh))
    simpa using this
  simp only [List.length_append, length_leBytes] at *
  unfold parseShift
  simp only [h4, getUintLe_leBytes (show bits < 2 ^ 32 by omega), shift_end (q := q) hbits htms htdi (by omega)]
  rw [u64_of_lt (by omega), if_neg (by omega), if_neg (by omega)]

theorem parseSettck_whole {nsperiod : Nat} (hp : nsperiod < 2 ^ 32)
    (hh : Holds s q (leBytes 4 nsperiod ++ rest)) :
    parseSettck s q = .msg (.settck nsperiod) (q + (leBytes 4 nsperiod).length) := by
  have he := hh.le_cend
  have hce := s.cend_le hh.fits
  have h4 : slice s.mem q 4 = leBytes 4 nsperiod := by simpa using hh.take
  simp only [length_leBytes] at *
  unfold parseSettck
  simp only [h4, getUintLe_leBytes hp]
  rw [u64_of_lt (by omega), if_neg (by omega)]

/-- The `tdibytes` of the code are the operand of a well-formed message. -/
theorem tdiBytes_of {flags count : Uleb} {tdi : List UInt8}
    (ht : tdi.length = if u32 flags.value &&& 3 = 0 then (count.value + 7) / 8 else 0)
    (hmax : tdi.length < 2 ^ 32) : tdiBytes (u32 flags.value) count.value = tdi.length := by
  unfold tdiBytes
  split at ht
  · next h0 => rw [if_pos h0, u64_of_lt (by omega), ht]
  · next h0 => rw [if_neg h0, ht]

theorem parseRshift_whole (instruction : Bool) (cbuf : Nat) {flags state count : Uleb} {tdi : List UInt8}
    (ht : tdi.length = if u32 flags.value &&& 3 = 0 then (count.value + 7) / 8 else 0)
    (hmax : tdi.length < 2 ^ 32)
    (hh : Holds s q (Uleb.enc [flags, state, count] ++ tdi ++ rest)) :
    parseRshift s instruction cbuf q =
      .msg (.rshift instruction (u32 flags.value) (u32 state.value) count.value
        (q + (Uleb.enc [flags, state, count]).length)) (q + (Uleb.enc [flags, state, count] ++ tdi).length) := by
  have he := hh.le_cend
  have hce := s.cend_le hh.fits
  rw [List.append_assoc] at hh
  have hv := getUleb128x3_whole hh
  rw [List.length_append] at he ⊢
  have htdi := tdiBytes_of ht hmax
  unfold parseRshift
  simp only [hv, htdi]
  rw [u64_of_lt (by omega), if_neg (by omega), Nat.add_assoc]

theorem parseState_whole {flags state count : Uleb}
    (hh : Holds s q (Uleb.enc [flags, state, count] ++ rest)) :
    parseState s cbuf q = .msg (.state (u32 flags.value) (u32 state.value) count.value)
      (q + (Uleb.enc [flags, state, count]).length) := by
  have he := hh.le_cend
  unfold parseState
  simp only [getUleb128x3_whole hh]
  rw [if_neg (by omega)]

theorem parseMrd_whole {flags addr numBytes : Uleb}
    (hh : Holds s q (Uleb.enc [flags, addr, numBytes] ++ rest)) :
    parseMrd s cbuf q = .msg (.mrd (u32 flags.value) addr.value numBytes.value)
      (q + (Uleb.enc [flags, addr, numBytes]).length) := by
  have he := hh.le_cend
  unfold parseMrd
  simp only [getUleb128x3_whole hh]
  rw [if_neg (by omega)]

theorem parseMwr_whole {flags addr numBytes : Uleb} {data : List UInt8}
    (hd : data.length = numBytes.value)
    (hh : Holds s q (Uleb.enc [flags, addr, numBytes] ++ data ++ rest)) :
    parseMwr s cbuf q = .msg (.mwr (u32 flags.value) addr.value numBytes.value
        (q + (Uleb.enc [flags, addr, numBytes]).length))
      (q + (Uleb.enc [flags, addr, numBytes] ++ data).length) := by
  have he := hh.le_cend
  have hce := s.cend_le hh.fits
  rw [List.append_assoc] at hh
  have hv := getUleb128x3_whole hh
  rw [List.length_append] at he ⊢
  unfold parseMwr
  simp only [hv, ← hd]
  rw [u64_of_lt (by omega), if_neg (by omega), Nat.add_assoc]

/-- **Decoding.** A whole message, whatever follows it, is decoded as what it says. -/
theorem parse_whole (cbuf : Nat) {m : Msg} (hw : m.WellFormed h s.rx) (hh : Holds s q (m.body ++ rest)) :
    parse h s cbuf (m.name ++ [58]) q = .msg (m.request (q + (Uleb.enc m.numbers).length))
      (q + m.body.length) := by
  have hun := s.rx.unsigned
  have hlen : m.payload.length < s.rx.bufMax := by
    have := hw.fits
    simp only [Msg.enc, Msg.body, List.length_append, List.length_singleton] at this
    omega
  obtain ⟨hav, -⟩ := hw
  cases m with
  | getinfo => rfl
  | capabilities => rfl
  | configure len text ht =>
    exact parse_configure.trans (parseConfigure_whole _ ht (by omega) hh)
  | error => rfl
  | lock timeout =>
    have hb : (Msg.lock timeout).body = Uleb.enc [timeout] := List.append_nil _
    rw [hb] at hh ⊢
    exact parse_lock.trans (parseLock_whole hh)
  | unlock => rfl
  | shift bits tms tdi hbits htms htdi =>
    exact parse_shift.trans (parseShift_whole hbits htms htdi hh)
  | settck nsperiod hp => exact parse_settck.trans (parseSettck_whole hp hh)
  | rshift instruction flags st count tdi ht =>
    have hp := parseRshift_whole instruction cbuf ht (Nat.lt_trans hlen hun) hh
    cases instruction with
    | true => exact (parse_rshift hav (.inl rfl)).trans hp
    | false => exact (parse_rshift hav (.inr rfl)).trans hp
  | state flags st count =>
    have hb : (Msg.state flags st count).body = Uleb.enc [flags, st, count] := List.append_nil _
    rw [hb] at hh ⊢
    exact (parse_state hav).trans (parseState_whole hh)
  | mrd flags addr numBytes =>
    have hb : (Msg.mrd flags addr numBytes).body = Uleb.enc [flags, addr, numBytes] := List.append_nil _
    rw [hb] at hh ⊢
    exact (parse_mrd hav).trans (parseMrd_whole hh)
  | mwr flags addr numBytes data hd => exact (parse_mwr hav).trans (parseMwr_whole hd hh)

/-! ## Messages that are cut short -/

section Cut

variable (hc : cbuf ≤ q)

include hc in
theorem parseLock_cut {timeout : Uleb} (hh : Holds s q l) (hl : Proper l (Uleb.enc [timeout]))
    (hmax : q - cbuf + (Uleb.enc [timeout]).length ≤ s.rx.bufMax) : parseLock s cbuf q = .fill := by
  have he := hh.ends
  rw [show Uleb.enc [timeout] = timeout.bytes by simp [Uleb.enc]] at *
  obtain ⟨v, e, x, hv, h1, h2, -⟩ := getUleb128_cut hh hl
  unfold parseLock
  simp only [hv]
  rw [if_pos h1, incomplete_eq_fill (by omega) (by omega)]

include hc in
theorem parseShift_cut {bits : Nat} {tms tdi : List UInt8} (hbits : bits + 7 < 2 ^ 32)
    (htms : tms.length = (bits + 7) / 8) (htdi : tdi.length = (bits + 7) / 8) (hh : Holds s q l)
    (hl : Proper l (leBytes 4 bits ++ (tms ++ tdi)))
    (hmax : q - cbuf + (leBytes 4 bits ++ (tms ++ tdi)).length ≤ s.rx.bufMax) :
    parseShift s cbuf q = .fill := by
  have he := hh.ends
  have hce := s.cend_le hh.fits
  have hun := s.rx.unsigned
  unfold parseShift
  rcases hl.append_cases with hcut | ⟨l', rfl, hcut⟩
  · have := hcut.length_lt
    rw [length_leBytes] at this
    rw [u64_of_lt (by omega), if_pos (by omega)]
  · have h4 : slice s.mem q 4 = leBytes 4 bits := by simpa using hh.take
    have hlt := hcut.length_lt
    simp only [List.length_append, length_leBytes] at *
    simp only [h4, getUintLe_leBytes (show bits < 2 ^ 32 by omega), shift_end (q := q) hbits htms htdi (by omega)]
    rw [u64_of_lt (by omega), if_neg (by omega), if_pos (by omega),
      incomplete_eq_fill (by omega) (by omega)]

theorem parseSettck_cut {nsperiod : Nat} (hh : Holds s q l) (hl : Proper l (leBytes 4 nsperiod)) :
    parseSettck s q = .fill := by
  have he := hh.ends
  have hce := s.cend_le hh.fits
  have := hl.length_lt
  rw [length_leBytes] at this
  unfold parseSettck
  rw [u64_of_lt (by omega), if_pos (by omega)]

/-- Three numbers and an operand, of as many bytes as the first and the third say, cut short. In both cases the end that
the code computes is behind what was received, and not behind where they end. -/
theorem operand_cut {x y z : Uleb} {operand : List UInt8} (bytes : Nat → Nat → Nat) (hh : Holds s q l)
    (hl : Proper l (Uleb.enc [x, y, z] ++ operand)) (hwhole : bytes x.value z.value = operand.length)
    (hpart : ∀ a c, c ≤ z.value → c = 0 ∨ a = x.value → bytes a c ≤ operand.length) :
    ∃ a b c e, getUleb128x3 s.mem q s.cend = (a, b, c, e) ∧ s.cend < e + bytes a c ∧
      e + bytes a c ≤ q + ((Uleb.enc [x, y, z]).length + operand.length) := by
  have he := hh.ends
  rcases hl.append_cases with hcut | ⟨l', rfl, hcut⟩
  · obtain ⟨a, b, c, e, hv, h1, h2, h3, h4⟩ := getUleb128x3_cut hh hcut
    have hle := hpart a c h3 h4
    exact ⟨a, b, c, e, hv, by omega, by omega⟩
  · have hlt := hcut.length_lt
    rw [List.length_append] at he
    exact ⟨_, _, _, _, getUleb128x3_whole hh, by omega, by omega⟩

include hc in
theorem parseRshift_cut (instruction : Bool) {flags state count : Uleb} {tdi : List UInt8}
    (ht : tdi.length = if u32 flags.value &&& 3 = 0 then (count.value + 7) / 8 else 0)
    (hh : Holds s q l) (hl : Proper l (Uleb.enc [flags, state, count] ++ tdi))
    (hmax : q - cbuf + (Uleb.enc [flags, state, count] ++ tdi).length ≤ s.rx.bufMax) :
    parseRshift s instruction cbuf q = .fill := by
  have he := hh.ends
  have hce := s.cend_le hh.fits
  have hun := s.rx.unsigned
  rw [List.length_append] at hmax
  have hpart : ∀ a c, c ≤ count.value → c = 0 ∨ a = flags.value → tdiBytes (u32 a) c ≤ tdi.length := by
    intro a c hle hcut
    unfold tdiBytes
    rcases hcut with rfl | rfl
    · -- The count is not there: nothing is counted.
      rw [show u64 (0 + 7) / 8 = 0 from rfl, ite_self]
      exact Nat.zero_le _
    · rw [ht]
      split
      · have : u64 (c + 7) ≤ c + 7 := Nat.mod_le _ _
        omega
      · exact Nat.le_refl 0
  have hwhole : tdiBytes (u32 flags.value) count.value = tdi.length := tdiBytes_of ht (by omega)
  obtain ⟨a, b, c, e, hv, hlt, hle⟩ := operand_cut (fun a c => tdiBytes (u32 a) c) hh hl hwhole hpart
  unfold parseRshift
  simp only [hv]
  rw [u64_of_lt (by omega), if_pos hlt, incomplete_eq_fill (by omega) (by omega)]

include hc in
theorem parseState_cut {flags state count : Uleb} (hh : Holds s q l)
    (hl : Proper l (Uleb.enc [flags, state, count]))
    (hmax : q - cbuf + (Uleb.enc [flags, state, count]).length ≤ s.rx.bufMax) :
    parseState s cbuf q = .fill := by
  have he := hh.ends
  obtain ⟨a, b, c, e, hv, h1, h2, -⟩ := getUleb128x3_cut hh hl
  unfold parseState
  simp only [hv]
  rw [if_pos h1, incomplete_eq_fill (by omega) (by omega)]

include hc in
theorem parseMrd_cut {flags addr numBytes : Uleb} (hh : Holds s q l)
    (hl : Proper l (Uleb.enc [flags, addr, numBytes]))
    (hmax : q - cbuf + (Uleb.enc [flags, addr, numBytes]).length ≤ s.rx.bufMax) :
    parseMrd s cbuf q = .fill := by
  have he := hh.ends
  obtain ⟨a, b, c, e, hv, h1, h2, -⟩ := getUleb128x3_cut hh hl
  unfold parseMrd
  simp only [hv]
  rw [if_pos h1, incomplete_eq_fill (by omega) (by omega)]

include hc in
theorem parseMwr_cut {flags addr numBytes : Uleb} {data : List UInt8}
    (hd : data.length = numBytes.value) (hh : Holds s q l)
    (hl : Proper l (Uleb.enc [flags, addr, numBytes] ++ data))
    (hmax : q - cbuf + (Uleb.enc [flags, addr, numBytes] ++ data).length ≤ s.rx.bufMax) :
    parseMwr s cbuf q = .fill := by
  have he := hh.ends
  have hce := s.cend_le hh.fits
  have hun := s.rx.unsigned
  rw [List.length_append] at hmax
  obtain ⟨a, b, c, e, hv, hlt, hle⟩ := operand_cut (fun _ c => c) hh hl hd.symm (fun _ _ hle _ => by omega)
  unfold parseMwr
  simp only [hv]
  rw [u64_of_lt (by omega), if_pos hlt, incomplete_eq_fill (by omega) (by omega)]

include hc in
/-- What has come of a message behind its `:` is not enough to execute it. -/
theorem parse_cut {m : Msg} (hw : m.WellFormed h s.rx) (hh : Holds s q l) (hl : Proper l m.body)
    (hmax : q - cbuf + m.body.length + m.slack ≤ s.rx.bufMax) :
    parse h s cbuf (m.name ++ [58]) q = .fill := by
  obtain ⟨hav, -⟩ := hw
  cases m with
  | getinfo => exact absurd hl not_proper_nil
  | capabilities => exact absurd hl not_proper_nil
  | configure len text ht => exact parse_configure.trans (parseConfigure_cut _ hc ht hh hl hmax)
  | error => exact absurd hl not_proper_nil
  | lock timeout =>
    rw [show (Msg.lock timeout).body = Uleb.enc [timeout] from List.append_nil _] at hl hmax
    exact parse_lock.trans (parseLock_cut hc hh hl hmax)
  | unlock => exact absurd hl not_proper_nil
  | shift bits tms tdi hbits htms htdi =>
    exact parse_shift.trans (parseShift_cut hc hbits htms htdi hh hl hmax)
  | settck nsperiod hp => exact parse_settck.trans (parseSettck_cut hh hl)
  | rshift instruction flags st count tdi ht =>
    have hp := parseRshift_cut hc instruction ht hh hl hmax
    cases instruction with
    | true => exact (parse_rshift hav (.inl rfl)).trans hp
    | false => exact (parse_rshift hav (.inr rfl)).trans hp
  | state flags st count =>
    rw [show (Msg.state flags st count).body = Uleb.enc [flags, st, count] from List.append_nil _] at hl hmax
    exact (parse_state hav).trans (parseState_cut hc hh hl hmax)
  | mrd flags addr numBytes =>
    rw [show (Msg.mrd flags addr numBytes).body = Uleb.enc [flags, addr, numBytes] from
      List.append_nil _] at hl hmax
    exact (parse_mrd hav).trans (parseMrd_cut hc hh hl hmax)
  | mwr flags addr numBytes data hd => exact (parse_mwr hav).trans (parseMwr_cut hc hd hh hl hmax)

end Cut

/-- **Truncation.** A proper prefix of a message only makes the loop ask for more bytes. -/
theorem iter_cut {m : Msg} (hw : m.WellFormed h s.rx) (hh : Holds s cbuf l) (hl : Proper l m.enc) :
    (dispatch h).iter s cbuf = .fill := by
  have hfits := hw.fits
  simp only [Msg.enc, List.length_append, List.length_singleton] at hfits
  exact Dispatch.iter_cut m.name_spec.1 m.name_spec.2 hh hl fun l' hd hcut =>
    parse_cut (show cbuf ≤ cbuf + (m.name.length + 1) by omega) hw hd hcut (by omega)

/-- A whole message is executed, unless it waits for the replies before it. -/
theorem iter_whole {m : Msg} (hw : m.WellFormed h s.rx) (hh : Holds s cbuf (m.enc ++ rest)) :
    let r := m.request (cbuf + (m.name.length + 1) + (Uleb.enc m.numbers).length)
    (dispatch h).iter s cbuf = if r.waitsForReplies ∧ 0 < s.replyLen then .stop
      else .reply (exec h s r) (cbuf + m.enc.length) :=
  Dispatch.iter_whole m.name_spec.1 m.name_spec.2 hh fun hd => parse_whole cbuf hw hd

end Versal
end Xvc
