import Xvc.Dpc.Contain
import Xvc.Server.Common
import Xvc.Server.Framing

/-!
# The messages of `dpc` on the wire

The counterpart of `Xvc/Versal/Message.lean`: `Msg` has a value for each well-formed message of this
server. `iter_cut` and `iter_whole` are an iteration of the loop at a message.
-/

namespace Xvc
namespace Dpc

open ByteMem Stream

/-- A well-formed message. -/
inductive Msg where
  | getinfo
  | capabilities
  | configure (len : Uleb) (text : List UInt8) (h : text.length = len.value)
  | error
  | edpc (flags : Uleb)
  | idpc (flags numWords : Uleb) (data : List UInt8) (h : data.length = numWords.value * 4)

namespace Msg

/-- The name of the message, without its `:`. -/
def name : Msg → List UInt8
  | getinfo => ascii "getinfo"
  | capabilities => ascii "capabilities"
  | configure _ _ _ => ascii "configure"
  | error => ascii "error"
  | edpc _ => ascii "edpc"
  | idpc _ _ _ _ => ascii "idpc"

/-- The numbers behind the `:`. -/
def numbers : Msg → List Uleb
  | getinfo | capabilities | error => []
  | configure len _ _ => [len]
  | edpc flags => [flags]
  | idpc flags numWords _ _ => [flags, numWords]

/-- The bytes behind the numbers. -/
def payload : Msg → List UInt8
  | getinfo | capabilities | error | edpc _ => []
  | configure _ text _ => text
  | idpc _ _ data _ => data

/-- What follows the `:`. -/
def body (m : Msg) : List UInt8 := Uleb.enc m.numbers ++ m.payload

/-- The bytes of the message. -/
def enc (m : Msg) : List UInt8 := m.name ++ [58] ++ m.body

/-- The decoded message, when the bytes behind its numbers are at `p`. -/
def request (p : Nat) : Msg → Request
  | getinfo => .getinfo
  | capabilities => .capabilities
  | configure len _ _ => .configure len.value p
  | error => .error
  | edpc flags => .edpc (u32 flags.value)
  | idpc flags numWords _ _ => .idpc (u32 flags.value) numWords.value p

/-- The server has the handler that the message needs. -/
def Available {σ : Type} (h : XvcServerHandlers σ) : Msg → Prop
  | edpc _ => h.edpc.isSome
  | idpc _ _ _ _ => h.idpc.isSome
  | _ => True

/-- The room that has to be left: `configure:` asserts that its end lies before the buffer's. -/
def slack : Msg → Nat
  | configure _ _ _ => 1
  | _ => 0

/-- The message can be sent to the server: its handler is there, and it fits the receive buffer. -/
structure WellFormed {σ : Type} (h : XvcServerHandlers σ) (rx : RxBuffer) (m : Msg) : Prop where
  available : m.Available h
  fits : m.enc.length + m.slack ≤ rx.bufMax

theorem name_spec (m : Msg) : 58 ∉ m.name ∧ m.name.length < 30 := by
  cases m <;> (dsimp only [name]; decide)

theorem enc_ne_nil (m : Msg) : m.enc ≠ [] := by simp [enc]

end Msg

variable {σ : Type} {h : XvcServerHandlers σ} {s : Server σ} {cbuf q : Nat} {l rest : List UInt8}

/-- A message that fits the receive buffer is short. -/
theorem Msg.WellFormed.length_payload_lt {rx : RxBuffer} {m : Msg} (hw : m.WellFormed h rx) :
    m.payload.length < 2 ^ 32 := by
  have h1 := hw.fits
  have h2 := rx.unsigned
  simp only [Msg.enc, Msg.body, List.length_append] at h1
  omega

/-! ## Whole messages -/

theorem parseEdpc_whole {flags : Uleb} (hh : Holds s q (Uleb.enc [flags] ++ rest)) :
    parseEdpc s cbuf q = .msg (.edpc (u32 flags.value)) (q + (Uleb.enc [flags]).length) := by
  have he := hh.le_cend
  simp only [Uleb.enc, List.map_cons, List.map_nil, List.flatten_cons, List.flatten_nil,
    List.append_nil] at *
  have hv := getUleb128_whole hh
  unfold parseEdpc
  simp only [hv]
  rw [if_neg (by omega)]

/-- Two numbers that are there. -/
theorem getUleb128x2_whole {a b : Uleb} (hh : Holds s q (Uleb.enc [a, b] ++ rest)) :
    getUleb128 s.mem q s.cend = (a.value, q + a.bytes.length) ∧
      getUleb128 s.mem (q + a.bytes.length) s.cend = (b.value, q + (Uleb.enc [a, b]).length) := by
  have hab : Uleb.enc [a, b] = a.bytes ++ b.bytes := by simp [Uleb.enc]
  rw [hab, List.append_assoc] at hh
  have hb := getUleb128_whole hh.drop
  rw [Nat.add_assoc] at hb
  exact ⟨getUleb128_whole hh, by rw [hb, hab, List.length_append]⟩

theorem parseIdpc_whole (cbuf : Nat) {flags numWords : Uleb} {data : List UInt8}
    (hd : data.length = numWords.value * 4) (hmax : data.length < 2 ^ 32)
    (hh : Holds s q (Uleb.enc [flags, numWords] ++ data ++ rest)) :
    parseIdpc s cbuf q = .msg (.idpc (u32 flags.value) numWords.value (q + (Uleb.enc [flags, numWords]).length))
      (q + (Uleb.enc [flags, numWords] ++ data).length) := by
  have he := hh.le_cend
  have hce := s.cend_le hh.fits
  rw [List.append_assoc] at hh
  obtain ⟨hv, hw⟩ := getUleb128x2_whole hh
  rw [List.length_append] at he ⊢
  unfold parseIdpc
  simp only [hv, hw, ← hd]
  rw [u64_of_lt (n := data.length) (by omega), u64_of_lt (by omega), if_neg (by omega), Nat.add_assoc]

/-- **Decoding.** A whole message, whatever follows it, is decoded as what it says. -/
theorem parse_complete (cbuf : Nat) {m : Msg} (hav : m.Available h) (hlen : m.payload.length < 2 ^ 32)
    (hh : Holds s q (m.body ++ rest)) :
    parse h s cbuf (m.name ++ [58]) q = .msg (m.request (q + (Uleb.enc m.numbers).length))
      (q + m.body.length) := by
  cases m with
  | getinfo => rfl
  | capabilities => rfl
  | configure len text ht => exact parse_configure.trans (parseConfigure_whole _ ht hlen hh)
  | error => rfl
  | edpc flags =>
    have hb : (Msg.edpc flags).body = Uleb.enc [flags] := List.append_nil _
    rw [hb] at hh ⊢
    exact (parse_edpc hav).trans (parseEdpc_whole hh)
  | idpc flags numWords data hd =>
    exact (parse_idpc hav).trans (parseIdpc_whole cbuf hd hlen hh)

/-! ## Messages that are cut short -/

theorem parseEdpc_cut {flags : Uleb} (hc : cbuf ≤ q) (hh : Holds s q l) (hl : Proper l (Uleb.enc [flags]))
    (hmax : q - cbuf + (Uleb.enc [flags]).length ≤ s.rx.bufMax) : parseEdpc s cbuf q = .fill := by
  have he := hh.ends
  rw [show Uleb.enc [flags] = flags.bytes by simp [Uleb.enc]] at *
  obtain ⟨v, e, x, hv, h1, h2, -⟩ := getUleb128_cut hh hl
  unfold parseEdpc
  simp only [hv]
  rw [if_pos h1, incomplete_eq_fill (by omega) (by omega)]

/-- Two numbers that are cut short: the second is not more than it should be. -/
theorem getUleb128x2_cut {a b : Uleb} (hh : Holds s q l) (hl : Proper l (Uleb.enc [a, b])) :
    ∃ a' e' b' e, getUleb128 s.mem q s.cend = (a', e') ∧ getUleb128 s.mem e' s.cend = (b', e) ∧
      s.cend < e ∧ e ≤ q + (Uleb.enc [a, b]).length ∧ b' ≤ b.value := by
  obtain ⟨vs, e, hg, h1, h2, hcut⟩ := getUlebs_cut hh hl
  obtain ⟨rfl, rfl⟩ := Prod.mk.inj hg
  refine ⟨(getUleb128 s.mem q s.cend).1, (getUleb128 s.mem q s.cend).2, (getUleb128 s.mem _ s.cend).1,
    (getUleb128 s.mem _ s.cend).2, rfl, rfl, h1, h2, ?_⟩
  simp only [List.map_cons, List.map_nil] at hcut
  rcases hcut.cons_cases with ⟨x, y, -, hv⟩ | ⟨us, hv, hcut₂⟩
  · -- Cut in the first: the second is not there.
    have h0 : (getUleb128 s.mem (getUleb128 s.mem q s.cend).2 s.cend).1 = 0 := congrArg (·.getD 1 0) hv
    omega
  rcases hcut₂.cons_cases with ⟨x, y, hb, rfl⟩ | ⟨us', -, hcut₃⟩
  · have h1 : (getUleb128 s.mem (getUleb128 s.mem q s.cend).2 s.cend).1 = x := congrArg (·.getD 1 0) hv
    rw [h1, hb]
    exact Nat.left_le_or
  · exact absurd hcut₃ Leb128.not_cut_nil

theorem parseIdpc_cut {flags numWords : Uleb} {data : List UInt8} (hc : cbuf ≤ q)
    (hd : data.length = numWords.value * 4) (hh : Holds s q l)
    (hl : Proper l (Uleb.enc [flags, numWords] ++ data))
    (hmax : q - cbuf + (Uleb.enc [flags, numWords] ++ data).length ≤ s.rx.bufMax) :
    parseIdpc s cbuf q = .fill := by
  have he := hh.ends
  have hce := s.cend_le hh.fits
  have hun := s.rx.unsigned
  rw [List.length_append] at hmax
  -- In both cases the end lies behind what was received, but not behind the message.
  obtain ⟨a, e', b, e, hv, hw, hlt, hle⟩ : ∃ a e' b e, getUleb128 s.mem q s.cend = (a, e') ∧
      getUleb128 s.mem e' s.cend = (b, e) ∧ s.cend < e + b * 4 ∧
      e + b * 4 ≤ q + ((Uleb.enc [flags, numWords]).length + data.length) := by
    rcases hl.append_cases with hcut | ⟨l', rfl, hcut⟩
    · obtain ⟨a, e', b, e, hv, hw, h1, h2, h3⟩ := getUleb128x2_cut hh hcut
      exact ⟨a, e', b, e, hv, hw, by omega, by omega⟩
    · have hlt := hcut.length_lt
      rw [List.length_append] at he
      obtain ⟨hv, hw⟩ := getUleb128x2_whole hh
      exact ⟨_, _, _, _, hv, hw, by omega, by omega⟩
  unfold parseIdpc
  simp only [hv, hw]
  rw [u64_of_lt (n := b * 4) (by omega), u64_of_lt (by omega), if_pos hlt,
    incomplete_eq_fill (by omega) (by omega)]

/-- What has come of a message behind its `:` is not enough to execute it. -/
theorem parse_cut {m : Msg} (hc : cbuf ≤ q) (hw : m.WellFormed h s.rx) (hh : Holds s q l) (hl : Proper l m.body)
    (hmax : q - cbuf + m.body.length + m.slack ≤ s.rx.bufMax) :
    parse h s cbuf (m.name ++ [58]) q = .fill := by
  obtain ⟨hav, -⟩ := hw
  cases m with
  | getinfo => exact absurd hl not_proper_nil
  | capabilities => exact absurd hl not_proper_nil
  | configure len text ht => exact parse_configure.trans (parseConfigure_cut _ hc ht hh hl hmax)
  | error => exact absurd hl not_proper_nil
  | edpc flags =>
    rw [show (Msg.edpc flags).body = Uleb.enc [flags] from List.append_nil _] at hl hmax
    exact (parse_edpc hav).trans (parseEdpc_cut hc hh hl hmax)
  | idpc flags numWords data hd => exact (parse_idpc hav).trans (parseIdpc_cut hc hd hh hl hmax)

/-- **Truncation.** A proper prefix of a message only makes the loop ask for more bytes. -/
theorem iter_cut {m : Msg} (hw : m.WellFormed h s.rx) (hh : Holds s cbuf l) (hl : Proper l m.enc) :
    (dispatch h).iter s cbuf = .fill := by
  have hfits := hw.fits
  simp only [Msg.enc, List.length_append, List.length_singleton] at hfits
  exact Dispatch.iter_cut m.name_spec.1 m.name_spec.2 hh hl fun l' hd hcut =>
    parse_cut (show cbuf ≤ cbuf + (m.name.length + 1) by omega) hw hd hcut (by omega)

/-- A whole message is executed. -/
theorem iter_complete {m : Msg} (hav : m.Available h) (hlen : m.payload.length < 2 ^ 32)
    (hh : Holds s cbuf (m.enc ++ rest)) :
    (dispatch h).iter s cbuf =
      .reply (exec h s (m.request (cbuf + (m.name.length + 1) + (Uleb.enc m.numbers).length)))
        (cbuf + m.enc.length) := by
  have hi := Dispatch.iter_whole (D := dispatch h) m.name_spec.1 m.name_spec.2 hh fun hd =>
    parse_complete cbuf hav hlen hd
  rw [if_neg (by simp [dispatch])] at hi
  exact hi

theorem iter_whole {m : Msg} (hw : m.WellFormed h s.rx) (hh : Holds s cbuf (m.enc ++ rest)) :
    (dispatch h).iter s cbuf =
      .reply (exec h s (m.request (cbuf + (m.name.length + 1) + (Uleb.enc m.numbers).length)))
        (cbuf + m.enc.length) :=
  iter_complete hw.available hw.length_payload_lt hh

end Dpc
end Xvc
