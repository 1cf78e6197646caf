import Xvc.Server.Room
import Xvc.Versal.Contain
import Xvc.Versal.ReplyBound

/-!
# The assertions of `mem/versal`

A branch that finds its message incomplete asserts that the message fits the receive buffer, and waits.
The length is the client's, and where a field is missing the branch counts it as one byte behind the
received ones, so that a client fails the assertion. `no_assertion_fails` is the exact condition
(`MessageFits`): the end that the branch computes is at most `buf_max` behind the message's beginning.

A length of `2^63` or more passes the assertion, which is signed. Then the buffer fills up, and `recv` has
no room left.
-/

namespace Xvc
namespace Versal

open ByteMem

variable {σ : Type}

/-! ## The condition -/

/-- Where the branch takes the message with the header `hdr` to end; fields that are not there count as one
byte each. -/
def messageEnd (h : XvcServerHandlers σ) (s : Server σ) (hdr : List UInt8) (q : Nat) : Option Nat :=
  let v := getUleb128 s.mem q s.cend
  let v3 := getUleb128x3 s.mem q s.cend
  if hdr = ascii "configure:" then some (u64 (v.2 + u32 v.1))
  else if hdr = ascii "lock:" then some v.2
  else if hdr = ascii "shift:" then
    if s.cend < u64 (q + 4) then none
    else some (u64 (q + 4 + u32 (shiftBytes (getUintLe (slice s.mem q 4)) * 2)))
  else if (hdr = ascii "irshift:" ∨ hdr = ascii "drshift:") ∧ h.registerShift.isSome then
    some (u64 (v3.2.2.2 + tdiBytes (u32 v3.1) v3.2.2.1))
  else if hdr = ascii "state:" ∧ h.state.isSome then some v3.2.2.2
  else if hdr = ascii "mrd:" ∧ h.mrd.isSome then some v3.2.2.2
  else if hdr = ascii "mwr:" ∧ h.mwr.isSome then some (u64 (v3.2.2.2 + v3.2.2.1))
  else none

/-- The longest message; for `configure:` there is a byte behind it that is overwritten. -/
def longest (bufMax : Nat) (hdr : List UInt8) : Nat := if hdr = ascii "configure:" then bufMax - 1 else bufMax

/-- There is room for more bytes, if the loop ends at `cbuf`. -/
def roomAt (s : Server σ) (cbuf : Nat) : Prop := s.rx.buf < cbuf ∨ 1 ≤ s.room

/-- The message at `cbuf` fits the buffer as long as it is not complete, or is so long that it seems to end
before it begins and there is still room; and there is room when a `lock:` waits for replies. -/
def MessageFits (h : XvcServerHandlers σ) (s : Server σ) (cbuf : Nat) : Prop :=
  ∀ hdr q, scanHeader s cbuf = .header hdr q →
    (∀ pend, messageEnd h s hdr q = some pend → s.cend < pend →
      pend ≤ cbuf + longest s.rx.bufMax hdr ∨ (cbuf + 2 ^ 63 ≤ pend ∧ roomAt s cbuf)) ∧
    (hdr = ascii "lock:" → (getUleb128 s.mem q s.cend).2 ≤ s.cend → 0 < s.replyLen → roomAt s cbuf)

/-! ## The first half of a branch -/

variable {h : XvcServerHandlers σ} {s : Server σ} {cbuf q : Nat} {hdr : List UInt8}

/-- What a branch finds, for a message that ends at `pend`, as far as that is known. -/
inductive ParseSpec (s : Server σ) (cbuf : Nat) (hdr : List UInt8) (q : Nat) (pend : Option Nat) :
    Parsed Request → Prop
  | bad (hp : pend = none) (hl : hdr ≠ ascii "lock:") : ParseSpec s cbuf hdr q pend .bad
  /-- A field of fixed length is not there. -/
  | short (hp : pend = none) (hl : hdr ≠ ascii "lock:") (hs : s.cend < q + 4) : ParseSpec s cbuf hdr q pend .fill
  | fits (e : Nat) (hp : pend = some e) (hs : s.cend < e) (hf : ptrDiff e cbuf ≤ longest s.rx.bufMax hdr) :
      ParseSpec s cbuf hdr q pend .fill
  | abort (e : Nat) (hp : pend = some e) (hs : s.cend < e) (hf : ¬ ptrDiff e cbuf ≤ longest s.rx.bufMax hdr) :
      ParseSpec s cbuf hdr q pend .abort
  | complete (r : Request) (p : Nat) (hp : ∀ e, pend = some e → e ≤ s.cend) (hs : p ≤ s.cend)
      (hl : r.waitsForReplies = true ↔ hdr = ascii "lock:") : ParseSpec s cbuf hdr q pend (.msg r p)

/-- A branch that ends with the completeness check. -/
theorem ParseSpec.check {e : Nat} {r : Request} (hmax : longest s.rx.bufMax hdr = s.rx.bufMax)
    (hl : r.waitsForReplies = true ↔ hdr = ascii "lock:") :
    ParseSpec s cbuf hdr q (some e) (if s.cend < e then incomplete s cbuf e else .msg r e) := by
  unfold incomplete
  by_cases hlt : s.cend < e
  · rw [if_pos hlt]
    by_cases hf : ptrDiff e cbuf ≤ s.rx.bufMax
    · rw [if_pos hf]
      exact .fits e rfl hlt (by rw [hmax]; exact hf)
    · rw [if_neg hf]
      exact .abort e rfl hlt (by rw [hmax]; exact hf)
  · rw [if_neg hlt]
    exact .complete r e (fun e' he => by cases he; omega) (by omega) hl

/-- A message that is its header. -/
theorem ParseSpec.header {r : Request} (hq : q ≤ s.cend) (hl : r.waitsForReplies = true ↔ hdr = ascii "lock:") :
    ParseSpec s cbuf hdr q none (.msg r q) := .complete r q nofun hq hl

theorem parseConfigure_spec (hpos : 0 < s.rx.bufMax) :
    ParseSpec s cbuf (ascii "configure:") q (messageEnd h s (ascii "configure:") q)
      (parseConfigure Request.configure s cbuf q) := by
  have hend : messageEnd h s (ascii "configure:") q =
      some (u64 ((getUleb128 s.mem q s.cend).2 + u32 (getUleb128 s.mem q s.cend).1)) := rfl
  have hmax : longest s.rx.bufMax (ascii "configure:") = s.rx.bufMax - 1 := rfl
  rw [hend]
  unfold parseConfigure
  simp only
  generalize u64 ((getUleb128 s.mem q s.cend).2 + u32 (getUleb128 s.mem q s.cend).1) = e
  by_cases hlt : s.cend < e
  · rw [if_pos hlt]
    by_cases hf : ptrDiff e cbuf < s.rx.bufMax
    · rw [if_pos hf]
      exact .fits e rfl hlt (by rw [hmax]; omega)
    · rw [if_neg hf]
      exact .abort e rfl hlt (by rw [hmax]; omega)
  · rw [if_neg hlt]
    exact .complete _ e (fun e' he => by cases he; omega) (by omega)
      ⟨nofun, fun he => absurd he (by decide)⟩

/-- Every branch. -/
theorem parse_spec (hlen : s.bufLen ≤ s.rx.bufMax) (hpos : 0 < s.rx.bufMax) (hq : q ≤ s.cend) :
    ParseSpec s cbuf hdr q (messageEnd h s hdr q) (parse h s cbuf hdr q) := by
  have hce := s.cend_le hlen
  have h4 : u64 (q + 4) = q + 4 := u64_of_lt (by omega)
  unfold parse
  by_cases hh : hdr = ascii "getinfo:"
  · rw [if_pos hh, hh]; exact .header hq (by decide)
  rw [if_neg hh]
  clear hh
  by_cases hh : hdr = ascii "capabilities:"
  · rw [if_pos hh, hh]; exact .header hq (by decide)
  rw [if_neg hh]
  clear hh
  by_cases hconf : hdr = ascii "configure:"
  · rw [if_pos hconf, hconf]; exact parseConfigure_spec hpos
  rw [if_neg hconf]
  have hmax : longest s.rx.bufMax hdr = s.rx.bufMax := if_neg hconf
  by_cases hh : hdr = ascii "error:"
  · rw [if_pos hh, hh]; exact .header hq (by decide)
  rw [if_neg hh]
  clear hh
  by_cases hlock : hdr = ascii "lock:"
  · have hend : messageEnd h s hdr q = some (getUleb128 s.mem q s.cend).2 := by rw [hlock]; rfl
    rw [if_pos hlock, hend]
    exact .check hmax (by simp [hlock, Request.waitsForReplies])
  rw [if_neg hlock]
  by_cases hh : hdr = ascii "unlock:"
  · rw [if_pos hh, hh]; exact .header hq (by decide)
  rw [if_neg hh]
  clear hh
  by_cases hshift : hdr = ascii "shift:"
  · rw [if_pos hshift]
    unfold messageEnd parseShift
    simp only [if_neg hconf, if_neg hlock, if_pos hshift, h4]
    by_cases hfour : s.cend < q + 4
    · rw [if_pos hfour, if_pos hfour]
      exact .short rfl hlock hfour
    · rw [if_neg hfour, if_neg hfour]
      exact .check hmax (by simp [hlock, Request.waitsForReplies])
  rw [if_neg hshift]
  have hnot : ∀ r : Request, r.waitsForReplies = false → (r.waitsForReplies = true ↔ hdr = ascii "lock:") :=
    fun r hr => by simp [hr, hlock]
  by_cases hh : hdr = ascii "settck:"
  · have hend : messageEnd h s hdr q = none := by rw [hh]; rfl
    rw [if_pos hh, hend]
    unfold parseSettck
    rw [h4]
    by_cases hfour : s.cend < q + 4
    · rw [if_pos hfour]
      exact .short rfl hlock hfour
    · rw [if_neg hfour]
      exact .complete _ _ nofun (by omega) (hnot _ rfl)
  rw [if_neg hh]
  clear hh
  unfold messageEnd
  simp only [if_neg hconf, if_neg hlock, if_neg hshift]
  by_cases hh : (hdr = ascii "irshift:" ∨ hdr = ascii "drshift:") ∧ h.registerShift.isSome
  · rw [if_pos hh, if_pos hh]; exact .check hmax (hnot _ rfl)
  rw [if_neg hh, if_neg hh]
  clear hh
  by_cases hh : hdr = ascii "state:" ∧ h.state.isSome
  · rw [if_pos hh, if_pos hh]; exact .check hmax (hnot _ rfl)
  rw [if_neg hh, if_neg hh]
  clear hh
  by_cases hh : hdr = ascii "mrd:" ∧ h.mrd.isSome
  · rw [if_pos hh, if_pos hh]; exact .check hmax (hnot _ rfl)
  rw [if_neg hh, if_neg hh]
  clear hh
  by_cases hh : hdr = ascii "mwr:" ∧ h.mwr.isSome
  · rw [if_pos hh, if_pos hh]; exact .check hmax (hnot _ rfl)
  rw [if_neg hh, if_neg hh]
  exact .bad rfl hlock

/-- The assertion, which compares signed. -/
theorem ptrDiff_le_iff {e n : Nat} (hc : cbuf ≤ s.cend) (he : s.cend < e) (hlt : e < 2 ^ 64) (hn : n < 2 ^ 63) :
    ptrDiff e cbuf ≤ n ↔ e ≤ cbuf + n ∨ cbuf + 2 ^ 63 ≤ e := by
  have hd : u64 (e + 2 ^ 64 - cbuf) = e - cbuf := by unfold u64; omega
  unfold ptrDiff
  simp only [hd]
  split <;> omega

theorem messageEnd_lt {e : Nat} (hlen : s.bufLen ≤ s.rx.bufMax) (hq : q ≤ s.cend)
    (he : messageEnd h s hdr q = some e) : e < 2 ^ 64 := by
  have hce := s.cend_le hlen
  have hcur := getUleb128_cursor s.mem q s.cend
  have hcur3 := getUleb128x3_cursor s.mem hq
  have hu : ∀ n, u64 n < 2 ^ 64 := fun n => Nat.mod_lt n (by decide)
  unfold messageEnd at he
  simp only at he
  split at he
  · cases he; exact hu _
  split at he
  · cases he; omega
  split at he
  · split at he
    · cases he
    · cases he; exact hu _
  split at he
  · cases he; exact hu _
  split at he
  · cases he; omega
  split at he
  · cases he; omega
  split at he
  · cases he; exact hu _
  · cases he

/-! ## An iteration -/

/-- A header is at most 30 bytes long. -/
theorem scanHeader_length (hscan : scanHeader s cbuf = .header hdr q) : q ≤ cbuf + 30 := by
  unfold scanHeader at hscan
  simp only at hscan
  generalize he : (if cbuf + 30 < s.cend then cbuf + 30 else s.cend) = e at hscan
  split at hscan
  · split at hscan <;> cases hscan
  · next hlt =>
    obtain ⟨-, rfl⟩ := Scan.header.inj hscan
    have hle : e ≤ cbuf + 30 := by rw [← he]; split <;> omega
    omega

/-- Without a header fewer than 30 bytes have been received. -/
theorem scanHeader_fill (hscan : scanHeader s cbuf = .fill) : s.cend < cbuf + 30 := by
  unfold scanHeader at hscan
  simp only at hscan
  generalize he : (if cbuf + 30 < s.cend then cbuf + 30 else s.cend) = e at hscan
  have hb := scanColon_bounds s.mem (e - cbuf) cbuf
  split at hscan
  · next hend =>
    split at hscan
    · cases hscan
    · by_contra hge
      have h30 : cbuf + 30 ≤ e := by rw [← he]; split <;> omega
      omega
  · cases hscan

theorem roomAt_of_lt (hend : s.cend < cbuf + s.rx.bufMax) : roomAt s cbuf := by
  unfold roomAt Server.room
  unfold Server.cend at hend
  omega

/-- **One iteration**: no assertion fails and `recv` gets some room, exactly when the message fits. -/
theorem advance_safe_iff {rx : RxBuffer} {c : Conn σ} (hmax : rx.bufMax = maxPacketLen) (hw : c.Within rx)
    (hp : c.phase = .parse cbuf) (snd : Nat → Int) :
    (Conn.advance (protocol h) snd c).Within rx ∧
      ((Conn.advance (protocol h) snd c).Safe ↔ MessageFits h c.s cbuf) := by
  obtain ⟨hrx, hlen, hcur⟩ := hw
  have hc := hcur cbuf hp
  have hroomy : 34 ≤ c.s.rx.bufMax := by rw [hrx, hmax]; decide
  have hlen' : c.s.bufLen ≤ c.s.rx.bufMax := by rw [hrx]; exact hlen
  have hfinish := fun fill => Conn.finish_safe_iff (P := protocol h) snd fill hrx hlen hc
  have hroom : (rx.buf < cbuf ∨ 1 ≤ c.s.room) = roomAt c.s cbuf := by rw [← hrx]; rfl
  rw [hroom] at hfinish
  have herror : (⟨.error, c.s⟩ : Conn σ).Within rx ∧ (⟨.error, c.s⟩ : Conn σ).Safe :=
    ⟨Conn.within_of_not_parse nofun hrx hlen, nofun, nofun⟩
  rw [Conn.advance_parse hp]
  simp only [protocol, Dispatch.iter]
  cases hscan : scanHeader c.s cbuf with
  | fill =>
    obtain ⟨hwithin, hsafe⟩ := hfinish true
    have hroomy' : roomAt c.s cbuf := roomAt_of_lt (by have := scanHeader_fill hscan; omega)
    refine ⟨hwithin, hsafe.trans (iff_of_true hroomy' fun hdr q hh => ?_)⟩
    rw [hscan] at hh
    cases hh
  | bad =>
    refine ⟨herror.1, iff_of_true herror.2 fun hdr q hh => ?_⟩
    rw [hscan] at hh
    cases hh
  | header hdr q =>
    obtain ⟨hq, hqe⟩ := scanHeader_bounds hscan
    have hq30 := scanHeader_length hscan
    have hfits : MessageFits h c.s cbuf ↔
        (∀ pend, messageEnd h c.s hdr q = some pend → c.s.cend < pend →
          pend ≤ cbuf + longest c.s.rx.bufMax hdr ∨ (cbuf + 2 ^ 63 ≤ pend ∧ roomAt c.s cbuf)) ∧
        (hdr = ascii "lock:" → (getUleb128 c.s.mem q c.s.cend).2 ≤ c.s.cend → 0 < c.s.replyLen → roomAt c.s cbuf) := by
      refine ⟨fun hm => hm hdr q hscan, fun hm hdr' q' hh => ?_⟩
      rw [hscan] at hh
      cases hh
      exact hm
    have hspec : ParseSpec c.s cbuf hdr q (messageEnd h c.s hdr q) ((dispatch h).parse c.s cbuf hdr q) :=
      parse_spec hlen' (by omega) hqe
    have hend : ∀ e, messageEnd h c.s hdr q = some e → e < 2 ^ 64 := fun e he => messageEnd_lt hlen' hqe he
    rw [hfits]
    simp only
    generalize (dispatch h).parse c.s cbuf hdr q = x at hspec
    have hlongest : longest c.s.rx.bufMax hdr ≤ c.s.rx.bufMax := by unfold longest; split <;> omega
    have hsigned : ∀ e, messageEnd h c.s hdr q = some e → c.s.cend < e →
        (ptrDiff e cbuf ≤ longest c.s.rx.bufMax hdr ↔
          e ≤ cbuf + longest c.s.rx.bufMax hdr ∨ cbuf + 2 ^ 63 ≤ e) := fun e he hs => by
      have hun := c.s.rx.unsigned
      exact ptrDiff_le_iff hc hs (hend e he) (by omega)
    cases hspec with
    | bad hnone hl =>
      refine ⟨herror.1, iff_of_true herror.2 ⟨fun e he => ?_, fun hh => absurd hh hl⟩⟩
      rw [hnone] at he
      cases he
    | short hnone hl hs =>
      obtain ⟨hwithin, hsafe⟩ := hfinish true
      refine ⟨hwithin, hsafe.trans (iff_of_true (roomAt_of_lt (by omega)) ⟨fun e he => ?_, fun hh => absurd hh hl⟩)⟩
      rw [hnone] at he
      cases he
    | fits e he hs hf =>
      obtain ⟨hwithin, hsafe⟩ := hfinish true
      refine ⟨hwithin, hsafe.trans ⟨fun hr => ⟨fun e' he' hs' => ?_, fun _ _ _ => hr⟩, fun hm => ?_⟩⟩
      · cases he.symm.trans he'
        exact ((hsigned e he hs).mp hf).imp id fun hbig => ⟨hbig, hr⟩
      · rcases hm.1 e he hs with hle | ⟨-, hr⟩
        · exact roomAt_of_lt (by omega)
        · exact hr
    | abort e he hs hf =>
      refine ⟨Conn.within_of_not_parse nofun hrx hlen, iff_of_false (fun hsafe => hsafe.1 rfl) fun hm => ?_⟩
      exact hf ((hsigned e he hs).mpr ((hm.1 e he hs).imp id And.left))
    | complete r p hcomplete hs hl =>
      have hfirst : ∀ pend, messageEnd h c.s hdr q = some pend → c.s.cend < pend →
          pend ≤ cbuf + longest c.s.rx.bufMax hdr ∨ (cbuf + 2 ^ 63 ≤ pend ∧ roomAt c.s cbuf) := fun e he hlt => by
        have := hcomplete e he
        omega
      simp only
      by_cases hwait : (dispatch h).waitsForReplies r = true ∧ 0 < c.s.replyLen
      · -- A `lock:` waits until the replies have been sent.
        rw [if_pos hwait]
        obtain ⟨hwithin, hsafe⟩ := hfinish false
        have hlock := hl.mp hwait.1
        have hulebs : (getUleb128 c.s.mem q c.s.cend).2 ≤ c.s.cend := hcomplete _ (by rw [hlock]; rfl)
        exact ⟨hwithin, hsafe.trans ⟨fun hr => ⟨hfirst, fun _ _ _ => hr⟩, fun hm => hm.2 hlock hulebs hwait.2⟩⟩
      · rw [if_neg hwait]
        obtain ⟨hkrx, hklen⟩ := keepsBuffer h c.s r
        refine ⟨⟨hkrx.trans hrx, hklen.trans_le hlen, fun cbuf' hp' => ?_⟩,
          iff_of_true ⟨nofun, nofun⟩ ⟨hfirst, fun hh _ hpend => absurd ⟨hl.mpr hh, hpend⟩ hwait⟩⟩
        cases hp'
        show p ≤ ((dispatch h).exec c.s r).rx.buf + ((dispatch h).exec c.s r).bufLen
        rw [hkrx, hklen]
        exact hs

/-! ## Runs -/

/-- The message that the loop is about to look at fits the buffer. -/
def Fits (h : XvcServerHandlers σ) (c : Conn σ) : Prop := ∀ cbuf, c.phase = .parse cbuf → MessageFits h c.s cbuf

/-- **No assertion fails.** In every run of a connection, with any handlers, any bytes in any chunks and any
results of `send`, whose messages fit the receive buffer: no assertion fails and `recv` is always called with
some room. At each iteration that is exact: it leads to a failed assertion or to a `recv` without room if and
only if its message does not fit. -/
theorem no_assertion_fails (h : XvcServerHandlers σ) (rx : RxBuffer) (hmax : rx.bufMax = maxPacketLen) (data : σ)
    (mem replyBuf : ByteMem) (c : Conn σ)
    (hrun : Relation.ReflTransGen (Machine.Guarded (Conn.Step (protocol h)) (Fits h))
      (Conn.start rx data mem replyBuf) c) :
    c.Safe ∧ ∀ cbuf snd, c.phase = .parse cbuf →
      ((Conn.advance (protocol h) snd c).Safe ↔ MessageFits h c.s cbuf) := by
  have keep : ∀ c d : Conn σ, Conn.Step (protocol h) c d → Fits h c → c.Within rx ∧ c.Safe → d.Within rx ∧ d.Safe := by
    rintro c d hstep hfits ⟨hw, -⟩
    cases hstep with
    | @advance cbuf snd hp =>
      obtain ⟨hwithin, hsafe⟩ := advance_safe_iff hmax hw hp snd
      exact ⟨hwithin, hsafe.mpr (hfits cbuf hp)⟩
    | recv hp hne hfit => exact hw.step_recv (P := protocol h) (.recv hp hne hfit) hp
    | closed hp => exact hw.step_recv (P := protocol h) (.closed hp) hp
    | failed hp => exact hw.step_recv (P := protocol h) (.failed hp) hp
  have hstart : (Conn.start rx data mem replyBuf).Within rx ∧ (Conn.start rx data mem replyBuf).Safe :=
    ⟨Conn.within_readMore rfl (Nat.zero_le _), nofun, nofun⟩
  obtain ⟨hw, hsafe⟩ := Machine.Guarded.invariant keep hstart hrun
  exact ⟨hsafe, fun cbuf snd hp => (advance_safe_iff hmax hw hp snd).2⟩

/-- An `mwr:` of four bytes, of which two have come. -/
def cutMwr : List UInt8 := ascii "mwr:" ++ [0, 0, 4] ++ [1, 2]

/-- A message that is cut is looked at, with the assertion on its length, and waits for the rest. -/
theorem no_assertion_fails_cut :
    (afterFirst cutMwr).phase = .recv ∧ (afterFirst cutMwr).s.bufLen = cutMwr.length ∧ (afterFirst cutMwr).Safe ∧
    ∀ cbuf snd, (afterFirst cutMwr).phase = .parse cbuf →
      ((Conn.advance (protocol (handlers defaultHub)) snd (afterFirst cutMwr)).Safe ↔
        MessageFits (handlers defaultHub) (afterFirst cutMwr).s cbuf) := by
  have hrecv : Conn.Step (protocol (handlers defaultHub)) firstRecv (firstRecv.receive cutMwr) :=
    .recv rfl (by decide) (by decide)
  refine ⟨by decide, by decide,
    no_assertion_fails (handlers defaultHub) (Server.loaded zeroHub []).rx rfl zeroHub zeroHub zeroHub _
      (.tail (.tail (.tail .refl ⟨firstRecv_step, ?_⟩) ⟨hrecv, ?_⟩) ⟨afterFirst_step _, ?_⟩)⟩
  · -- Nothing has been received.
    rintro cbuf hp hdr q hscan
    cases hp
    have hnothing : Holds (Conn.start (Server.loaded zeroHub []).rx zeroHub zeroHub zeroHub).s 0x1000 [] :=
      ⟨rfl, rfl, Nat.zero_le _⟩
    cases (scanHeader_short hnothing (by simp) (by simp)).symm.trans hscan
  · rintro cbuf hp
    cases hp
  · -- The message ends two bytes behind what has come.
    rintro cbuf hp hdr q hscan
    cases hp
    have hs : scanHeader (firstRecv.receive cutMwr).s 0x1000 = .header (ascii "mwr:") 0x1004 := rfl
    cases hs.symm.trans hscan
    have hend : messageEnd (handlers defaultHub) (firstRecv.receive cutMwr).s (ascii "mwr:") 0x1004 = some 0x100b := rfl
    refine ⟨fun pend he _ => .inl ?_, fun hlock => absurd hlock (by decide)⟩
    cases hend.symm.trans he
    decide

/-- An `mwr:` of 20000 bytes, of which nothing has come yet. -/
def longMwr : List UInt8 := ascii "mwr:" ++ [0, 0] ++ Leb128.encode 10 20000

theorem afterFirst_longMwr : (afterFirst longMwr).phase = .aborted := by decide

theorem assertion_fails :
    ¬ ∀ (h : XvcServerHandlers ByteMem) (rx : RxBuffer), rx.bufMax = maxPacketLen →
      ∀ (data : ByteMem) (mem replyBuf : ByteMem) (c : Conn ByteMem),
        Relation.ReflTransGen (Conn.Step (protocol h)) (Conn.start rx data mem replyBuf) c → c.Safe := by
  intro hall
  have hrecv : Conn.Step (protocol (handlers defaultHub)) firstRecv (firstRecv.receive longMwr) :=
    .recv rfl (by decide) (by decide)
  have hrun := Relation.ReflTransGen.tail (.tail (.tail .refl firstRecv_step) hrecv) (afterFirst_step longMwr)
  exact (hall (handlers defaultHub) _ rfl _ _ _ _ hrun).1 afterFirst_longMwr

end Versal
end Xvc
