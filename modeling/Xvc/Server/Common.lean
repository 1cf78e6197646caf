import Xvc.Server.Decode
import Xvc.Server.View

/-!
# The messages that both servers have

`getinfo:`, `capabilities:`, `configure:` and `error:`: how `configure:` is decoded, and what each does
to a server's view. `Dispatch.iter_cut` and `Dispatch.iter_whole` are an iteration of the loop at a
message of either server, given what its first half decides.
-/

namespace Xvc

open ByteMem Stream

variable {σ R : Type} {D : Dispatch σ R} {s : Server σ} {cbuf p q : Nat} {name body l rest : List UInt8}

/-! ## One iteration -/

/-- Nothing has been received. -/
theorem Dispatch.iter_idle (hh : Holds s cbuf []) : D.iter s cbuf = .fill := by
  unfold Dispatch.iter
  rw [scanHeader_short hh (by simp) (by simp)]

/-- A message that is cut short, in its header or behind it. -/
theorem Dispatch.iter_cut (hname : 58 ∉ name) (hlen : name.length < 30) (hh : Holds s cbuf l)
    (hl : Proper l (name ++ [58] ++ body))
    (hcut : ∀ l', Holds s (cbuf + (name.length + 1)) l' → Proper l' body →
      D.parse s cbuf (name ++ [58]) (cbuf + (name.length + 1)) = .fill) : D.iter s cbuf = .fill := by
  unfold Dispatch.iter
  rcases hl.append_cases with hq | ⟨l', rfl, hq⟩
  · -- Cut in the header: the `:` is not there.
    have hpre : l <+: name := by
      rcases hq.append_cases with hn | ⟨l', rfl, hn⟩
      · exact hn.1
      · have := hn.length_lt
        rw [List.length_singleton] at this
        rw [List.length_eq_zero_iff.mp (show l'.length = 0 by omega), List.append_nil]
    rw [scanHeader_short hh (fun hm => hname (hpre.subset hm)) (Nat.lt_of_le_of_lt hpre.length_le hlen)]
  · have hd := hh.drop
    rw [List.length_append, List.length_singleton] at hd
    rw [scanHeader_of hh hname hlen]
    simp only [hcut l' hd hq]

/-- A whole message, which may wait for the replies before it. -/
theorem Dispatch.iter_whole {r : R} (hname : 58 ∉ name) (hlen : name.length < 30)
    (hh : Holds s cbuf (name ++ [58] ++ body ++ rest))
    (hparse : Holds s (cbuf + (name.length + 1)) (body ++ rest) →
      D.parse s cbuf (name ++ [58]) (cbuf + (name.length + 1)) = .msg r (cbuf + (name.length + 1) + body.length)) :
    D.iter s cbuf = if D.waitsForReplies r ∧ 0 < s.replyLen then .stop
      else .reply (D.exec s r) (cbuf + (name ++ [58] ++ body).length) := by
  rw [List.append_assoc] at hh
  have hd := hh.drop
  rw [List.length_append, List.length_singleton] at hd
  have hend : cbuf + (name ++ [58] ++ body).length = cbuf + (name.length + 1) + body.length := by
    simp only [List.length_append, List.length_singleton]; omega
  unfold Dispatch.iter
  rw [scanHeader_of hh hname hlen, hend]
  simp only [hparse hd]

/-! ## Decoding `configure:` -/

theorem parseConfigure_whole (mk : Nat → Nat → R) {len : Uleb} {text : List UInt8} (ht : text.length = len.value)
    (hmax : text.length < 2 ^ 32) (hh : Holds s q (Uleb.enc [len] ++ text ++ rest)) :
    parseConfigure mk s cbuf q =
      .msg (mk len.value (q + (Uleb.enc [len]).length))
        (q + (Uleb.enc [len] ++ text).length) := by
  have he := hh.le_cend
  have hce := s.cend_le hh.fits
  simp only [Uleb.enc, List.map_cons, List.map_nil, List.flatten_cons, List.flatten_nil,
    List.append_nil, List.length_append] at *
  have hh' : Holds s q (len.bytes ++ (text ++ rest)) := by simpa using hh
  have hv := getUleb128_whole hh'
  have hpend : u64 (q + len.bytes.length + u32 len.value) = q + (len.bytes.length + text.length) := by
    rw [u32_of_lt (by omega), ← ht, u64_of_lt (by omega), Nat.add_assoc]
  unfold parseConfigure
  simp only [hv, hpend]
  rw [if_neg (by omega)]

theorem parseConfigure_cut (mk : Nat → Nat → R) {len : Uleb} {text : List UInt8} (hc : cbuf ≤ q)
    (ht : text.length = len.value)
    (hh : Holds s q l) (hl : Proper l (Uleb.enc [len] ++ text))
    (hmax : q - cbuf + (Uleb.enc [len] ++ text).length < s.rx.bufMax) :
    parseConfigure mk s cbuf q = .fill := by
  have he := hh.ends
  have hce := s.cend_le hh.fits
  have hun := s.rx.unsigned
  have h1 : (Uleb.enc [len]) = len.bytes := by simp [Uleb.enc]
  rw [h1] at hl hmax
  rw [List.length_append] at hmax
  -- In both cases the end that the code computes lies behind what was received, but not behind the
  -- message.
  obtain ⟨v, e, hv, hlt, hle⟩ : ∃ v e, getUleb128 s.mem q s.cend = (v, e) ∧ s.cend < e + u32 v ∧
      e + u32 v ≤ q + (len.bytes.length + text.length) := by
    rcases hl.append_cases with hcut | ⟨l', rfl, hcut⟩
    · obtain ⟨v, e, x, hv, h1, h2, hx⟩ := getUleb128_cut hh hcut
      have hle : u32 v ≤ len.value := by
        rw [hx]; exact Nat.le_trans (Nat.mod_le v _) Nat.left_le_or
      exact ⟨v, e, hv, by omega, by omega⟩
    · have hlt := hcut.length_lt
      rw [List.length_append] at he
      refine ⟨_, _, getUleb128_whole hh, ?_⟩
      rw [u32_of_lt (by omega)]
      omega
  unfold parseConfigure
  simp only [hv]
  rw [u64_of_lt (by omega), if_pos hlt, ptrDiff_of_le (by omega) (by omega), if_pos (by omega)]

/-! ## Execution -/

/-- `error:`. -/
def handleError (bufMax : Nat) (a : Core σ) : Outcome (Core σ) :=
  let n := errorBytes bufMax a.c
  { core := { a with c := { a.c with pendingError := .none } }
    reply := Leb128.encode 10 n ++ a.c.pendingError.text.take n }

theorem view_execGetinfo (hfit : s.replyLen + (getinfoText s.rx.bufMax).length ≤ maxPacketLen) :
    (execGetinfo s).view = s.view.apply { core := s.view.core, reply := getinfoText s.rx.bufMax } := by
  have hmax := Server.maxPacketLen_lt
  rw [← View.reply_eq_apply]
  exact Server.view_commit [0] (by omega)

theorem view_execCapabilities {text : List UInt8}
    (hfit : s.replyLen + (Leb128.encode 10 text.length ++ text).length ≤ maxPacketLen) :
    (execCapabilities text s).view =
      s.view.apply { core := s.view.core, reply := Leb128.encode 10 text.length ++ text } := by
  rw [← View.reply_eq_apply]
  exact Server.view_replyUlebBytes hfit

theorem view_execConfigure {locking : Bool} {text : List UInt8} {declared : Nat}
    (hh : Holds s p (text ++ rest)) (hlen : text.length = declared) (hmax : text.length < 2 ^ 32)
    (hfit : s.replyLen + 1 ≤ maxPacketLen) :
    (execConfigure locking s declared p).view =
      s.view.apply (Outcome.withStatus { core := { s.view.core with c := applyConfig locking text s.c } }) := by
  have he := hh.le_cend
  have hce := s.cend_le hh.fits
  have hend : u64 (p + u32 declared) = p + text.length := by
    rw [← hlen, u32_of_lt hmax, u64_of_lt (by omega)]
  obtain ⟨hc, -⟩ := configure_spec locking s.mem p text.length s.c
  rw [hh.take] at hc
  unfold execConfigure
  simp only [hend]
  generalize configure locking s.mem p (p + text.length) s.c = r at hc
  refine Server.view_withStatus (s := s) ?_ hfit
  rw [← hc]
  simp [Server.view, View.apply]

theorem errorBytes_le (bufMax : Nat) (c : XvcClient) : errorBytes bufMax c ≤ c.pendingError.text.length := by
  unfold errorBytes
  simp only
  split <;> omega

theorem length_errorText (bufMax : Nat) (c : XvcClient) :
    (c.pendingError.text.take (errorBytes bufMax c)).length = errorBytes bufMax c := by
  have := errorBytes_le bufMax c
  rw [List.length_take]
  omega

/-- With the server's buffer `error:` returns the whole text. -/
theorem errorBytes_eq {bufMax : Nat} (hmax : bufMax = maxPacketLen) (c : XvcClient) :
    errorBytes bufMax c = c.pendingError.text.length := by
  have hfits := c.pendingError.fits
  subst hmax
  have hlimit : u32 (maxPacketLen + 2 ^ 32 - (c.pendingError.text.length + 127) / 128) =
      maxPacketLen - (c.pendingError.text.length + 127) / 128 := by
    unfold u32 maxPacketLen; omega
  unfold errorBytes
  simp only [hlimit]
  rw [if_neg (by unfold maxPacketLen; omega)]

theorem view_execError
    (hfit : s.replyLen + (handleError s.rx.bufMax s.view.core).reply.length ≤ maxPacketLen) :
    (execError s).view = s.view.apply (handleError s.rx.bufMax s.view.core) := by
  have hv := Server.view_replyUlebBytes (s := s) hfit
  have hclear : ∀ t : Server σ, t.clearError.view =
      ⟨{ t.view.core with c := { t.c with pendingError := .none } }, t.view.pending, t.view.calls,
        t.view.sent⟩ := fun _ => rfl
  unfold execError
  simp only [hclear]
  have hcore := Server.core_of_view hv
  have hv' : (((s.replyUleb128 (errorBytes s.rx.bufMax s.c)).replyBytes
      (s.c.pendingError.text.take (errorBytes s.rx.bufMax s.c))).view) = s.view.reply
        (Leb128.encode 10 (errorBytes s.rx.bufMax s.c) ++
          s.c.pendingError.text.take (errorBytes s.rx.bufMax s.c)) := hv
  have hcore' : ((s.replyUleb128 (errorBytes s.rx.bufMax s.c)).replyBytes
      (s.c.pendingError.text.take (errorBytes s.rx.bufMax s.c))).c = s.c := hcore
  rw [hv', hcore']
  simp [View.apply, View.reply, handleError, Server.view]

end Xvc
