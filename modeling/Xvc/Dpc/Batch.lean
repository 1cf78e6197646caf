import Xvc.Dpc.Handle
import Xvc.Server.Appends
import Xvc.Server.Twin

/-!
# Batches of `dpc` messages

All messages that are in the receive buffer are answered by one packet. Each of them appends its reply at
`reply_len`, whatever that is.

* `pieces`: the reply of a message, by how its bytes are stored. `exec_packed`: the branch of the message
  appends exactly these.
* `batching_transparent_iff`: the packet of a batch is what the messages are answered with one by one, and
  nothing is stored outside the reply buffer, exactly when the bytes at or behind `max_packet_len` that are
  not stored are there already, and the others have their room.
-/

namespace Xvc
namespace Dpc

open ByteMem Server Appending

variable {σ : Type}

/-! ## The capacity -/

/-- The loop of `reply_buf_size`; an `unsigned` is doubled at most 32 times. -/
def growReplyMax (bytes : Nat) : Nat → Nat → Nat
  | 0, replyMax => replyMax
  | k + 1, replyMax => if replyMax < bytes then growReplyMax bytes k (replyMax * 2) else replyMax

/-- `reply_buf_size`: the new `reply_max`. -/
def replyBufSize (replyMax bytes : Nat) : Nat :=
  if replyMax < bytes then growReplyMax bytes 32 (if replyMax = 0 then 1 else replyMax) else replyMax

/-- `reply_max` in `read_packet`. -/
def replyMax : Nat := replyBufSize 0 maxPacketLen

theorem replyMax_eq : replyMax = 16384 := by decide

theorem maxPacketLen_le_replyMax : maxPacketLen ≤ replyMax := by decide

/-! ## The handlers -/

/-- The handlers are functions of their state and arguments, and `edpc` returns at most 260 words. Neither
has the reply buffer. -/
structure Packets (h : XvcServerHandlers σ) (cb : Callbacks σ) : Prop where
  edpc : ∀ f, h.edpc = some f → ∀ d flags,
    (f d flags).call = { clientData := (cb.edpc d flags).1.data, error := (cb.edpc d flags).1.error } ∧
      (f d flags).numWords = (cb.edpc d flags).2.1
  words : ∀ d flags, (cb.edpc d flags).2.1 ≤ 260
  /-- Words that are returned without an error are in the buffer. -/
  buf : ∀ f, h.edpc = some f → ∀ d flags, (cb.edpc d flags).1.fails = true ∨ (cb.edpc d flags).2.1 = 0 ∨
    ∃ b, (f d flags).buf = some b ∧
      slice b 0 ((cb.edpc d flags).2.1 * 4) = slice (cb.edpc d flags).2.2 0 ((cb.edpc d flags).2.1 * 4)
  idpc : ∀ f, h.idpc = some f → ∀ d mem flags numWords p, f d mem flags numWords p =
    { clientData := (cb.idpc d flags numWords (slice mem p (numWords * 4))).data
      error := (cb.idpc d flags numWords (slice mem p (numWords * 4))).error }

/-! ## The pieces of a reply -/

/-- `edpc:`. -/
def edpcPieces (cb : Callbacks σ) (flags : Nat) (a : Core σ) : List Piece :=
  if a.c.failed then [.checked (Leb128.encode 10 0), .copied [], .checked [a.c.status]]
  else
    let r := cb.edpc a.data flags
    [.checked (Leb128.encode 10 r.2.1),
      .copied (if r.1.fails then List.replicate (r.2.1 * 4) 0 else slice r.2.2 0 (r.2.1 * 4)),
      .checked [(a.after r.1).c.status]]

/-- The reply of a message. -/
def pieces (h : XvcServerHandlers σ) (cb : Callbacks σ) (bufMax : Nat) : Msg → Core σ → List Piece
  | .getinfo, _ => [.terminated (getinfoText bufMax)]
  | .capabilities, _ => [.checked (Leb128.encode 10 (capabilitiesText h).length), .copied (capabilitiesText h)]
  | .configure _ text _, a => [.checked [(applyConfig (lockingAvailable h) text a.c).status]]
  | .error, a =>
    [.checked (Leb128.encode 10 (errorBytes bufMax a.c)), .copied (a.c.pendingError.text.take (errorBytes bufMax a.c))]
  | .edpc flags, a => edpcPieces cb (u32 flags.value) a
  | .idpc flags numWords data _, a =>
    [.checked [(Outcome.ofCall a (.idpc (u32 flags.value) numWords.value data)
      (cb.idpc a.data (u32 flags.value) numWords.value data)).core.c.status]]

theorem bytesOf_two (l l' : List UInt8) : bytesOf [.checked l, .copied l'] = l ++ l' := by simp [Piece.bytes]

/-- The number of words, the words and the status. -/
theorem bytesOf_three (l l' l'' : List UInt8) : bytesOf [.checked l, .copied l', .checked l''] = l ++ l' ++ l'' := by
  simp [Piece.bytes]

theorem bytesOf_edpcPieces (cb : Callbacks σ) (flags : Nat) (a : Core σ) :
    bytesOf (edpcPieces cb flags a) = (handleEdpc cb flags a).withStatus.reply := by
  unfold edpcPieces handleEdpc
  cases hf : a.c.failed with
  | true =>
    rw [if_pos rfl, if_pos rfl, bytesOf_three, List.append_nil]
    rfl
  | false =>
    rw [if_neg Bool.false_ne_true, if_neg Bool.false_ne_true, bytesOf_three]
    simp only [Outcome.ofData_of_ok hf, Outcome.withStatus, length_slice]

theorem bytesOf_pieces (h : XvcServerHandlers σ) (cb : Callbacks σ) (bufMax : Nat) (m : Msg) (a : Core σ) :
    bytesOf (pieces h cb bufMax m a) = (handle h cb bufMax m a).reply := by
  cases m with
  | getinfo => exact List.append_nil _
  | capabilities => exact bytesOf_two _ _
  | configure len text ht => rfl
  | error => exact bytesOf_two _ _
  | edpc flags => exact bytesOf_edpcPieces cb _ a
  | idpc flags numWords data hd =>
    simp only [pieces, handle, bytesOf_cons, bytesOf_nil, Piece.bytes, Outcome.withStatus, Outcome.ofCall_reply]
    rfl

/-- The messages one after the other. -/
def batchPieces (h : XvcServerHandlers σ) (cb : Callbacks σ) (bufMax : Nat) : List Msg → Core σ → List Piece
  | [], _ => []
  | m :: ms, a => pieces h cb bufMax m a ++ batchPieces h cb bufMax ms (handle h cb bufMax m a).core

/-- The state after them. -/
def batchCore (h : XvcServerHandlers σ) (cb : Callbacks σ) (bufMax : Nat) (ms : List Msg) (a : Core σ) : Core σ :=
  ms.foldl (fun a m => (handle h cb bufMax m a).core) a

/-! ## The branches -/

variable {h : XvcServerHandlers σ} {cb : Callbacks σ} {s : Server σ} {cbuf p : Nat} {rest : List UInt8}

/-- From `s` to `t` the message or the messages were answered with the pieces `ps`, and left the state `a`. -/
structure Packed (ps : List Piece) (a : Core σ) (s t : Server σ) : Prop where
  appends : Appends replyMax ps s t
  core : t.view.core = a

/-- The status behind a reply. -/
theorem Packed.status {ps : List Piece} {a : Core σ} {t : Server σ} (ht : Packed ps a s t)
    (hfit : s.replyLen + total ps + 1 < 2 ^ 32) : Packed (ps ++ [.checked [a.c.status]]) a s t.replyStatus := by
  have hc : t.c = a.c := congrArg Core.c ht.core
  have hst := appends_replyStatus (s := t) maxPacketLen_le_replyMax (by rw [ht.appends.replyLen]; exact hfit)
  rw [hc] at hst
  exact ⟨ht.appends.trans hst, (Replied.core replied_replyStatus).trans ht.core⟩

theorem packed_execConfigure {locking : Bool} {text : List UInt8} {declared : Nat} (hh : Holds s p (text ++ rest))
    (hlen : text.length = declared) (hmax : text.length < 2 ^ 32) (hfit : s.replyLen + 1 < 2 ^ 32) :
    Packed [.checked [(applyConfig locking text s.c).status]] { s.view.core with c := applyConfig locking text s.c } s
      (execConfigure locking s declared p) := by
  have he := hh.le_cend
  have hce := s.cend_le hh.fits
  have hend : u64 (p + u32 declared) = p + text.length := by
    rw [← hlen, u32_of_lt hmax, u64_of_lt (by omega)]
  obtain ⟨hc, -⟩ := configure_spec locking s.mem p text.length s.c
  rw [hh.take] at hc
  unfold execConfigure
  rw [hend]
  generalize configure locking s.mem p (p + text.length) s.c = r at hc
  have hedit : Packed [] { s.view.core with c := applyConfig locking text s.c } s { s with mem := r.1, c := r.2 } := by
    refine ⟨.of_same [] rfl rfl (List.append_nil _).symm rfl storesWithin_nil, ?_⟩
    rw [← hc]
    rfl
  exact hedit.status hfit

theorem packed_execIdpc (hi : Packets h cb) (hav : h.idpc.isSome) {flags numWords : Nat} {data : List UInt8}
    (hd : slice s.mem p (numWords * 4) = data) (hfit : s.replyLen + 1 < 2 ^ 32) :
    Packed [.checked [(Outcome.ofCall s.view.core (.idpc flags numWords data)
        (cb.idpc s.clientData flags numWords data)).core.c.status]]
      (Outcome.ofCall s.view.core (.idpc flags numWords data) (cb.idpc s.clientData flags numWords data)).core s
      (execIdpc h s flags numWords p) := by
  obtain ⟨f, hf⟩ := Option.isSome_iff_exists.mp hav
  subst hd
  obtain ⟨happ, hcore⟩ : Appends replyMax [] s _ ∧ _ :=
    appends_ofCall (f := some (f s.clientData s.mem flags numWords p))
      (c := .idpc flags numWords (slice s.mem p (numWords * 4))) fun _ => by rw [hi.idpc f hf]
  unfold execIdpc
  rw [hf]
  exact Packed.status ⟨happ, hcore⟩ hfit

/-- The words of a packet: `read_packet` copies them, or clears their bytes when an error is pending. -/
theorem appends_packet {t : Server σ} (buf : Option ByteMem) {l : List UInt8} {n : Nat} (hl : l.length = n)
    (hbuf : t.c.failed = true ∨ n = 0 ∨ ∃ b, buf = some b ∧ slice b 0 n = l) (hfit : t.replyLen + n < 2 ^ 32) :
    Appends replyMax [.copied (if t.c.failed then List.replicate n 0 else l)] t
      ((match buf with
        | some b => t.store t.replyLen (slice b 0 n)
        | none => t).replyData n) := by
  -- One store of the bytes that remain.
  have hone : ∀ (u : Server σ) (x : List UInt8), x.length = n → u.replyLen = t.replyLen →
      u.replyBuf = write t.replyBuf t.replyLen x → u.trace = t.trace ++ [.store t.replyLen n] →
      Appends replyMax [.copied x] t (u.extend n) := by
    rintro u x rfl hlen hb htr
    refine ⟨?_, hb, [.store t.replyLen x.length], htr, rfl, storesWithin_store.trans ?_⟩
    · show u32 (u.replyLen + x.length) = _
      rw [hlen, u32_of_lt hfit]
      simp [Piece.bytes]
    · rw [List.length_pos_iff]
      exact (iff_of_eq (and_true _)).symm
  cases hf : t.c.failed with
  | true =>
    rw [if_pos rfl]
    cases buf with
    | none =>
      unfold replyData
      rw [if_pos hf]
      exact hone _ _ List.length_replicate rfl (memset_eq_write _ _ _ _) rfl
    | some b =>
      unfold replyData
      rw [if_pos (show (t.store t.replyLen (slice b 0 n)).c.failed = true from hf)]
      refine ⟨?_, ?_, [.store t.replyLen n, .store t.replyLen n], ?_, rfl, ?_⟩
      · show u32 (t.replyLen + n) = _
        rw [u32_of_lt hfit]
        simp [Piece.bytes]
      · show memset (write t.replyBuf t.replyLen (slice b 0 n)) t.replyLen 0 n =
          write t.replyBuf t.replyLen (List.replicate n 0)
        rw [memset_eq_write, write_overwrite _ _ (by rw [length_slice, List.length_replicate])]
      · show t.trace ++ [.store t.replyLen (slice b 0 n).length] ++ [.store t.replyLen n] = _
        rw [length_slice, List.append_assoc]
        rfl
      · rw [show [Event.store t.replyLen n, .store t.replyLen n] =
            [.store t.replyLen n] ++ [.store t.replyLen n] from rfl,
          storesWithin_append, and_self, storesWithin_store]
        show _ ↔ (List.replicate n (0 : UInt8) ≠ [] →
          t.replyLen + (List.replicate n (0 : UInt8)).length ≤ replyMax) ∧ True
        rw [and_true, List.length_replicate, ← List.length_pos_iff, List.length_replicate]
  | false =>
    rw [if_neg Bool.false_ne_true]
    unfold replyData
    cases buf with
    | some b =>
      rw [if_neg (show ¬ (t.store t.replyLen (slice b 0 n)).c.failed = true from by simp [store, hf])]
      have hb : slice b 0 n = l := by
        rcases hbuf with hfail | rfl | ⟨b', hb', hslice⟩
        · exact absurd (hf.symm.trans hfail) Bool.false_ne_true
        · exact (List.length_eq_zero_iff.mp hl).symm
        · cases hb'
          exact hslice
      subst hb
      exact hone _ _ hl rfl rfl (congrArg (t.trace ++ [Event.store t.replyLen ·]) hl)
    | none =>
      rw [if_neg (by rw [hf]; exact Bool.false_ne_true)]
      have hn : n = 0 := by
        rcases hbuf with hfail | hn | ⟨b', hb', -⟩
        · exact absurd (hf.symm.trans hfail) Bool.false_ne_true
        · exact hn
        · cases hb'
      subst hn
      obtain rfl := List.length_eq_zero_iff.mp hl
      refine ⟨?_, (write_nil _ _).symm, [], (List.append_nil _).symm, rfl,
        iff_of_true storesWithin_nil ⟨fun hne => absurd rfl hne, trivial⟩⟩
      show u32 (t.replyLen + 0) = t.replyLen + total [.copied []]
      rw [u32_of_lt hfit]
      rfl

theorem core_replyData (t : Server σ) (n : Nat) : (t.replyData n).view.core = t.view.core := (replied_replyData n).core

/-- The number of words, the words and the status, behind a call that appended nothing. -/
theorem Packed.packet {a : Core σ} {t : Server σ} (buf : Option ByteMem) (words : Nat) {l : List UInt8}
    (ht : Packed [] a s t) (hwords : words ≤ 260) (hl : l.length = words * 4)
    (hbuf : a.c.failed = true ∨ words * 4 = 0 ∨ ∃ b, buf = some b ∧ slice b 0 (words * 4) = l)
    (hfit : s.replyLen + ((Leb128.encode 10 words).length + words * 4) + 1 < 2 ^ 32) :
    let u := t.replyUleb128 (u32 words)
    Packed [.checked (Leb128.encode 10 words), .copied (if a.c.failed then List.replicate (words * 4) 0 else l),
        .checked [a.c.status]] a s
      ((match buf with
        | some b => u.store u.replyLen (slice b 0 (u64 (words * 4)))
        | none => u).replyData (u64 (words * 4))).replyStatus := by
  have hlen : t.replyLen = s.replyLen := ht.appends.replyLen
  have hn : u64 (words * 4) = words * 4 := u64_of_lt (by omega)
  intro u
  have hu : Appends replyMax [.checked (Leb128.encode 10 words)] t u := by
    simp only [u, u32_of_lt (show words < 2 ^ 32 by omega)]
    exact appends_replyUleb128 maxPacketLen_le_replyMax (by omega)
  have hucore : u.view.core = a := ((replied_replyUleb128 _).core).trans ht.core
  have huc : u.c = a.c := congrArg Core.c hucore
  have hulen : u.replyLen = s.replyLen + (Leb128.encode 10 words).length := by
    rw [hu.replyLen, hlen]
    simp [Piece.bytes]
  rw [hn]
  have hp := appends_packet (t := u) buf hl (by rw [huc]; exact hbuf) (by omega)
  rw [huc] at hp
  have hpieces := (ht.appends.trans hu).trans hp
  refine Packed.status (a := a) ⟨hpieces, ?_⟩ ?_
  · rw [core_replyData]
    cases buf with
    | none => exact hucore
    | some b => exact hucore
  · simp only [List.nil_append, List.cons_append, total_cons, total_nil, Piece.bytes]
    split <;> simp only [List.length_replicate, hl] <;> omega

theorem packed_execEdpc (hi : Packets h cb) (hav : h.edpc.isSome) {flags : Nat}
    (hfit : s.replyLen + 1060 < 2 ^ 32) :
    Packed (edpcPieces cb flags s.view.core) (handleEdpc cb flags s.view.core).core s (execEdpc h s flags) := by
  obtain ⟨f, he⟩ := Option.isSome_iff_exists.mp hav
  have hc : s.view.core.c.failed = s.c.failed := rfl
  unfold edpcPieces handleEdpc execEdpc unlessFailed
  rw [hc]
  cases hf : s.c.failed with
  | true =>
    have hnone : Packed [] s.view.core s s := ⟨.refl s, rfl⟩
    have hlen := Leb128.length_encode_le 10 0
    have hp := Packed.packet none 0 (l := []) hnone (by omega) rfl (.inl hf) (by omega)
    rw [callEdpc_of_failed hf]
    simp only
    rw [if_pos (show s.view.core.c.failed = true from hf)] at hp
    exact hp
  | false =>
    obtain ⟨hcall, hwords⟩ := hi.edpc f he s.clientData flags
    have h260 := hi.words s.clientData flags
    have hbuf := hi.buf f he s.clientData flags
    have hok : s.view.core.c.failed = false := hf
    have hdata : s.view.core.data = s.clientData := rfl
    have hlen := Leb128.length_encode_le 10 (cb.edpc s.clientData flags).2.1
    rw [callEdpc_of_ok he hf, he]
    simp only [Bool.false_eq_true, if_false, hdata, Outcome.ofData_of_ok hok, hcall, hwords, Option.map_some]
    generalize (f s.clientData flags).buf = buf at hbuf
    generalize cb.edpc s.clientData flags = r at *
    obtain ⟨e, words, data⟩ := r
    dsimp only at *
    have ht : Packed [] (s.view.core.after e) s
        (s.callback (.edpc flags) { clientData := e.data, error := e.error }) :=
      ⟨appends_callback _ rfl, core_callback rfl rfl⟩
    have hfails : (s.view.core.after e).c.failed = e.fails := Core.failed_after e hok
    have hp := Packed.packet buf words (l := slice data 0 (words * 4)) ht h260 (length_slice _ _ _)
      (by rw [hfails]; exact hbuf.imp_right (.imp_left fun hz => by rw [hz])) (by omega)
    rw [hfails] at hp
    exact hp

theorem length_getinfoText : (getinfoText maxPacketLen).length = 21 := by decide

theorem length_capabilitiesText_le (h : XvcServerHandlers σ) : (capabilitiesText h).length ≤ 10 := by
  unfold capabilitiesText
  split <;> decide

theorem length_pendingError_lt (c : XvcClient) (n : Nat) : (c.pendingError.text.take n).length < 1024 :=
  Nat.lt_of_le_of_lt (by rw [List.length_take]; exact Nat.min_le_right _ _) c.pendingError.fits

/-- **Execution.** The branch of a message appends its pieces, wherever the reply has got to, and does what
`handle` says. -/
theorem exec_packed (hi : Packets h cb) (hrx : s.rx.bufMax = maxPacketLen) {m : Msg} (hav : m.Available h)
    (hlen : m.payload.length < 2 ^ 32) (hh : Holds s p (m.payload ++ rest)) (hfit : s.replyLen + 1100 < 2 ^ 32) :
    Packed (pieces h cb maxPacketLen m s.view.core) (handle h cb maxPacketLen m s.view.core).core s
      (exec h s (m.request p)) := by
  cases m with
  | getinfo =>
    refine ⟨?_, rfl⟩
    have happ : Appends replyMax _ s _ := appends_execGetinfo (by rw [hrx, length_getinfoText]; omega)
    rw [hrx] at happ
    exact happ
  | capabilities =>
    have h1 := Leb128.length_encode_le 10 (capabilitiesText h).length
    have h2 := length_capabilitiesText_le h
    exact ⟨appends_replyUlebBytes maxPacketLen_le_replyMax (by omega),
      ((replied_replyUleb128 _).trans (replied_replyBytes _)).core⟩
  | configure len text ht => exact packed_execConfigure hh ht hlen (by omega)
  | error =>
    have h1 := Leb128.length_encode_le 10 (errorBytes maxPacketLen s.c)
    have h2 := length_pendingError_lt s.c (errorBytes maxPacketLen s.c)
    have happ := appends_replyUlebBytes (s := s) (n := errorBytes maxPacketLen s.c) maxPacketLen_le_replyMax
      (l := s.c.pendingError.text.take (errorBytes maxPacketLen s.c)) (by omega)
    have hcore := ((replied_replyUleb128 (s := s) (errorBytes maxPacketLen s.c)).trans
      (replied_replyBytes (s.c.pendingError.text.take (errorBytes maxPacketLen s.c)))).clearError.core
    show Packed _ _ s (execError s)
    unfold execError
    rw [hrx]
    exact ⟨⟨happ.replyLen, happ.buf, happ.events⟩, hcore⟩
  | edpc flags => exact packed_execEdpc hi hav (by omega)
  | idpc flags numWords data hd =>
    have hdata : slice s.mem p (numWords.value * 4) = data := by
      rw [← hd]
      exact hh.take
    exact packed_execIdpc hi hav hdata (by omega)

theorem total_pieces_le (hi : Packets h cb) (m : Msg) (a : Core σ) : total (pieces h cb maxPacketLen m a) ≤ 1100 := by
  cases m with
  | getinfo => simp [pieces, Piece.bytes, length_getinfoText]
  | capabilities =>
    have h1 := Leb128.length_encode_le 10 (capabilitiesText h).length
    have h2 := length_capabilitiesText_le h
    simp only [pieces, total_cons, total_nil, Piece.bytes]
    omega
  | configure len text ht => simp [pieces, Piece.bytes]
  | error =>
    have h1 := Leb128.length_encode_le 10 (errorBytes maxPacketLen a.c)
    have h2 := length_pendingError_lt a.c (errorBytes maxPacketLen a.c)
    simp only [pieces, total_cons, total_nil, Piece.bytes]
    omega
  | edpc flags =>
    have h0 := Leb128.length_encode_le 10 0
    have h1 := Leb128.length_encode_le 10 (cb.edpc a.data (u32 flags.value)).2.1
    have h2 := hi.words a.data (u32 flags.value)
    simp only [pieces, edpcPieces]
    split
    · simp only [total_cons, total_nil, Piece.bytes, List.length_nil, List.length_singleton]
      omega
    · simp only [total_cons, total_nil, Piece.bytes, List.length_singleton]
      split <;> simp only [List.length_replicate, length_slice] <;> omega
  | idpc flags numWords data hd => simp [pieces, Piece.bytes]

theorem total_batchPieces_le (hi : Packets h cb) (ms : List Msg) (a : Core σ) :
    total (batchPieces h cb maxPacketLen ms a) ≤ 1100 * (ms.flatMap Msg.enc).length := by
  induction ms generalizing a with
  | nil => exact Nat.le_refl 0
  | cons m ms ih =>
    have h1 := total_pieces_le hi m a
    have h2 := ih (handle h cb maxPacketLen m a).core
    have hpos := List.length_pos_iff.mpr m.enc_ne_nil
    rw [batchPieces, total_append, List.flatMap_cons, List.length_append]
    omega

/-! ## A batch -/

/-- The end of a batch stores nothing. -/
theorem finish_stores {P : Protocol σ} (hq : P.QuietFlush id) (snd : Nat → Int) (s : Server σ) (cbuf : Nat)
    (fill : Bool) :
    ∃ es, (Conn.finish P snd s cbuf fill).s.trace = s.trace ++ es ∧ StoresWithin 0 es := by
  have hrun : ∃ es, (s.runFlush P).1.trace = s.trace ++ es ∧ StoresWithin 0 es := by
    unfold runFlush
    cases hP : P.flush with
    | none => exact ⟨[], (List.append_nil _).symm, storesWithin_nil⟩
    | some f =>
      obtain ⟨herr, hst, -⟩ := hq f hP s.clientData s.mem
      simp only [herr, hst]
      exact ⟨[.flush], rfl, fun i n he => by cases List.mem_singleton.mp he⟩
  obtain ⟨es, htr, hes⟩ := hrun
  rw [Conn.finish_eq]
  split
  · split
    · exact ⟨es, htr, hes⟩
    · refine ⟨_, by rw [Conn.trace_sendReply, htr, List.append_assoc], storesWithin_append.mpr ⟨hes, fun i n he => ?_⟩⟩
      cases List.mem_singleton.mp he
  · exact ⟨[], (List.append_nil _).symm, storesWithin_nil⟩

/-- The connection waits in `recv`, and nothing has been received that was not answered. -/
structure Idle (c : Conn σ) : Prop where
  phase : c.phase = .recv
  bufLen : c.s.bufLen = 0
  bufMax : c.s.rx.bufMax = maxPacketLen

/-- What a connection did with the messages of a batch: `l` was sent, and `ps` are the pieces that were stored. -/
structure Batched (ps : List Piece) (l : List UInt8) (a : Core σ) (c d : Conn σ) : Prop where
  idle : Idle d
  core : d.s.view.core = a
  sent : sentOf d.s.trace = sentOf c.s.trace ++ l
  stores : ∃ es, d.s.trace = c.s.trace ++ es ∧ (StoresWithin replyMax es ↔ Fits replyMax c.s.replyLen ps)

/-- From the head of the loop, with the messages `ms` in the buffer. By induction on the messages. -/
theorem batch_settles (hi : Packets h cb) (hq : (protocol h).QuietFlush id) {ms : List Msg} {c : Conn σ} {p : Nat}
    (hp : c.phase = .parse p) (hrx : c.s.rx.bufMax = maxPacketLen)
    (hne : c.s.rx.buf < p ∨ c.s.rx.buf = p ∧ ms ≠ []) (hav : ∀ m ∈ ms, m.Available h)
    (hh : Holds c.s p (ms.flatMap Msg.enc)) (hlen : (ms.flatMap Msg.enc).length < 2 ^ 32)
    (hfit : c.s.replyLen + total (batchPieces h cb maxPacketLen ms c.s.view.core) + 1100 < 2 ^ 32) :
    ∃ d, Machine.Settles (Conn.advance (protocol h) Conn.sendAll) c d ∧
      Batched (batchPieces h cb maxPacketLen ms c.s.view.core)
        (slice (putAll maxPacketLen c.s.replyLen (batchPieces h cb maxPacketLen ms c.s.view.core) c.s.replyBuf) 0
          (c.s.replyLen + total (batchPieces h cb maxPacketLen ms c.s.view.core)))
        (batchCore h cb maxPacketLen ms c.s.view.core) c d := by
  induction ms generalizing c p with
  | nil =>
    have hlt : c.s.rx.buf < p := hne.resolve_right fun h => h.2 rfl
    have hadv : Conn.advance (protocol h) Conn.sendAll c = Conn.finish (protocol h) Conn.sendAll c.s p true := by
      rw [Conn.advance_parse hp, show (protocol h).iter c.s p = .fill from Dispatch.iter_idle hh]
    obtain ⟨t, hfin, htrx, hht, hview⟩ := finish_sends hq rfl hlt hh true (.inl rfl)
    obtain ⟨es, htr, hes⟩ := finish_stores hq Conn.sendAll c.s p true
    rw [hfin] at htr
    have hlen0 := hht.ends
    have hcore : t.view.core = c.s.view.core :=
      (congrArg (fun v : View (Core σ) => v.core) hview :)
    have hsent : sentOf t.trace = sentOf c.s.trace ++ slice c.s.replyBuf 0 c.s.replyLen :=
      (congrArg (fun v : View (Core σ) => v.sent) hview :)
    refine ⟨⟨.recv, t⟩, .of_step ?_, ⟨rfl, ?_, htrx ▸ hrx⟩, hcore, hsent, es, htr, ?_⟩
    · rw [hadv, hfin]
      exact .refl (Conn.advance_recv rfl)
    · show t.bufLen = 0
      unfold cend at hlen0
      rw [htrx, List.flatMap_nil, List.length_nil] at hlen0
      omega
    · exact iff_of_true (fun i n he k hk => absurd (hes i n he k hk) (Nat.not_lt_zero _)) trivial
  | cons m ms ih =>
    rw [List.flatMap_cons] at hh hlen
    rw [List.length_append] at hlen
    have hm := hav m List.mem_cons_self
    have hpos := List.length_pos_iff.mpr m.enc_ne_nil
    have hpay : m.payload.length < 2 ^ 32 := by
      have := length_enc m 0
      omega
    have hhp := holds_payload hh
    obtain ⟨happ, hcore⟩ := exec_packed hi hrx hm hpay hhp (by omega)
    have hkeep : (exec h c.s _).rx = _ ∧ _ :=
      keepsBuffer h c.s (m.request (p + (m.name.length + 1) + (Uleb.enc m.numbers).length))
    have hht := holds_exec_complete (h := h) hpay hhp
    rw [length_enc] at hht
    rw [batchPieces] at hfit ⊢
    have hadv : Conn.advance (protocol h) Conn.sendAll c =
        ⟨.parse (p + m.enc.length),
          exec h c.s (m.request (p + (m.name.length + 1) + (Uleb.enc m.numbers).length))⟩ := by
      rw [Conn.advance_parse hp, show (protocol h).iter c.s p = _ from iter_complete hm hpay hh]
    generalize exec h c.s (m.request (p + (m.name.length + 1) + (Uleb.enc m.numbers).length)) = t at *
    obtain ⟨es, htr, hsent, hstores⟩ := happ.events
    have hbuf : c.s.rx.buf ≤ p := by rcases hne with hlt | ⟨heq, -⟩ <;> omega
    rw [total_append] at hfit
    rw [← hcore] at hfit ⊢
    obtain ⟨d, hd, hb⟩ := ih (c := ⟨.parse (p + m.enc.length), t⟩) (p := p + m.enc.length) rfl
      (hkeep.1 ▸ hrx) (.inl (by rw [hkeep.1]; omega)) (fun m' hm' => hav m' (List.mem_cons_of_mem _ hm')) hht (by omega)
      (by
        show t.replyLen + total (batchPieces h cb maxPacketLen ms t.view.core) + 1100 < 2 ^ 32
        rw [happ.replyLen]
        omega)
    refine ⟨d, .of_step (by rw [hadv]; exact hd), hb.idle, ?_, ?_, ?_⟩
    · rw [hb.core, hcore]
      rfl
    · rw [hb.sent, htr, sentOf_append, hsent, List.append_nil, putAll_append, happ.replyLen, happ.buf, total_append,
        Nat.add_assoc]
    · obtain ⟨es', htr', hstores'⟩ := hb.stores
      refine ⟨es ++ es', by rw [htr', htr, List.append_assoc], ?_⟩
      rw [storesWithin_append, fits_append, hstores, hstores', happ.replyLen]

/-- One chunk that is a batch. -/
theorem batch_feed (hi : Packets h cb) (hq : (protocol h).QuietFlush id) (ms : List Msg) {c : Conn σ} (hc : Idle c)
    (hne : ms ≠ []) (hav : ∀ m ∈ ms, m.Available h) (hfit : (ms.flatMap Msg.enc).length ≤ maxPacketLen) :
    ∃ d, Conn.Feed (protocol h) c [ms.flatMap Msg.enc] d ∧
      Idle d ∧ d.s.view.core = batchCore h cb maxPacketLen ms c.s.view.core ∧
      sentOf d.s.trace = sentOf c.s.trace ++
        slice (putAll maxPacketLen 0 (batchPieces h cb maxPacketLen ms c.s.view.core) c.s.replyBuf) 0
          (total (batchPieces h cb maxPacketLen ms c.s.view.core)) ∧
      ∃ es, d.s.trace = c.s.trace ++ es ∧
        (StoresWithin replyMax es ↔ Fits replyMax 0 (batchPieces h cb maxPacketLen ms c.s.view.core)) := by
  have htotal := total_batchPieces_le hi ms c.s.view.core
  have hmax : maxPacketLen = 10000 := rfl
  have hpos : ms.flatMap Msg.enc ≠ [] := by
    obtain ⟨m, ms', rfl⟩ := List.exists_cons_of_ne_nil hne
    rw [List.flatMap_cons]
    exact List.append_ne_nil_of_left_ne_nil m.enc_ne_nil _
  have hholds : Holds (c.receive (ms.flatMap Msg.enc)).s c.s.rx.buf (ms.flatMap Msg.enc) := by
    refine ⟨?_, ?_, ?_⟩
    · show slice (write c.s.mem (c.s.rx.buf + c.s.bufLen) _) c.s.rx.buf _ = _
      rw [hc.bufLen, Nat.add_zero]
      exact slice_write _ _ _
    · show _ = c.s.rx.buf + (c.s.bufLen + _)
      rw [hc.bufLen, Nat.zero_add]
    · show c.s.bufLen + _ ≤ c.s.rx.bufMax
      rw [hc.bufLen, hc.bufMax, Nat.zero_add]
      exact hfit
  obtain ⟨d, hd, hb⟩ := batch_settles hi hq (c := c.receive (ms.flatMap Msg.enc)) (p := c.s.rx.buf) rfl hc.bufMax
    (.inr ⟨rfl, hne⟩) hav hholds (by omega) (by
      show 0 + total (batchPieces h cb maxPacketLen ms c.s.view.core) + 1100 < 2 ^ 32
      omega)
  have hsent := hb.sent
  rw [show (c.receive (ms.flatMap Msg.enc)).s.replyLen = 0 from rfl, Nat.zero_add] at hsent
  refine ⟨d, .cons hc.phase hpos ?_ hd (.nil d), hb.idle, hb.core, hsent, hb.stores⟩
  show _ ≤ c.s.rx.bufMax - c.s.bufLen
  rw [hc.bufLen, hc.bufMax, Nat.sub_zero]
  exact hfit

/-- The messages one by one, each answered before the next is received. -/
theorem one_by_one (hi : Packets h cb) (hq : (protocol h).QuietFlush id) {ms : List Msg} {c : Conn σ} (hc : Idle c)
    (hav : ∀ m ∈ ms, m.Available h) (hfit : (ms.flatMap Msg.enc).length ≤ maxPacketLen) :
    ∃ e, Conn.Feed (protocol h) c (ms.map Msg.enc) e ∧
      sentOf e.s.trace = sentOf c.s.trace ++ bytesOf (batchPieces h cb maxPacketLen ms c.s.view.core) ∧
      ∃ es, e.s.trace = c.s.trace ++ es ∧ StoresWithin replyMax es := by
  induction ms generalizing c with
  | nil => exact ⟨c, .nil c, (List.append_nil _).symm, [], (List.append_nil _).symm, storesWithin_nil⟩
  | cons m ms ih =>
    rw [List.flatMap_cons, List.length_append] at hfit
    have hone : [m].flatMap Msg.enc = m.enc := List.append_nil _
    have hpieces : batchPieces h cb maxPacketLen [m] c.s.view.core = pieces h cb maxPacketLen m c.s.view.core :=
      List.append_nil _
    obtain ⟨d, hd, hidle, hcore, hsent, es, htr, hstores⟩ := batch_feed hi hq [m] hc (List.cons_ne_nil _ _)
      (fun m' hm' => hav m' (List.mem_cons.mpr (.inl (List.mem_singleton.mp hm')))) (by rw [hone]; omega)
    rw [hone] at hd
    rw [hpieces] at hsent hstores
    have htotal := total_pieces_le hi m c.s.view.core
    -- A single reply is far from `max_packet_len`.
    have hland : Lands maxPacketLen c.s.replyBuf 0 (pieces h cb maxPacketLen m c.s.view.core) :=
      lands_of_le (by rw [Nat.zero_add]; exact Nat.le_trans htotal (by decide))
    have hroom : Fits replyMax 0 (pieces h cb maxPacketLen m c.s.view.core) := fits_of_lt (by rw [replyMax_eq]; omega)
    rw [slice_putAll_iff.mpr hland] at hsent
    obtain ⟨e, he, hsent', es', htr', hstores'⟩ :=
      ih hidle (fun m' hm' => hav m' (List.mem_cons_of_mem _ hm')) (by omega)
    refine ⟨e, hd.append he, ?_, es ++ es', by rw [htr', htr, List.append_assoc],
      storesWithin_append.mpr ⟨hstores.mpr hroom, hstores'⟩⟩
    rw [hsent', hsent, hcore, List.append_assoc, batchPieces, bytesOf_append]
    rfl

/-- **Batching.** The packet of a batch is what the messages are answered with one by one, and nothing is
stored outside the reply buffer, if and only if each status and length byte at or behind `max_packet_len` is
in the buffer already, and what is copied has its room. -/
theorem batching_transparent_iff (h : XvcServerHandlers σ) (cb : Callbacks σ) (hi : Packets h cb)
    (hq : (protocol h).QuietFlush id) (c : Conn σ) (hc : Idle c) (ms : List Msg) (hne : ms ≠ [])
    (hav : ∀ m ∈ ms, m.Available h) (hfit : (ms.flatMap Msg.enc).length ≤ maxPacketLen) :
    ∃ d e, Conn.Feed (protocol h) c [ms.flatMap Msg.enc] d ∧ Conn.Feed (protocol h) c (ms.map Msg.enc) e ∧
      ((sentOf d.s.trace = sentOf e.s.trace ∧ StoresWithin replyMax (d.s.trace.drop c.s.trace.length) ∧
          StoresWithin replyMax (e.s.trace.drop c.s.trace.length)) ↔
        Lands maxPacketLen c.s.replyBuf 0 (batchPieces h cb maxPacketLen ms c.s.view.core) ∧
          Fits replyMax 0 (batchPieces h cb maxPacketLen ms c.s.view.core)) := by
  obtain ⟨d, hd, -, -, hsent, es, htr, hstores⟩ := batch_feed hi hq ms hc hne hav hfit
  obtain ⟨e, he, hsent', es', htr', hstores'⟩ := one_by_one hi hq hc hav hfit
  refine ⟨d, e, hd, he, ?_⟩
  rw [hsent, hsent', htr, htr', List.drop_left, List.drop_left, List.append_cancel_left_eq, slice_putAll_iff, hstores]
  exact and_congr_right' (and_iff_left hstores')

/-- Handlers that take every packet and have none. -/
def noPackets : XvcServerHandlers Unit where
  lock := none
  unlock := none
  flush := none
  idpc := some fun d _ _ _ _ => { clientData := d }
  edpc := some fun d _ => { call := { clientData := d } }

/-- What they do. -/
def noPacketsCallbacks : Callbacks Unit where
  edpc d _ := ({ data := d }, 0, fun _ => 0)
  idpc d _ _ _ := { data := d }

theorem noPackets_packets : Packets noPackets noPacketsCallbacks where
  edpc f hf d flags := by cases hf; exact ⟨rfl, rfl⟩
  words _ _ := Nat.zero_le _
  buf f hf d flags := .inr (.inl rfl)
  idpc f hf d mem flags numWords p := by cases hf; rfl

/-- A new connection that waits in `recv`. -/
def newConn : Conn Unit := ⟨.recv, Server.loaded () []⟩

theorem batching_transparent_iff_getinfo :
    ∃ d e, Conn.Feed (protocol noPackets) newConn [[Msg.getinfo, .error].flatMap Msg.enc] d ∧
      Conn.Feed (protocol noPackets) newConn ([Msg.getinfo, .error].map Msg.enc) e ∧
      sentOf d.s.trace = sentOf e.s.trace := by
  obtain ⟨d, e, hd, he, hiff⟩ := batching_transparent_iff noPackets noPacketsCallbacks noPackets_packets nofun newConn
    ⟨rfl, rfl, rfl⟩ [.getinfo, .error] (by simp) (by simp [Msg.Available]) (by decide)
  refine ⟨d, e, hd, he, (hiff.mpr ⟨lands_of_le ?_, fits_of_lt ?_⟩).1⟩
  · decide
  · decide

theorem batchPieces_getinfos (n : Nat) (a : Core Unit) :
    batchPieces noPackets noPacketsCallbacks maxPacketLen (List.replicate n .getinfo) a =
      List.replicate n (.terminated (getinfoText maxPacketLen)) := by
  induction n with
  | zero => rfl
  | succ n ih =>
    rw [List.replicate_succ, List.replicate_succ, batchPieces]
    exact congrArg (_ :: ·) ih

/-- The last of them has its room. -/
theorem le_of_fits_replicate {l : List UInt8} {cap o n : Nat}
    (hf : Fits cap o (List.replicate (n + 1) (.terminated l))) :
    o + n * l.length + l.length + 1 ≤ cap := by
  induction n generalizing o with
  | zero => simpa using hf.1
  | succ n ih =>
    have := ih hf.2
    rw [Nat.succ_mul]
    omega

theorem length_getinfos (n : Nat) : ((List.replicate n Msg.getinfo).flatMap Msg.enc).length = n * 8 := by
  induction n with
  | zero => rfl
  | succ n ih =>
    have henc : Msg.getinfo.enc.length = 8 := by decide
    rw [List.replicate_succ, List.flatMap_cons, List.length_append, ih, henc]
    omega

/-- 1250 `getinfo:` fill the receive buffer, and are answered behind the end of the reply buffer. -/
theorem batching_not_transparent :
    ∃ d, Conn.Feed (protocol noPackets) newConn [(List.replicate 1250 Msg.getinfo).flatMap Msg.enc] d ∧
      ¬ StoresWithin replyMax (d.s.trace.drop newConn.s.trace.length) := by
  have hne : List.replicate 1250 Msg.getinfo ≠ [] := by
    rw [List.replicate_succ]
    exact List.cons_ne_nil _ _
  obtain ⟨d, hd, -, -, -, es, htr, hstores⟩ := batch_feed noPackets_packets nofun (List.replicate 1250 .getinfo)
    (c := newConn) ⟨rfl, rfl, rfl⟩ hne (fun m hm => by rw [List.eq_of_mem_replicate hm]; trivial)
    (by rw [length_getinfos]; decide)
  refine ⟨d, hd, ?_⟩
  rw [htr, List.drop_left, hstores, batchPieces_getinfos]
  intro hf
  have := le_of_fits_replicate hf
  rw [length_getinfoText, replyMax_eq] at this
  omega

end Dpc
end Xvc
