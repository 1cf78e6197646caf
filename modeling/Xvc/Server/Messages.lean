import Xvc.Server.Configure
import Xvc.Server.ReadPacket

/-!
# The dispatch of `read_packet`

Each branch of the `for (;;)` loop first decodes its arguments and checks that the whole message
has been received, and then executes it. A `Dispatch` keeps these halves apart: `parse` decides for
the header at `cbuf` whether more bytes are needed (`fill`), an assertion fails (`abort`), the
header is unknown (`bad`), or a request is complete, and then where the next message begins;
`exec` does what the request asks and appends the reply.

* `Dispatch.iter`: one iteration of the loop. `Dispatched`: it executes a request.
* The branches that the two servers share are here: `getinfo:`, `capabilities:` (with each
  server's text), `configure:` (with each server's condition for the `locking` option), `error:`.
-/

namespace Xvc

open ByteMem

variable {σ R : Type}

/-- What the first half of a branch finds; `msg` has the new `cbuf`. -/
inductive Parsed (R : Type) where
  | fill
  | abort
  | bad
  | msg (r : R) (p : Nat)
  deriving DecidableEq

/-- The two halves of the branches of a server with requests `R`. -/
structure Dispatch (σ R : Type) where
  parse : Server σ → (cbuf : Nat) → (hdr : List UInt8) → (p : Nat) → Parsed R
  exec : Server σ → R → Server σ
  /-- The branch leaves the loop when a reply is pending. -/
  waitsForReplies : R → Bool := fun _ => false

namespace Dispatch

variable {D : Dispatch σ R} {s s' : Server σ} {cbuf p : Nat} {r : R}

/-- One iteration of the `for (;;)` loop. -/
def iter (D : Dispatch σ R) (s : Server σ) (cbuf : Nat) : Iter σ :=
  match scanHeader s cbuf with
  | .fill => .fill
  | .bad => .bad
  | .header hdr p =>
    match D.parse s cbuf hdr p with
    | .fill => .fill
    | .abort => .abort
    | .bad => .bad
    | .msg r p => if D.waitsForReplies r ∧ 0 < s.replyLen then .stop else .reply (D.exec s r) p

/-- The iteration at `cbuf` executes the request `r`, whose header ends at `q`, and reaches
`reply:` with the cursor at `p`. -/
structure Dispatched (D : Dispatch σ R) (s : Server σ) (cbuf : Nat) (r : R) (q p : Nat) : Prop where
  complete : ∃ hdr, scanHeader s cbuf = .header hdr q ∧ D.parse s cbuf hdr q = .msg r p
  runs : ¬ (D.waitsForReplies r ∧ 0 < s.replyLen)

theorem iter_eq_reply : D.iter s cbuf = .reply s' p ↔
    ∃ r q, D.Dispatched s cbuf r q p ∧ s' = D.exec s r := by
  unfold iter
  constructor
  · intro h
    split at h
    · cases h
    · cases h
    · next hdr q hscan =>
      split at h
      · cases h
      · cases h
      · cases h
      · next r p' hparse =>
        split at h
        · cases h
        · next hw =>
          cases h
          exact ⟨r, q, ⟨⟨hdr, hscan, hparse⟩, hw⟩, rfl⟩
  · rintro ⟨r, q, ⟨⟨hdr, hscan, hparse⟩, hw⟩, rfl⟩
    simp only [hscan, hparse, if_neg hw]

end Dispatch

/-- The incomplete path of a branch: `assert(end - cbuf <= c->buf_max)`, then `fill`. -/
def incomplete (s : Server σ) (cbuf pend : Nat) : Parsed R :=
  if ptrDiff pend cbuf ≤ s.rx.bufMax then .fill else .abort

/-- The first half of `configure:`; its assertion is strict. The request `mk declared p` has the
decoded length, of which the code keeps 32 bits, and the address of the text. -/
def parseConfigure (mk : Nat → Nat → R) (s : Server σ) (cbuf p : Nat) : Parsed R :=
  let v := getUleb128 s.mem p s.cend
  let pktend := u64 (v.2 + u32 v.1)
  if s.cend < pktend then
    if ptrDiff pktend cbuf < s.rx.bufMax then .fill else .abort
  else .msg (mk v.1 v.2) pktend

/-- The text of `getinfo:` (`XVC_VERSION` is 11). -/
def getinfoText (bufMax : Nat) : List UInt8 := ascii "xvcServer_v1.1:" ++ decimal bufMax ++ ascii "\n"

/-- `getinfo:`; `snprintf` also stores the NUL. -/
def execGetinfo (s : Server σ) : Server σ :=
  (s.store s.replyLen (getinfoText s.rx.bufMax ++ [0])).extend (getinfoText s.rx.bufMax).length

/-- `capabilities:`, with the server's text. -/
def execCapabilities (text : List UInt8) (s : Server σ) : Server σ :=
  (s.replyUleb128 text.length).replyBytes text

/-- The second half of `configure:`; `locking` tells that `lock` and `unlock` are there. -/
def execConfigure (locking : Bool) (s : Server σ) (declared p : Nat) : Server σ :=
  let r := configure locking s.mem p (u64 (p + u32 declared)) s.c
  { s with mem := r.1, c := r.2 }.replyStatus

/-- The length of the `error:` text: bounded, in `unsigned` arithmetic, by the room for it. -/
def errorBytes (bufMax : Nat) (c : XvcClient) : Nat :=
  let bytes := c.pendingError.text.length
  let limit := u32 (bufMax + 2 ^ 32 - (bytes + 127) / 128)
  if limit < bytes then limit else bytes

/-- `error:`. -/
def execError (s : Server σ) : Server σ :=
  let bytes := errorBytes s.rx.bufMax s.c
  ((s.replyUleb128 bytes).replyBytes (s.c.pendingError.text.take bytes)).clearError

/-- A call through a handler pointer that may be NULL. -/
def callOrNull (s : Server σ) (f : Option (CallResult σ)) (c : Call) : Server σ :=
  match f with
  | some r => s.callback c r
  | none => { s with trace := s.trace ++ [.nullCall] }

/-! ## What the common branches leave alone -/

@[simp] theorem received_callOrNull (s : Server σ) (f : Option (CallResult σ)) (c : Call) :
    (callOrNull s f c).received = s.received := by
  cases f with
  | none => rfl
  | some r => exact s.received_callback c r

@[simp] theorem received_execGetinfo (s : Server σ) : (execGetinfo s).received = s.received := rfl

@[simp] theorem received_execCapabilities (text : List UInt8) (s : Server σ) :
    (execCapabilities text s).received = s.received := by simp [execCapabilities]

@[simp] theorem received_execError (s : Server σ) : (execError s).received = s.received := by
  unfold execError
  rw [Server.received_clearError, Server.received_replyBytes, Server.received_replyUleb128]

/-- `configure:` writes into the message, but moves neither the buffer nor its end. -/
theorem execConfigure_keeps (locking : Bool) (s : Server σ) (declared p : Nat) :
    (execConfigure locking s declared p).rx = s.rx ∧
      (execConfigure locking s declared p).bufLen = s.bufLen := by
  unfold execConfigure
  generalize configure locking s.mem p (u64 (p + u32 declared)) s.c = r
  have h := Server.received_replyStatus { s with mem := r.1, c := r.2 }
  exact ⟨(Server.rx_of_received h :), (Server.bufLen_of_received h :)⟩

end Xvc
