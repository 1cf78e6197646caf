import Xvc.Lib.ByteMem
import Xvc.Lib.Leb128

/-!
# The state of an XVC 1.1 server

Both XVC 1.1 servers (`mem/versal/src/xvcserver.c` and `dpc/src/xvcserver.c`) keep the same data:
the client record `XvcClient`, the receive buffer `c->buf`, and the static reply buffer. This
module has that state and the helpers that both files define with the same text
(`reply_status`, `reply_uleb128`, `xvcserver_set_error`, `get_uleb128`, `get_uint_le`,
`set_uint_le`).

* Addresses are `Nat`s below `2^64`; sums that a client controls are reduced explicitly (`u64`),
  `unsigned` ones by `u32`.
* `Server.mem` is the memory the receive buffer lies in, by address; `Server.replyBuf` is the
  reply buffer, by index. Both are total, so an access outside them is visible as an index.
* `Server.trace` records what an observer sees: handler calls, stores to `reply_buf` and the bytes
  given to `send`.
-/

namespace Xvc

open ByteMem

/-- `unsigned` arithmetic. -/
def u32 (n : Nat) : Nat := n % 2 ^ 32

/-- `size_t`, `uint64_t`, `unsigned long` and pointer arithmetic. -/
def u64 (n : Nat) : Nat := n % 2 ^ 64

theorem u32_of_lt {n : Nat} (h : n < 2 ^ 32) : u32 n = n := Nat.mod_eq_of_lt h

theorem u64_of_lt {n : Nat} (h : n < 2 ^ 64) : u64 n = n := Nat.mod_eq_of_lt h

/-- `ptrdiff_t`: the signed 64-bit difference of two pointers. -/
def ptrDiff (p q : Nat) : Int :=
  let d := u64 (p + 2 ^ 64 - q)
  if d < 2 ^ 63 then d else (d : Int) - 2 ^ 64

/-- The bytes of a C string literal. -/
def ascii (s : String) : List UInt8 := s.toList.map fun c => UInt8.ofNat c.toNat

/-- The decimal digits of `%u`. -/
def decimal (n : Nat) : List UInt8 := (Nat.toDigits 10 n).map fun c => UInt8.ofNat c.toNat

/-- `MAX_PACKET_LEN`; the static `max_packet_len` is never assigned. -/
def maxPacketLen : Nat := 10000

/-- `char pending_error[1024]`: a NUL-terminated string. -/
structure PendingError where
  text : List UInt8
  fits : text.length < 1024
  noNul : ∀ b ∈ text, b ≠ 0

namespace PendingError

/-- No error is pending. -/
def none : PendingError := ⟨[], by decide, by simp⟩

/-- What `vsnprintf` leaves in the array for the formatted text `l`. -/
def ofText (l : List UInt8) : PendingError where
  text := (l.takeWhile (· ≠ 0)).take 1023
  fits := by simp only [List.length_take]; omega
  noNul b hb := by
    have := List.all_eq_true.mp List.all_takeWhile b (List.mem_of_mem_take hb)
    simpa using this

theorem ofText_cons_ne_nil {b : UInt8} (hb : b ≠ 0) (l : List UInt8) : (ofText (b :: l)).text ≠ [] := by
  simp [ofText, hb]

end PendingError

/-- `struct XvcClient`, less its connection and buffer fields. `locked` is `mem/versal`'s only. -/
structure XvcClient where
  locked : Int := 0
  enableLocking : Int := 0
  enableStatus : Int := 0
  pendingError : PendingError := .none

namespace XvcClient

/-- `c->pending_error[0] != '\0'`. -/
def failed (c : XvcClient) : Bool := !c.pendingError.text.isEmpty

/-- `xvcserver_set_error`, with the text its format produces. -/
def setError (c : XvcClient) (text : List UInt8) : XvcClient :=
  { c with pendingError := .ofText text }

@[simp] theorem setError_locked (c : XvcClient) (t : List UInt8) : (c.setError t).locked = c.locked := rfl
@[simp] theorem setError_enableLocking (c : XvcClient) (t : List UInt8) :
    (c.setError t).enableLocking = c.enableLocking := rfl
@[simp] theorem setError_enableStatus (c : XvcClient) (t : List UInt8) :
    (c.setError t).enableStatus = c.enableStatus := rfl

theorem failed_iff (c : XvcClient) : c.failed = true ↔ c.pendingError.text ≠ [] := by
  simp [failed]

end XvcClient

/-- A handler call with its arguments; buffers are the operand bytes they designate. -/
inductive Call where
  | setTck (nsperiod : Nat)
  | shiftTmsTdi (count : Nat) (tms tdi : List UInt8)
  | lock (timeout : Nat)
  | unlock
  | registerShift (instruction : Bool) (flags state count : Nat) (tdi : List UInt8)
  | state (flags state count : Nat)
  | mrd (flags addr numBytes : Nat)
  | mwr (flags addr numBytes : Nat) (data : List UInt8)
  | idpc (flags numWords : Nat) (data : List UInt8)
  | edpc (flags : Nat)
  deriving DecidableEq

/-- What an observer of the server sees. -/
inductive Event where
  | call (c : Call)
  | flush
  /-- A store to `reply_buf[i .. i + n)`. -/
  | store (i n : Nat)
  /-- A call through a NULL function pointer. -/
  | nullCall
  /-- `send_packet` and its result. -/
  | send (bytes : List UInt8) (rval : Int)
  deriving DecidableEq

/-- The handler calls of a trace, `flush` apart. -/
def callsOf (t : List Event) : List Call :=
  t.filterMap fun | .call c => some c | _ => none

/-- The bytes given to `send_packet`. -/
def sentOf (t : List Event) : List UInt8 :=
  t.flatMap fun | .send bs _ => bs | _ => []

@[simp] theorem callsOf_append (t t' : List Event) : callsOf (t ++ t') = callsOf t ++ callsOf t' :=
  List.filterMap_append

@[simp] theorem sentOf_append (t t' : List Event) : sentOf (t ++ t') = sentOf t ++ sentOf t' :=
  List.flatMap_append

@[simp] theorem callsOf_nil : callsOf [] = [] := rfl
@[simp] theorem sentOf_nil : sentOf [] = [] := rfl

/-- The receive buffer of a connection, `malloc(c->buf_max)`: an object of user space, which is
the lower half of the address space. -/
structure RxBuffer where
  buf : Nat
  bufMax : Nat
  userSpace : buf + bufMax ≤ 2 ^ 63
  unsigned : bufMax < 2 ^ 32

/-- The state of a server while it serves one connection; `σ` is what `client_data` points to. -/
structure Server (σ : Type) where
  rx : RxBuffer
  bufLen : Nat
  mem : ByteMem
  c : XvcClient
  clientData : σ
  replyBuf : ByteMem
  replyLen : Nat
  trace : List Event

/-- What one callback did: its new state, the text of its last `xvcserver_set_error`, and its
stores to the reply buffer (index and bytes). -/
structure CallResult (σ : Type) where
  clientData : σ
  error : Option (List UInt8) := none
  stores : List (Nat × List UInt8) := []

namespace Server

variable {σ : Type}

/-- `cend`: one past the last received byte. -/
def cend (s : Server σ) : Nat := s.rx.buf + s.bufLen

/-- The end of what was received is far from the end of the address space. -/
theorem cend_le (s : Server σ) (h : s.bufLen ≤ s.rx.bufMax) : s.cend ≤ 2 ^ 63 := by
  have := s.rx.userSpace
  unfold cend; omega

/-- A store to the reply buffer. -/
def store (s : Server σ) (i : Nat) (bs : List UInt8) : Server σ :=
  { s with replyBuf := write s.replyBuf i bs, trace := s.trace ++ [.store i bs.length] }

/-- `memset(reply_buf + i, 0, n)`. -/
def clear (s : Server σ) (i n : Nat) : Server σ :=
  { s with replyBuf := memset s.replyBuf i 0 n, trace := s.trace ++ [.store i n] }

/-- `reply_len += n`. -/
def extend (s : Server σ) (n : Nat) : Server σ := { s with replyLen := u32 (s.replyLen + n) }

/-- The effects of a callback's stores. -/
def stores (s : Server σ) (ws : List (Nat × List UInt8)) : Server σ :=
  ws.foldl (fun s w => s.store w.1 w.2) s

/-- A callback was called with arguments `c` and did `r`. -/
def callback (s : Server σ) (c : Call) (r : CallResult σ) : Server σ :=
  let s := { s with clientData := r.clientData, trace := s.trace ++ [Event.call c] }
  let s := s.stores r.stores
  match r.error with
  | some t => { s with c := s.c.setError t }
  | none => s

/-- `reply_status`. -/
def replyStatus (s : Server σ) : Server σ :=
  let s := if s.replyLen < maxPacketLen then s.store s.replyLen [if s.c.failed then 1 else 0] else s
  s.extend 1

/-- The loop of `reply_uleb128`; a 64-bit value has at most ten groups. Returns `pos`. -/
def replyUlebLoop (s : Server σ) : Nat → Nat → Nat → Server σ × Nat
  | 0, _, pos => (s, pos)
  | k + 1, value, pos =>
    let b := if 0x80 ≤ value then UInt8.ofNat ((value &&& 0x7f) ||| 0x80) else UInt8.ofNat (value &&& 0x7f)
    let i := u32 (s.replyLen + pos)
    let s := if i < maxPacketLen then s.store i [b] else s
    if value >>> 7 ≠ 0 then s.replyUlebLoop k (value >>> 7) (pos + 1) else (s, pos + 1)

/-- `reply_uleb128`. -/
def replyUleb128 (s : Server σ) (value : Nat) : Server σ :=
  let r := s.replyUlebLoop 10 value 0
  r.1.extend r.2

/-- `memcpy(reply_buf + reply_len, l, bytes); reply_len += bytes`. -/
def replyBytes (s : Server σ) (l : List UInt8) : Server σ := (s.store s.replyLen l).extend l.length

/-- `reply_with_optional_status:`. -/
def replyOptionalStatus (s : Server σ) : Server σ :=
  if s.c.enableStatus = 0 then s else s.replyStatus

/-- The body of a branch that only runs without a pending error. -/
def unlessFailed (s : Server σ) (f : Server σ → Server σ) : Server σ :=
  if s.c.failed then s else f s

/-- A data reply of `n` bytes: zeros when an error is pending, else what the handler stored. -/
def replyData (s : Server σ) (n : Nat) : Server σ :=
  (if s.c.failed then s.clear s.replyLen n else s).extend n

/-- `c->pending_error[0] = '\0'`. -/
def clearError (s : Server σ) : Server σ := { s with c := { s.c with pendingError := .none } }

/-! ## No reply touches what was received -/

/-- The receive buffer and its contents. -/
def received (s : Server σ) : RxBuffer × Nat × ByteMem := (s.rx, s.bufLen, s.mem)

@[simp] theorem received_store (s : Server σ) (i : Nat) (bs : List UInt8) :
    (s.store i bs).received = s.received := rfl

@[simp] theorem received_clear (s : Server σ) (i n : Nat) : (s.clear i n).received = s.received := rfl

@[simp] theorem received_extend (s : Server σ) (n : Nat) : (s.extend n).received = s.received := rfl

@[simp] theorem received_clearError (s : Server σ) : s.clearError.received = s.received := rfl

@[simp] theorem received_stores (s : Server σ) (ws : List (Nat × List UInt8)) :
    (s.stores ws).received = s.received := by
  induction ws generalizing s with
  | nil => rfl
  | cons w ws ih => exact ih (s.store w.1 w.2)

@[simp] theorem received_callback (s : Server σ) (c : Call) (r : CallResult σ) :
    (s.callback c r).received = s.received := by
  unfold callback
  cases r.error with
  | none => exact received_stores _ _
  | some t => exact received_stores _ _

@[simp] theorem received_replyStatus (s : Server σ) : s.replyStatus.received = s.received := by
  unfold replyStatus; split <;> simp

/-- What a store below `max_packet_len` keeps, the loop of `reply_uleb128` keeps. -/
theorem replyUlebLoop_keeps {R : Server σ → Server σ → Prop} (hrefl : ∀ s, R s s)
    (htrans : ∀ {s t u}, R s t → R t u → R s u) (hstore : ∀ s i b, i < maxPacketLen → R s (s.store i [b]))
    (s : Server σ) (k value pos : Nat) : R s (s.replyUlebLoop k value pos).1 := by
  induction k generalizing s value pos with
  | zero => exact hrefl s
  | succ k ih =>
    rw [replyUlebLoop]
    generalize (if 0x80 ≤ value then UInt8.ofNat ((value &&& 0x7f) ||| 0x80) else UInt8.ofNat (value &&& 0x7f)) = b
    have hbyte : R s (if u32 (s.replyLen + pos) < maxPacketLen then s.store (u32 (s.replyLen + pos)) [b] else s) := by
      split
      · next hlt => exact hstore s _ b hlt
      · exact hrefl s
    split
    · exact htrans hbyte (ih _ _ _)
    · exact hbyte

theorem received_replyUlebLoop (s : Server σ) (k value pos : Nat) :
    (s.replyUlebLoop k value pos).1.received = s.received :=
  s.replyUlebLoop_keeps (R := fun s t => t.received = s.received) (fun _ => rfl) (fun h h' => h'.trans h)
    (fun _ _ _ _ => rfl) k value pos

@[simp] theorem received_replyUleb128 (s : Server σ) (value : Nat) :
    (s.replyUleb128 value).received = s.received := received_replyUlebLoop s 10 value 0

@[simp] theorem received_replyBytes (s : Server σ) (l : List UInt8) :
    (s.replyBytes l).received = s.received := rfl

@[simp] theorem received_replyOptionalStatus (s : Server σ) :
    s.replyOptionalStatus.received = s.received := by
  unfold replyOptionalStatus; split <;> simp

theorem received_unlessFailed {s : Server σ} {f : Server σ → Server σ}
    (h : (f s).received = s.received) : (s.unlessFailed f).received = s.received := by
  unfold unlessFailed; split
  · rfl
  · exact h

@[simp] theorem received_replyData (s : Server σ) (n : Nat) : (s.replyData n).received = s.received := by
  unfold replyData; split <;> simp

theorem rx_of_received {s s' : Server σ} (h : s'.received = s.received) : s'.rx = s.rx :=
  (Prod.mk.inj h).1

theorem bufLen_of_received {s s' : Server σ} (h : s'.received = s.received) : s'.bufLen = s.bufLen :=
  (Prod.mk.inj (Prod.mk.inj h).2).1

end Server

/-- The loop of `get_uleb128` with `k` bytes between `p` and `bufend`: past `bufend` the cursor
still moves, over a virtual zero byte. A shift amount of 64 or more is undefined in C; the
target's instruction takes it modulo 64. -/
def getUlebLoop (mem : ByteMem) : Nat → Nat → Nat → Nat → Nat × Nat
  | 0, p, _, value => (value, p + 1)
  | k + 1, p, i, value =>
    let n := (mem p).toNat
    let value := Leb128.addGroup 64 value i n
    if n &&& 0x80 = 0 then (value, p + 1) else getUlebLoop mem k (p + 1) (i + 7) value

/-- `get_uleb128`: the value and the new cursor. -/
def getUleb128 (mem : ByteMem) (p bufend : Nat) : Nat × Nat := getUlebLoop mem (bufend - p) p 0 0

/-- `get_uint_le` of the bytes at `buf`. -/
def getUintLe (buf : List UInt8) : Nat := buf.foldr (fun b value => u32 (value <<< 8) ||| b.toNat) 0

theorem getUintLe_lt (buf : List UInt8) : getUintLe buf < 2 ^ 32 := by
  cases buf with
  | nil => decide
  | cons b l =>
    have hb : b.toNat < 2 ^ 32 := Nat.lt_of_lt_of_le b.toNat_lt (by decide)
    exact Nat.or_lt_two_pow (Nat.mod_lt _ (by decide)) hb

/-- `set_uint_le`: the bytes it stores. -/
def setUintLe (len value : Nat) : List UInt8 := leBytes len (u32 value)

/-! ## `get_uleb128` is the LEB128 reader -/

theorem getUlebLoop_eq (mem : ByteMem) (k p i value : Nat) :
    getUlebLoop mem k p i value =
      ((Leb128.read 64 (slice mem p k) i value).1, p + (Leb128.read 64 (slice mem p k) i value).2) := by
  induction k generalizing p i value with
  | zero => rfl
  | succ k ih =>
    rw [getUlebLoop, slice_succ, Leb128.read]
    split
    · rfl
    · rw [ih]
      simp only [Prod.mk.injEq, true_and]
      omega

theorem getUleb128_eq (mem : ByteMem) (p bufend : Nat) :
    getUleb128 mem p bufend =
      ((Leb128.read 64 (slice mem p (bufend - p)) 0 0).1,
        p + (Leb128.read 64 (slice mem p (bufend - p)) 0 0).2) :=
  getUlebLoop_eq mem (bufend - p) p 0 0

/-- The cursor moves, and at most one byte past the end. -/
theorem getUleb128_cursor (mem : ByteMem) (p bufend : Nat) :
    p < (getUleb128 mem p bufend).2 ∧ (getUleb128 mem p bufend).2 ≤ max p bufend + 1 := by
  rw [getUleb128_eq]
  have := Leb128.read_used 64 (slice mem p (bufend - p)) 0 0
  simp only [length_slice] at this
  omega

theorem getUleb128_lt (mem : ByteMem) (p bufend : Nat) : (getUleb128 mem p bufend).1 < 2 ^ 64 := by
  rw [getUleb128_eq]
  exact Leb128.read_lt (by decide) _ _

end Xvc
