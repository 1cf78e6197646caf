import Xvc.Server.Client
import Xvc.ZynqMP.HandleData

/-!
# Sessions of `zynqMP`

`handle_data` of `jtag/zynqMP/src/user/xvcServer.c` with `USE_IOCTL`, and the loop of `main` that calls it, on one
connection.

* `Env`: how `read` cuts the stream, how `write`, the kernel and the stack come out.
* `Conn.sread`: what the loop of `read` gets does not depend on the cuts (`sread_eq`).
* `turn`: a pass of the `do`; `handleData`, `serve`: the two loops over it.
* `Msg`: the messages of a client; `session_serial` is what a session of them comes to.
-/

namespace Xvc
namespace ZynqMP

open ByteMem BitSerial Zynq7000

variable {S : Type}

/-! ## The connection -/

/-- What is outside of `handle_data`, for each call of `read` and `write`: the bytes that `read` returns at most,
those that `write` leaves; and where a vector is shifted, what the arrays held and what the kernel does. -/
structure Env where
  chunk : Nat → Nat
  unsent : Nat → Nat
  buffer : Nat → ByteMem
  result : Nat → ByteMem
  kernel : Nat → Kernel

/-- The bytes that the client sends from here to the end of its stream, those written to it, the calls up to
now, and the bridge. -/
structure Conn (S : Type) where
  rest : List UInt8
  written : List UInt8
  calls : Nat
  hw : S

/-- `read`: from one to `len` bytes, none at the end of the stream. -/
def Conn.read (e : Env) (len : Nat) (c : Conn S) : Conn S × List UInt8 :=
  let n := max 1 (min (e.chunk c.calls) len)
  ({ c with rest := c.rest.drop n, calls := c.calls + 1 }, c.rest.take n)

/-- `write`: how many bytes were taken. -/
def Conn.write (e : Env) (l : List UInt8) (c : Conn S) : Conn S × Nat :=
  let n := l.length - notCopied (e.unsent c.calls) l.length
  ({ c with written := c.written ++ l.take n, calls := c.calls + 1 }, n)

/-- The `while (len)` loop of `sread`, for at most `fuel` calls: the bytes, none at the end of the stream. -/
def sreadLoop (e : Env) : (fuel len : Nat) → Conn S → Conn S × Option (List UInt8)
  | _, 0, c => (c, some [])
  | 0, _ + 1, c => (c, none)
  | fuel + 1, len + 1, c =>
    let r := c.read e (len + 1)
    if r.2.length = 0 then (r.1, none)
    else
      let q := sreadLoop e fuel (len + 1 - r.2.length) r.1
      (q.1, q.2.map (r.2 ++ ·))

/-- `sread`; every call of `read` returns a byte or ends it. -/
def Conn.sread (e : Env) (len : Nat) (c : Conn S) : Conn S × Option (List UInt8) := sreadLoop e len len c

/-! ## `handle_data` -/

/-- A pass of the `do`: the value to return, none to go on. -/
abbrev Pass (S : Type) := Conn S × Option Int

/-- `if (sread(…) != 1) return 1`. -/
def Conn.reading (e : Env) (len : Nat) (c : Conn S) (k : Conn S → List UInt8 → Pass S) : Pass S :=
  let r := c.sread e len
  match r.2 with
  | none => (r.1, some 1)
  | some l => k r.1 l

/-- `if (write(…) != …) return 1`. -/
def Conn.replying (e : Env) (l : List UInt8) (c : Conn S) (ret : Option Int) : Pass S :=
  let r := c.write e l
  if r.2 = l.length then (r.1, ret) else (r.1, some 1)

/-- `xvcInfo`. -/
def xvcInfo : List UInt8 := ascii "xvcServer_v1.0:" ++ decimal 2048 ++ ascii "\n"

/-- The pass, once a length has been read. -/
def turnShift (hw : Bridge S) (e : Env) (len : Int) (c : Conn S) : Pass S :=
  if exceeds len then (c, some 1)
  else
    c.reading e (nrBytes len * 2).toNat fun c input =>
      let i := c.calls
      let b := shiftIoctl hw (e.kernel i) len input (e.buffer i) (e.result i) c.hw
      match b.reply with
      | none => ({ c with hw := b.hw }, some (-(ioctlCall hw (e.kernel i) len input (e.buffer i) c.hw).status))
      | some result => { c with hw := b.hw }.replying e result none

/-- A pass of `handle_data`. -/
def turn (hw : Bridge S) (e : Env) (c : Conn S) : Pass S :=
  c.reading e 2 fun c cmd =>
    if cmd = ascii "ge" then
      c.reading e 6 fun c _ => c.replying e xvcInfo (some 0)
    else if cmd = ascii "se" then
      c.reading e 9 fun c cmd => c.replying e ((cmd.drop 5).take 4) (some 0)
    else if cmd = ascii "sh" then
      c.reading e 4 fun c _ =>
        c.reading e 4 fun c len => turnShift hw e (int32 (ofLe len)) c
    else (c, some 1)

/-- `handle_data`, for at most `fuel` passes: what it returns. -/
def handleData (hw : Bridge S) (e : Env) : (fuel : Nat) → Conn S → Option (Conn S × Int)
  | 0, _ => none
  | fuel + 1, c =>
    let r := turn hw e c
    match r.2 with
    | none => handleData hw e fuel r.1
    | some ret => some (r.1, ret)

/-- The loop of `main` on the connection, for at most `entries` calls of `handle_data`: until one of them does not
return 0. -/
def serve (hw : Bridge S) (e : Env) (fuel : Nat) : (entries : Nat) → Conn S → Option (Conn S × Int)
  | 0, _ => none
  | entries + 1, c =>
    match handleData hw e fuel c with
    | none => none
    | some r => if r.2 ≠ 0 then some r else serve hw e fuel entries r.1

/-! ## Reading and writing -/

/-- Nothing fails: each `write` takes all its bytes, and the kernel does as it should. -/
structure Env.Succeeds (e : Env) : Prop where
  unsent : ∀ i, e.unsent i = 0
  kernel : ∀ i, (e.kernel i).Succeeds

section Reading

variable {e : Env}

/-- Whatever the cuts, `sread` gets the next `len` bytes. The induction is on the calls. -/
theorem sreadLoop_eq (fuel len : Nat) (hfuel : len ≤ fuel) (c : Conn S) (h : len ≤ c.rest.length) :
    ∃ i, sreadLoop e fuel len c = ({ c with rest := c.rest.drop len, calls := i }, some (c.rest.take len)) := by
  induction fuel generalizing len c with
  | zero =>
    obtain rfl : len = 0 := by omega
    exact ⟨c.calls, rfl⟩
  | succ fuel ih =>
    cases len with
    | zero => exact ⟨c.calls, rfl⟩
    | succ len =>
      obtain ⟨n, hn, hpos, hle⟩ : ∃ n, max 1 (min (e.chunk c.calls) (len + 1)) = n ∧ 0 < n ∧ n ≤ len + 1 :=
        ⟨_, rfl, by omega, by omega⟩
      have hlen : (c.rest.take n).length = n := by rw [List.length_take]; omega
      obtain ⟨i, hi⟩ := ih (len + 1 - n) (by omega) { c with rest := c.rest.drop n, calls := c.calls + 1 }
        (by simp only [List.length_drop]; omega)
      refine ⟨i, ?_⟩
      rw [sreadLoop]
      simp only [Conn.read, hn, hlen, if_neg (show n ≠ 0 by omega), hi, Option.map_some, List.drop_drop]
      rw [show n + (len + 1 - n) = len + 1 by omega, ← List.take_add, show n + (len + 1 - n) = len + 1 by omega]

theorem sread_eq (e : Env) (len : Nat) {a l : List UInt8} (hlen : a.length = len) (c : Conn S) (h : c.rest = a ++ l) :
    ∃ i, c.sread e len = ({ c with rest := l, calls := i }, some a) := by
  obtain ⟨i, hi⟩ := sreadLoop_eq (e := e) len len (Nat.le_refl _) c (by rw [h, List.length_append]; omega)
  rw [h, List.drop_left' hlen, List.take_left' hlen] at hi
  exact ⟨i, hi⟩

/-- The end of the stream. -/
theorem sread_end {len : Nat} (hpos : 0 < len) (c : Conn S) (h : c.rest = []) :
    c.sread e len = ({ c with calls := c.calls + 1 }, none) := by
  obtain ⟨n, rfl⟩ : ∃ n, len = n + 1 := ⟨len - 1, by omega⟩
  rw [Conn.sread, sreadLoop]
  simp only [Conn.read, h, List.take_nil, List.drop_nil, List.length_nil, if_true]

theorem reading_eq (e : Env) (len : Nat) {a l : List UInt8} (hlen : a.length = len) (c : Conn S) (h : c.rest = a ++ l) :
    ∃ i, ∀ k : Conn S → List UInt8 → Pass S, c.reading e len k = k { c with rest := l, calls := i } a := by
  obtain ⟨i, hi⟩ := sread_eq e len hlen c h
  exact ⟨i, fun k => by rw [Conn.reading, hi]⟩

theorem replying_eq (he : e.Succeeds) (l : List UInt8) (c : Conn S) (ret : Option Int) :
    c.replying e l ret = ({ c with written := c.written ++ l, calls := c.calls + 1 }, ret) := by
  unfold Conn.replying Conn.write
  simp only [he.unsent, notCopied_zero, Nat.sub_zero, List.take_length, if_true]

end Reading

/-! ## Messages -/

/-- The messages of the protocol; the vectors of a shift have as many bytes as its bits need. -/
inductive Msg where
  | getinfo
  | settck (period : List UInt8) (h : period.length = 4)
  | shift (len : Nat) (tms tdi : List UInt8) (hlen : len ≤ 8192) (htms : tms.length = (len + 7) / 8)
      (htdi : tdi.length = (len + 7) / 8)

namespace Msg

/-- What the client sends. -/
def enc : Msg → List UInt8
  | getinfo => ascii "getinfo:"
  | settck period _ => ascii "settck:" ++ period
  | shift len tms tdi _ _ _ => ascii "shift:" ++ leBytes 4 len ++ tms ++ tdi

/-- The clocks that it asks for. -/
def clocks : Msg → List (Bool × Bool)
  | shift len tms tdi _ _ _ => (vectorBits tms len).zip (vectorBits tdi len)
  | _ => []

/-- What is fixed of the reply. -/
def Answers : Msg → List UInt8 → Prop
  | getinfo, reply => reply = ascii "xvcServer_v1.0:2048\n"
  | settck period _, reply => reply = period
  | shift len _ _ _ _ _, reply => reply.length = (len + 7) / 8

/-- The TDO bits that the reply carries. -/
def tdo : Msg → List UInt8 → List Bool
  | shift len _ _ _ _ _, reply => vectorBits reply len
  | _, _ => []

end Msg

theorem xvcInfo_eq : xvcInfo = ascii "xvcServer_v1.0:2048\n" := by decide

/-- The messages `ms` from `r` to `q`, with the replies `replies`: the device gets their clocks, and the replies
hold the answers of one run of it. -/
structure Served (step : S → Bool → Bool → S × Bool) (ms : List Msg) (r q : Regs S) (replies : List (List UInt8)) :
    Prop where
  answers : List.Forall₂ Msg.Answers ms replies
  state : q.state = (run step r.state (ms.flatMap Msg.clocks)).1
  clocks : clocks q.triggers = clocks r.triggers ++ ms.flatMap Msg.clocks
  tdo : (List.zipWith Msg.tdo ms replies).flatten = (run step r.state (ms.flatMap Msg.clocks)).2

variable {step : S → Bool → Bool → S × Bool} {dev : Device S}

theorem Served.none (r : Regs S) : Served step [] r r [] := ⟨.nil, rfl, (List.append_nil _).symm, rfl⟩

/-- A message, and what follows it. -/
theorem Served.cons {m : Msg} {ms : List Msg} {r q p : Regs S} {reply : List UInt8} {replies : List (List UInt8)}
    (h : Served step [m] r q [reply]) (h' : Served step ms q p replies) :
    Served step (m :: ms) r p (reply :: replies) := by
  obtain ⟨h1, h2, h3, h4⟩ := h
  simp only [List.flatMap_cons, List.flatMap_nil, List.append_nil, List.zipWith_cons_cons, List.zipWith_nil_right,
    List.flatten_cons, List.flatten_nil] at h2 h3 h4
  refine ⟨.cons (List.forall₂_cons.mp h1).1 h'.answers, ?_, ?_, ?_⟩
  · rw [List.flatMap_cons, run_append, ← h2]
    exact h'.state
  · rw [List.flatMap_cons, h'.clocks, h3, List.append_assoc]
  · rw [List.flatMap_cons, run_append, ← h2, List.zipWith_cons_cons, List.flatten_cons, h4, h'.tdo]

/-- A message that asks for no clocks. -/
theorem Served.still {m : Msg} (hm : m.clocks = []) {reply : List UInt8} (hreply : m.Answers reply)
    (htdo : m.tdo reply = []) (r : Regs S) : Served step [m] r r [reply] := by
  refine ⟨.cons hreply .nil, ?_, ?_, ?_⟩
  · rw [List.flatMap_cons, hm]
    rfl
  · rw [List.flatMap_cons, hm]
    exact (List.append_nil _).symm
  · rw [List.flatMap_cons, hm, List.zipWith_cons_cons, List.flatten_cons, htdo]
    rfl

/-- A shift, as the driver makes it. -/
theorem Served.shift {len : Nat} {tms tdi : List UInt8} (hlen : len ≤ 8192) (htms : tms.length = (len + 7) / 8)
    (htdi : tdi.length = (len + 7) / 8) {buffer : ByteMem} {r q : Regs S} {reply : List UInt8}
    (h : BitSerially step (request len (vectorsRead (tms ++ tdi) buffer)) r q reply) :
    Served step [.shift len tms tdi hlen htms htdi] r q [reply] := by
  have hclocks := (request_clocks hlen (vectorsRead (tms ++ tdi) buffer)).trans (vectors_write htms htdi buffer)
  have hu : (request len (vectorsRead (tms ++ tdi) buffer)).length = len := u32OfInt_natCast (by omega)
  obtain ⟨h1, h2, h3, -, h5⟩ := h
  rw [hclocks] at h2 h3 h5
  rw [hu] at h1 h5
  refine ⟨.cons h1 .nil, ?_, ?_, ?_⟩
  · rw [List.flatMap_cons, List.flatMap_nil, List.append_nil]
    exact h2
  · rw [List.flatMap_cons, List.flatMap_nil, List.append_nil]
    exact h3
  · rw [List.flatMap_cons, List.flatMap_nil, List.append_nil, List.zipWith_cons_cons, List.flatten_cons]
    exact (List.append_nil _).trans h5

/-! ## A session -/

/-- **A pass** at a whole message: it is served, and the pass is not the last. -/
theorem turn_msg (ht : dev.InTime) (hs : dev.Serial step) {e : Env} (he : e.Succeeds) (m : Msg) (c : Conn (Regs S))
    {l : List UInt8} (h : c.rest = m.enc ++ l) :
    ∃ q reply, Served step [m] c.hw q [reply] ∧ ∃ i next, (next = none ∨ next = some 0) ∧
      turn (debugBridge dev) e c = (⟨l, c.written ++ reply, i, q⟩, next) := by
  cases m with
  | getinfo =>
    obtain ⟨i, hi⟩ := reading_eq e 2 (a := ascii "ge") (l := ascii "tinfo:" ++ l) rfl c h
    obtain ⟨j, hj⟩ := reading_eq e 6 (a := ascii "tinfo:") (l := l) rfl
      { c with rest := ascii "tinfo:" ++ l, calls := i } rfl
    refine ⟨c.hw, xvcInfo, .still (m := .getinfo) rfl xvcInfo_eq rfl c.hw, j + 1, some 0, .inr rfl, ?_⟩
    rw [turn, hi, if_pos rfl, hj, replying_eq he]
  | settck period hperiod =>
    obtain ⟨i, hi⟩ := reading_eq e 2 (a := ascii "se") (l := ascii "ttck:" ++ period ++ l) rfl c h
    obtain ⟨j, hj⟩ := reading_eq e 9 (a := ascii "ttck:" ++ period) (l := l)
      (by rw [List.length_append, hperiod]; rfl) { c with rest := ascii "ttck:" ++ period ++ l, calls := i } rfl
    have hdrop : ((ascii "ttck:" ++ period).drop 5).take 4 = period := by
      rw [List.drop_left' (show (ascii "ttck:").length = 5 from rfl), List.take_of_length_le (Nat.le_of_eq hperiod)]
    refine ⟨c.hw, period, .still (m := .settck period hperiod) rfl rfl rfl c.hw, j + 1, some 0, .inr rfl, ?_⟩
    rw [turn, hi, if_neg (by decide), if_pos rfl, hj, hdrop, replying_eq he]
  | shift len tms tdi hlen htms htdi =>
    have hsplit : c.rest = ascii "sh" ++ (ascii "ift:" ++ (leBytes 4 len ++ ((tms ++ tdi) ++ l))) := by
      rw [h]
      simp only [Msg.enc, List.append_assoc]
      rfl
    obtain ⟨i, hi⟩ := reading_eq e 2 rfl c hsplit
    obtain ⟨i', hi'⟩ := reading_eq e 4 (a := ascii "ift:") rfl
      { c with rest := ascii "ift:" ++ (leBytes 4 len ++ ((tms ++ tdi) ++ l)), calls := i } rfl
    obtain ⟨j, hj⟩ := reading_eq e 4 (length_leBytes 4 len)
      { c with rest := leBytes 4 len ++ ((tms ++ tdi) ++ l), calls := i' } rfl
    have hint : int32 (ofLe (leBytes 4 len)) = len := by
      rw [ofLe_leBytes, Nat.mod_eq_of_lt (by omega)]
      exact int32_of_range (by omega) (by omega)
    have hn : (nrBytes len * 2).toNat = (len + 7) / 8 * 2 := by
      rw [nrBytes_natCast hlen]
      omega
    obtain ⟨j', hj'⟩ := reading_eq e ((len + 7) / 8 * 2) (a := tms ++ tdi) (l := l)
      (by rw [List.length_append, htms, htdi]; omega) { c with rest := (tms ++ tdi) ++ l, calls := j } rfl
    obtain ⟨q, reply, hq, hshift⟩ := shiftIoctl_spec ht hs hlen (tms ++ tdi) (e.buffer j') (e.result j') c.hw
    refine ⟨q, reply, .shift hlen htms htdi hq, j' + 1, none, .inl rfl, ?_⟩
    rw [turn, hi, if_neg (by decide), if_neg (by decide), if_pos rfl, hi', hj, hint, turnShift, exceeds_natCast hlen,
      if_neg (by decide), hn, hj']
    simp only [hshift _ (he.kernel j'), replying_eq he]

/-- At the end of the stream. -/
theorem turn_end (hw : Bridge S) (e : Env) {c : Conn S} (h : c.rest = []) :
    turn hw e c = ({ c with calls := c.calls + 1 }, some 1) := by
  rw [turn, Conn.reading, sread_end (by decide) c h]

/-- The loop of `main`, once `handle_data` has come to `r`. -/
def resume (hw : Bridge S) (e : Env) (fuel entries : Nat) : Option (Conn S × Int) → Option (Conn S × Int)
  | none => none
  | some r => if r.2 ≠ 0 then some r else serve hw e fuel entries r.1

theorem serve_succ (hw : Bridge S) (e : Env) (fuel entries : Nat) (c : Conn S) :
    serve hw e fuel (entries + 1) c = resume hw e fuel entries (handleData hw e fuel c) := by
  rw [serve]
  cases handleData hw e fuel c with
  | none => rfl
  | some r => rfl

/-- The messages `ms` lie ahead, in `handle_data` with `passes` left and in `main` with `entries`. The induction is on
the messages: each takes a pass, or a call. -/
theorem resume_session (ht : dev.InTime) (hs : dev.Serial step) {e : Env} (he : e.Succeeds) {fuel : Nat} (ms : List Msg)
    (hfuel : ms.length < fuel) (passes entries : Nat) (hpasses : ms.length < passes) (hentries : ms.length ≤ entries)
    (c : Conn (Regs S)) (h : c.rest = ms.flatMap Msg.enc) :
    ∃ q replies, Served step ms c.hw q replies ∧ ∃ i ret, ret ≠ 0 ∧
      resume (debugBridge dev) e fuel entries (handleData (debugBridge dev) e passes c) =
        some (⟨[], c.written ++ replies.flatten, i, q⟩, ret) := by
  induction ms generalizing passes entries c with
  | nil =>
    obtain ⟨passes, rfl⟩ : ∃ p, passes = p + 1 := ⟨passes - 1, by omega⟩
    refine ⟨c.hw, [], .none c.hw, c.calls + 1, 1, by decide, ?_⟩
    have hrest : c.rest = [] := h
    rw [handleData, turn_end _ _ hrest]
    simp only [resume, hrest, List.flatten_nil, List.append_nil]
    rfl
  | cons m ms ih =>
    obtain ⟨passes, rfl⟩ : ∃ p, passes = p + 1 := ⟨passes - 1, by omega⟩
    rw [List.length_cons] at hfuel hpasses hentries
    obtain ⟨q, reply, hq, i, next, hnext, hturn⟩ := turn_msg ht hs he m c h
    have honward : ∃ passes' entries', ms.length < passes' ∧ ms.length ≤ entries' ∧
        resume (debugBridge dev) e fuel entries (handleData (debugBridge dev) e (passes + 1) c) =
          resume (debugBridge dev) e fuel entries'
            (handleData (debugBridge dev) e passes' ⟨ms.flatMap Msg.enc, c.written ++ reply, i, q⟩) := by
      rw [handleData, hturn]
      rcases hnext with rfl | rfl
      · exact ⟨passes, entries, by omega, by omega, rfl⟩
      · -- `handle_data` returns 0 and is called again.
        obtain ⟨entries, rfl⟩ : ∃ n, entries = n + 1 := ⟨entries - 1, by omega⟩
        exact ⟨fuel, entries, by omega, by omega, serve_succ _ _ _ _ _⟩
    obtain ⟨passes', entries', h1, h2, heq⟩ := honward
    obtain ⟨p, replies, hp, j, ret, hret, hrun⟩ :=
      ih (by omega) passes' entries' h1 h2 ⟨ms.flatMap Msg.enc, c.written ++ reply, i, q⟩ rfl
    refine ⟨p, reply :: replies, hq.cons hp, j, ret, hret, ?_⟩
    rw [heq, hrun, List.flatten_cons, List.append_assoc]

/-- **A session.** With any device that takes one bit a clock and is in time, from any registers, and when nothing
fails: however `read` cuts the stream of the messages `ms`, what is written are the replies to them, one after the
other, the device gets exactly their clocks, and the TDO bits are those of one run; the end of the stream makes
`handle_data` return another value than 0, with nothing more written. -/
theorem session_serial (ht : dev.InTime) (hs : dev.Serial step) {e : Env} (he : e.Succeeds) (ms : List Msg)
    (c : Conn (Regs S)) (h : c.rest = ms.flatMap Msg.enc) {fuel entries : Nat} (hfuel : ms.length < fuel)
    (hentries : ms.length < entries) :
    ∃ q replies, Served step ms c.hw q replies ∧ ∃ i ret, ret ≠ 0 ∧
      serve (debugBridge dev) e fuel entries c = some (⟨[], c.written ++ replies.flatten, i, q⟩, ret) := by
  obtain ⟨entries, rfl⟩ : ∃ n, entries = n + 1 := ⟨entries - 1, by omega⟩
  rw [serve_succ]
  exact resume_session ht hs he ms hfuel fuel entries hfuel (by omega) c h

/-- A session that is read byte by byte. -/
def bytewise : Env := ⟨fun _ => 1, fun _ => 0, fun _ _ => 0, fun _ _ => 0, fun _ => calmKernel⟩

/-- Two shifts with other messages between them. -/
def twoShifts : List Msg :=
  [.shift 9 [1, 2] [3, 4] (by decide) rfl rfl, .getinfo, .settck [9, 9, 0, 0] rfl, .shift 3 [7] [5] (by decide) rfl rfl]

theorem session_serial_twoShifts :
    ∃ q replies, Served counting twoShifts (Regs.initial 0) q replies ∧ ∃ i ret, ret ≠ 0 ∧
      serve (debugBridge countingDevice) bytewise 5 5 ⟨twoShifts.flatMap Msg.enc, [], 0, Regs.initial 0⟩ =
        some (⟨[], [] ++ replies.flatten, i, q⟩, ret) :=
  session_serial countingDevice_inTime (Engine.of_serial counting)
    ⟨fun _ => rfl, fun _ => calmKernel_succeeds⟩ twoShifts
    ⟨twoShifts.flatMap Msg.enc, [], 0, Regs.initial 0⟩ rfl (by decide) (by decide)

end ZynqMP
end Xvc
