import Xvc.ZynqMP.Session

/-!
# `handle_data` of the JTAG servers

`jtag/zynqMP/src/user/xvcServer.c`, in its two modes, and `jtag/zynq7000/XAPP1251/src/xvcServer.c` have the same
`handle_data` but for the branch of `shift:`. Here it is with that branch as a parameter, and what a client gets
from it when bytes follow its messages of which it can make nothing.

* `pass`: a pass of the `do`; `handleData`: the loop. `turn_eq_pass` is the link to `ZynqMP.turn`.
* `Build`: a branch, and what its hardware shows; `Build.Serial` is what is asked of it.
* `Broken`: bytes with which no pass gets through. `Proper.broken`: a message that is cut short is such.
* `returns_block`: a call of `handle_data` takes shifts up to the next message that is none.
* `serves_session`: the messages of a connection, and what comes behind them.
-/

namespace Xvc
namespace Jtag

open ByteMem BitSerial Zynq7000 ZynqMP

variable {H S : Type}

/-! ## The code -/

/-- A connection is that of `ZynqMP`, over any hardware. -/
abbrev Conn (H : Type) := ZynqMP.Conn H

/-- What a build does once the length of a shift has been read; none when it does not come to an end. -/
abbrev Shifting (H : Type) := Env → Int → Conn H → Option (Pass H)

/-- `if (sread(…) != 1) return 1`. -/
def reading (e : Env) (len : Nat) (c : Conn H) (k : Conn H → List UInt8 → Option (Pass H)) : Option (Pass H) :=
  let r := c.sread e len
  match r.2 with
  | none => some (r.1, some 1)
  | some l => k r.1 l

/-- A pass of the `do` of `handle_data`. -/
def pass (shifting : Shifting H) (e : Env) (c : Conn H) : Option (Pass H) :=
  reading e 2 c fun c cmd =>
    if cmd = ascii "ge" then
      reading e 6 c fun c _ => some (c.replying e xvcInfo (some 0))
    else if cmd = ascii "se" then
      reading e 9 c fun c cmd => some (c.replying e ((cmd.drop 5).take 4) (some 0))
    else if cmd = ascii "sh" then
      reading e 4 c fun c _ =>
        reading e 4 c fun c len => shifting e (int32 (ofLe len)) c
    else some (c, some 1)

/-- `handle_data`, for at most `fuel` passes: what it returns. -/
def handleData (shifting : Shifting H) (e : Env) : (fuel : Nat) → Conn H → Option (Conn H × Int)
  | 0, _ => none
  | fuel + 1, c =>
    match pass shifting e c with
    | none => none
    | some (d, none) => handleData shifting e fuel d
    | some (d, some ret) => some (d, ret)

/-- `handle_data` returns. -/
def Returns (shifting : Shifting H) (e : Env) (c d : Conn H) (ret : Int) : Prop :=
  ∃ fuel, handleData shifting e fuel c = some (d, ret)

/-- The calls of `handle_data` on a connection, until one does not return 0. -/
inductive Serves (shifting : Shifting H) (e : Env) : Conn H → Conn H → Int → Prop
  | last {c d : Conn H} {ret : Int} (h : Returns shifting e c d ret) (hret : ret ≠ 0) : Serves shifting e c d ret
  | again {c d d' : Conn H} {ret : Int} (h : Returns shifting e c d 0) (h' : Serves shifting e d d' ret) :
      Serves shifting e c d' ret

section Loop

variable {shifting : Shifting H} {e : Env} {c c' d d' : Conn H} {ret ret' : Int}

theorem handleData_mono {fuel : Nat} {r : Conn H × Int} (h : handleData shifting e fuel c = some r) (k : Nat) :
    handleData shifting e (fuel + k) c = some r := by
  induction fuel generalizing c with
  | zero => cases h
  | succ fuel ih =>
    rw [show fuel + 1 + k = fuel + k + 1 by omega]
    rw [handleData] at h ⊢
    split at h
    · cases h
    · exact ih h
    · exact h

theorem Returns.unique (h : Returns shifting e c d ret) (h' : Returns shifting e c d' ret') : d = d' ∧ ret = ret' := by
  obtain ⟨fuel, h⟩ := h
  obtain ⟨fuel', h'⟩ := h'
  have hlong := handleData_mono h fuel'
  rw [Nat.add_comm, handleData_mono h' fuel] at hlong
  cases hlong
  exact ⟨rfl, rfl⟩

theorem returns_last (h : pass shifting e c = some (d, some ret)) : Returns shifting e c d ret :=
  ⟨1, by rw [handleData, h]⟩

theorem Returns.again (h : pass shifting e c = some (c', none)) (h' : Returns shifting e c' d ret) :
    Returns shifting e c d ret := by
  obtain ⟨fuel, h'⟩ := h'
  exact ⟨fuel + 1, by rw [handleData, h]; exact h'⟩

theorem Serves.unique (h : Serves shifting e c d ret) (h' : Serves shifting e c d' ret') : d = d' ∧ ret = ret' := by
  induction h with
  | last h hret =>
    cases h' with
    | last h' _ => exact h.unique h'
    | again h' _ => exact absurd (h.unique h').2 hret
  | again h _ ih =>
    cases h' with
    | last h' hret => exact absurd (h.unique h').2.symm hret
    | again h' hrest =>
      obtain ⟨rfl, -⟩ := h.unique h'
      exact ih hrest

end Loop

/-! ## The mode with `USE_IOCTL` -/

/-- The branch as it is in `ZynqMP.turn`. -/
def ioctlShifting (hw : Bridge H) : Shifting H := fun e len c => some (turnShift hw e len c)

theorem reading_some (e : Env) (len : Nat) (c : Conn H) (k : Conn H → List UInt8 → Pass H) :
    reading e len c (fun c l => some (k c l)) = some (c.reading e len k) := by
  unfold reading ZynqMP.Conn.reading
  generalize c.sread e len = r
  obtain ⟨d, l⟩ := r
  cases l with
  | none => rfl
  | some l => rfl

/-- The pass is that of `ZynqMP`. -/
theorem turn_eq_pass (hw : Bridge H) (e : Env) (c : Conn H) : pass (ioctlShifting hw) e c = some (turn hw e c) := by
  unfold pass turn ioctlShifting
  rw [← reading_some]
  refine congrArg (reading e 2 c) (funext fun c => funext fun cmd => ?_)
  simp only [reading_some]
  split
  · rfl
  · split
    · rfl
    · split <;> rfl

/-! ## Builds -/

/-- A build of a server: its branch for a shift, the lengths that it refuses, what its hardware shows, and how many
bits of the vectors it clocks for a length. -/
structure Build (H S : Type) where
  shifting : Shifting H
  exceeds : Int → Bool
  state : H → S
  clocks : H → List (Bool × Bool)
  taken : Nat → Nat

namespace Build

/-- The clocks of a message. -/
def clocksOf (B : Build H S) : Msg → List (Bool × Bool)
  | .shift len tms tdi _ _ _ => (vectorBits tms (B.taken len)).zip (vectorBits tdi (B.taken len))
  | _ => []

/-- The TDO bits in its reply. -/
def tdo (B : Build H S) : Msg → List UInt8 → List Bool
  | .shift len _ _ _ _ _, reply => vectorBits reply (B.taken len)
  | _, _ => []

end Build

variable {B : Build H S} {step : S → Bool → Bool → S × Bool}

/-- Messages with their replies: from `h` to `q` the device gets their clocks, and the replies hold the answers of one
run of it. -/
structure Served (B : Build H S) (step : S → Bool → Bool → S × Bool) (h q : H)
    (l : List (Msg × List UInt8)) : Prop where
  answers : ∀ x ∈ l, x.1.Answers x.2
  state : B.state q = (run step (B.state h) (l.flatMap fun x => B.clocksOf x.1)).1
  clocks : B.clocks q = B.clocks h ++ l.flatMap fun x => B.clocksOf x.1
  tdo : (l.flatMap fun x => B.tdo x.1 x.2) = (run step (B.state h) (l.flatMap fun x => B.clocksOf x.1)).2

/-- What is asked of the branch for a shift: with nothing failing it serves the message; a length that is refused and
vectors that are cut short make it return 1 before anything is written or shifted. -/
structure Build.Serial (B : Build H S) (step : S → Bool → Bool → S × Bool) : Prop where
  whole : ∀ {e : Env}, e.Succeeds → ∀ {len : Nat} {tms tdi l : List UInt8} (hlen : len ≤ 8192)
    (htms : tms.length = (len + 7) / 8) (htdi : tdi.length = (len + 7) / 8) (c : Conn H), c.rest = (tms ++ tdi) ++ l →
    ∃ q reply, Served B step c.hw q [(.shift len tms tdi hlen htms htdi, reply)] ∧
      ∃ i, B.shifting e len c = some (⟨l, c.written ++ reply, i, q⟩, none)
  refused : ∀ (e : Env) (len : Int) (c : Conn H), B.exceeds len = true → B.shifting e len c = some (c, some 1)
  cut : ∀ (e : Env) (len : Int) (c : Conn H), B.exceeds len = false → c.rest.length < (nrBytes len * 2).toNat →
    ∃ d, B.shifting e len c = some (d, some 1) ∧ d.written = c.written ∧ d.hw = c.hw
  fits : ∀ len : Nat, len ≤ 8192 → B.exceeds len = false

theorem served_nil (h : H) : Served B step h h [] :=
  ⟨fun _ hx => (List.not_mem_nil hx).elim, rfl, (List.append_nil _).symm, rfl⟩

theorem Served.append {h q p : H} {l l' : List (Msg × List UInt8)} (hl : Served B step h q l)
    (hl' : Served B step q p l') :
    Served B step h p (l ++ l') where
  answers x hx := (List.mem_append.mp hx).elim (hl.answers x) (hl'.answers x)
  state := by
    rw [List.flatMap_append, run_append, ← hl.state]
    exact hl'.state
  clocks := by rw [List.flatMap_append, hl'.clocks, hl.clocks, List.append_assoc]
  tdo := by rw [List.flatMap_append, List.flatMap_append, run_append, ← hl.state, hl.tdo, hl'.tdo]

/-- A message that asks for no clocks. -/
theorem served_still {m : Msg} (hm : B.clocksOf m = []) {reply : List UInt8} (hreply : m.Answers reply)
    (htdo : B.tdo m reply = []) (h : H) : Served B step h h [(m, reply)] := by
  refine ⟨fun x hx => ?_, ?_, ?_, ?_⟩
  · rw [List.mem_singleton.mp hx]
    exact hreply
  · rw [List.flatMap_singleton, hm]
    rfl
  · rw [List.flatMap_singleton, hm]
    exact (List.append_nil _).symm
  · rw [List.flatMap_singleton, List.flatMap_singleton, hm, htdo]
    rfl

/-! ## Bytes with which no pass gets through -/

/-- What lies ahead is not, and does not begin with, anything that a pass can serve. -/
inductive Broken (B : Build H S) : List UInt8 → Prop
  | command {l : List UInt8} (h : l.length < 2) : Broken B l
  | unknown {a l : List UInt8} (ha : a.length = 2) (hge : a ≠ ascii "ge") (hse : a ≠ ascii "se")
    (hsh : a ≠ ascii "sh") :
      Broken B (a ++ l)
  | getinfo {l : List UInt8} (h : l.length < 6) : Broken B (ascii "ge" ++ l)
  | settck {l : List UInt8} (h : l.length < 9) : Broken B (ascii "se" ++ l)
  | shift {l : List UInt8} (h : l.length < 8) : Broken B (ascii "sh" ++ l)
  | refused {a n l : List UInt8} (ha : a.length = 4) (hn : n.length = 4) (h : B.exceeds (int32 (ofLe n)) = true) :
      Broken B (ascii "sh" ++ (a ++ (n ++ l)))
  | vectors {a n l : List UInt8} (ha : a.length = 4) (hn : n.length = 4) (h : B.exceeds (int32 (ofLe n)) = false)
      (hl : l.length < (nrBytes (int32 (ofLe n)) * 2).toNat) : Broken B (ascii "sh" ++ (a ++ (n ++ l)))

/-- `sread` past the end of the stream. -/
theorem sread_short (e : Env) {len : Nat} (c : Conn H) (h : c.rest.length < len) :
    (c.sread e len).2 = none ∧ (c.sread e len).1.written = c.written ∧ (c.sread e len).1.hw = c.hw := by
  have hloop : ∀ fuel len (c : Conn H), len ≤ fuel → c.rest.length < len →
      (sreadLoop e fuel len c).2 = none ∧ (sreadLoop e fuel len c).1.written = c.written ∧
        (sreadLoop e fuel len c).1.hw = c.hw := by
    intro fuel
    induction fuel with
    | zero => intro len c hfuel h; omega
    | succ fuel ih =>
      intro len c hfuel h
      obtain ⟨len, rfl⟩ : ∃ n, len = n + 1 := ⟨len - 1, by omega⟩
      obtain ⟨n, hn, hpos⟩ : ∃ n, max 1 (min (e.chunk c.calls) (len + 1)) = n ∧ 0 < n := ⟨_, rfl, by omega⟩
      rw [sreadLoop]
      simp only [ZynqMP.Conn.read, hn, List.length_take]
      split
      · exact ⟨rfl, rfl, rfl⟩
      · obtain ⟨h1, h2, h3⟩ := ih (len + 1 - min n c.rest.length)
          { c with rest := c.rest.drop n, calls := c.calls + 1 } (by omega) (by simp only [List.length_drop]; omega)
        exact ⟨by rw [h1]; rfl, h2, h3⟩
  exact hloop len len c (Nat.le_refl len) h

/-- A read that gets its bytes. -/
theorem reading_whole (e : Env) (len : Nat) {a l : List UInt8} (hlen : a.length = len) (c : Conn H)
    (h : c.rest = a ++ l) :
    ∃ i, ∀ k : Conn H → List UInt8 → Option (Pass H), reading e len c k = k { c with rest := l, calls := i } a := by
  obtain ⟨i, hi⟩ := sread_eq e len hlen c h
  exact ⟨i, fun k => by rw [reading, hi]⟩

/-- A read that does not. -/
theorem reading_short (e : Env) {len : Nat} (c : Conn H) (h : c.rest.length < len)
    (k : Conn H → List UInt8 → Option (Pass H)) :
    ∃ d, reading e len c k = some (d, some 1) ∧ d.written = c.written ∧ d.hw = c.hw := by
  obtain ⟨h1, h2, h3⟩ := sread_short e c h
  refine ⟨_, ?_, h2, h3⟩
  rw [reading, h1]

/-! ## A pass -/

/-- What a pass leaves to the loop behind a whole message. -/
def afterMsg : Msg → Option Int
  | .shift _ _ _ _ _ _ => none
  | _ => some 0

/-- The length that a message of a shift carries. -/
theorem int32_enc {len : Nat} (hlen : len ≤ 8192) : int32 (ofLe (leBytes 4 len)) = len := by
  rw [ofLe_leBytes, Nat.mod_eq_of_lt (by omega)]
  exact int32_of_range (by omega) (by omega)

/-- The header of a shift. -/
theorem pass_header (e : Env) {a n l : List UInt8} (ha : a.length = 4) (hn : n.length = 4) (c : Conn H)
    (h : c.rest = ascii "sh" ++ (a ++ (n ++ l))) :
    ∃ i, pass B.shifting e c = B.shifting e (int32 (ofLe n)) { c with rest := l, calls := i } := by
  obtain ⟨i, hi⟩ := reading_whole e 2 (a := ascii "sh") rfl c h
  obtain ⟨i', hi'⟩ := reading_whole e 4 ha { c with rest := a ++ (n ++ l), calls := i } rfl
  obtain ⟨j, hj⟩ := reading_whole e 4 hn { c with rest := n ++ l, calls := i' } rfl
  refine ⟨j, ?_⟩
  rw [pass, hi, if_neg (by decide), if_neg (by decide), if_pos rfl, hi', hj]

/-- At a whole message. -/
theorem pass_msg (hB : B.Serial step) {e : Env} (he : e.Succeeds) (m : Msg) (c : Conn H) {l : List UInt8}
    (h : c.rest = m.enc ++ l) :
    ∃ q reply, Served B step c.hw q [(m, reply)] ∧
      ∃ i, pass B.shifting e c = some (⟨l, c.written ++ reply, i, q⟩, afterMsg m) := by
  cases m with
  | getinfo =>
    obtain ⟨i, hi⟩ := reading_whole e 2 (a := ascii "ge") (l := ascii "tinfo:" ++ l) rfl c h
    obtain ⟨j, hj⟩ := reading_whole e 6 (a := ascii "tinfo:") (l := l) rfl
      { c with rest := ascii "tinfo:" ++ l, calls := i } rfl
    refine ⟨c.hw, xvcInfo, served_still (m := .getinfo) rfl xvcInfo_eq rfl c.hw, j + 1, ?_⟩
    rw [pass, hi, if_pos rfl, hj, replying_eq he]
    rfl
  | settck period hperiod =>
    obtain ⟨i, hi⟩ := reading_whole e 2 (a := ascii "se") (l := ascii "ttck:" ++ period ++ l) rfl c h
    obtain ⟨j, hj⟩ := reading_whole e 9 (a := ascii "ttck:" ++ period) (l := l)
      (by rw [List.length_append, hperiod]; rfl) { c with rest := ascii "ttck:" ++ period ++ l, calls := i } rfl
    have hdrop : ((ascii "ttck:" ++ period).drop 5).take 4 = period := by
      rw [List.drop_left' (show (ascii "ttck:").length = 5 from rfl), List.take_of_length_le (Nat.le_of_eq hperiod)]
    refine ⟨c.hw, period, served_still (m := .settck period hperiod) rfl rfl rfl c.hw, j + 1, ?_⟩
    rw [pass, hi, if_neg (by decide), if_pos rfl, hj, hdrop, replying_eq he]
    rfl
  | shift len tms tdi hlen htms htdi =>
    have hsplit : c.rest = ascii "sh" ++ (ascii "ift:" ++ (leBytes 4 len ++ ((tms ++ tdi) ++ l))) := by
      rw [h]
      simp only [Msg.enc, List.append_assoc]
      rfl
    obtain ⟨i, hi⟩ := pass_header (B := B) e rfl (length_leBytes 4 len) c hsplit
    obtain ⟨q, reply, hq, k, hshift⟩ := hB.whole he hlen htms htdi ⟨(tms ++ tdi) ++ l, c.written, i, c.hw⟩ rfl
    refine ⟨q, reply, hq, k, ?_⟩
    rw [hi, int32_enc hlen, hshift]
    rfl

/-- At bytes with which it does not get through: nothing is written and nothing is shifted. Nothing is asked of the
environment. -/
theorem pass_broken (hB : B.Serial step) (e : Env) (c : Conn H) (h : Broken B c.rest) :
    ∃ d, pass B.shifting e c = some (d, some 1) ∧ d.written = c.written ∧ d.hw = c.hw := by
  generalize hrest : c.rest = l at h
  cases h with
  | command h => exact reading_short e c (by rw [hrest]; exact h) _
  | @unknown a l ha hge hse hsh =>
    obtain ⟨i, hi⟩ := reading_whole e 2 ha c hrest
    refine ⟨{ c with rest := l, calls := i }, ?_, rfl, rfl⟩
    rw [pass, hi, if_neg hge, if_neg hse, if_neg hsh]
  | @getinfo l h =>
    obtain ⟨i, hi⟩ := reading_whole e 2 rfl c hrest
    rw [pass, hi, if_pos rfl]
    exact reading_short e { c with rest := l, calls := i } h _
  | @settck l h =>
    obtain ⟨i, hi⟩ := reading_whole e 2 rfl c hrest
    rw [pass, hi, if_neg (by decide), if_pos rfl]
    exact reading_short e { c with rest := l, calls := i } h _
  | @shift l h =>
    obtain ⟨i, hi⟩ := reading_whole e 2 rfl c hrest
    rw [pass, hi, if_neg (by decide), if_neg (by decide), if_pos rfl]
    by_cases h4 : l.length < 4
    · exact reading_short e { c with rest := l, calls := i } h4 _
    · -- The rest of the name is there, the length is not.
      obtain ⟨j, hj⟩ := reading_whole e 4 (a := l.take 4) (l := l.drop 4) (by rw [List.length_take]; omega)
        { c with rest := l, calls := i } (List.take_append_drop 4 l).symm
      rw [hj]
      exact reading_short e { c with rest := l.drop 4, calls := j } (by simp only [List.length_drop]; omega) _
  | @refused a n l ha hn h =>
    obtain ⟨i, hi⟩ := pass_header (B := B) e ha hn c hrest
    exact ⟨{ c with rest := l, calls := i }, by rw [hi, hB.refused e _ _ h], rfl, rfl⟩
  | @vectors a n l ha hn h hl =>
    obtain ⟨i, hi⟩ := pass_header (B := B) e ha hn c hrest
    rw [hi]
    exact hB.cut e (int32 (ofLe n)) { c with rest := l, calls := i } h hl

/-- A message that is cut short. -/
theorem Proper.broken (hB : B.Serial step) {m : Msg} {q : List UInt8} (h : Stream.Proper q m.enc) : Broken B q := by
  cases m with
  | getinfo =>
    rcases Stream.Proper.append_cases (a := ascii "ge") (b := ascii "tinfo:") h with hq | ⟨q, rfl, hq⟩
    · exact .command hq.length_lt
    · exact .getinfo hq.length_lt
  | settck period hperiod =>
    rcases Stream.Proper.append_cases (a := ascii "se") (b := ascii "ttck:" ++ period) h with hq | ⟨q, rfl, hq⟩
    · exact .command hq.length_lt
    · refine .settck (Nat.lt_of_lt_of_eq hq.length_lt ?_)
      rw [List.length_append, hperiod]
      rfl
  | shift len tms tdi hlen htms htdi =>
    have hsplit : (Msg.shift len tms tdi hlen htms htdi).enc =
        ascii "sh" ++ (ascii "ift:" ++ (leBytes 4 len ++ (tms ++ tdi))) := by
      simp only [Msg.enc, List.append_assoc]
      rfl
    rw [hsplit] at h
    rcases h.append_cases with hq | ⟨q, rfl, hname⟩
    · exact .command hq.length_lt
    rcases hname.append_cases with hq | ⟨q, rfl, hlength⟩
    · exact .shift (Nat.lt_trans hq.length_lt (by decide))
    rcases hlength.append_cases with hq | ⟨q, rfl, hvectors⟩
    · have hshort := hq.length_lt
      rw [length_leBytes] at hshort
      refine .shift ?_
      rw [List.length_append, show (ascii "ift:").length = 4 from rfl]
      omega
    · -- The length is there, the vectors are not.
      have hshort := hvectors.length_lt
      rw [List.length_append, htms, htdi] at hshort
      refine .vectors rfl (length_leBytes 4 len) ?_ ?_
      · rw [int32_enc hlen]
        exact hB.fits len hlen
      · rw [int32_enc hlen, nrBytes_natCast hlen]
        omega

/-! ## The loops -/

/-- Shifts, and nothing else. -/
def Shifts (l : List (Msg × List UInt8)) : Prop := ∀ x ∈ l, afterMsg x.1 = none

/-- Shifts, and a message that is none behind them. -/
def Block (l : List (Msg × List UInt8)) : Prop := ∃ l' x, l = l' ++ [x] ∧ Shifts l' ∧ afterMsg x.1 = some 0

theorem shifts_nil : Shifts [] := fun _ hx => (List.not_mem_nil hx).elim

theorem Shifts.cons {x : Msg × List UInt8} {l : List (Msg × List UInt8)} (hx : afterMsg x.1 = none) (h : Shifts l) :
    Shifts (x :: l) :=
  List.forall_mem_cons.mpr ⟨hx, h⟩

theorem Block.cons {x : Msg × List UInt8} {l : List (Msg × List UInt8)} (hx : afterMsg x.1 = none) (h : Block l) :
    Block (x :: l) := by
  obtain ⟨l', y, rfl, hl', hy⟩ := h
  exact ⟨x :: l', y, rfl, hl'.cons hx, hy⟩

/-- **A call** of `handle_data`: the shifts up to the next message that is none, and 0; or all that is left, and 1. The
induction is on the messages, each of which takes a pass. -/
theorem returns_block (hB : B.Serial step) {e : Env} (he : e.Succeeds) (ms : List Msg) {tail : List UInt8}
    (htail : Broken B tail) (c : Conn H) (h : c.rest = ms.flatMap Msg.enc ++ tail) :
    ∃ now later d ret, ms = now.map Prod.fst ++ later ∧ Returns B.shifting e c d ret ∧ Served B step c.hw d.hw now ∧
      d.written = c.written ++ now.flatMap Prod.snd ∧
      (ret = 0 ∧ Block now ∧ d.rest = later.flatMap Msg.enc ++ tail ∨ ret = 1 ∧ Shifts now ∧ later = []) := by
  induction ms generalizing c with
  | nil =>
    rw [List.flatMap_nil, List.nil_append] at h
    obtain ⟨d, hpass, hwritten, hhw⟩ := pass_broken hB e c (h ▸ htail)
    refine ⟨[], [], d, 1, rfl, returns_last hpass, ?_, ?_, .inr ⟨rfl, shifts_nil, rfl⟩⟩
    · rw [hhw]
      exact served_nil c.hw
    · rw [hwritten]
      exact (List.append_nil _).symm
  | cons m ms ih =>
    rw [List.flatMap_cons, List.append_assoc] at h
    obtain ⟨q, reply, hq, i, hpass⟩ := pass_msg hB he m c h
    cases hm : afterMsg m with
    | some ret =>
      have hret : ret = 0 := by
        cases m with
        | getinfo => exact (Option.some.inj hm).symm
        | settck => exact (Option.some.inj hm).symm
        | shift => cases hm
      subst hret
      rw [hm] at hpass
      refine ⟨[(m, reply)], ms, _, 0, rfl, returns_last hpass, hq, ?_,
        .inl ⟨rfl, ⟨[], (m, reply), rfl, shifts_nil, hm⟩, rfl⟩⟩
      rw [List.flatMap_singleton]
    | none =>
      rw [hm] at hpass
      obtain ⟨now, later, d, ret, rfl, hd, hserved, hwritten, hend⟩ :=
        ih ⟨ms.flatMap Msg.enc ++ tail, c.written ++ reply, i, q⟩ rfl
      refine ⟨(m, reply) :: now, later, d, ret, rfl, hd.again hpass, hq.append hserved, ?_, ?_⟩
      · rw [hwritten, List.flatMap_cons, List.append_assoc]
      · exact hend.imp (fun ⟨h0, hb, hrest⟩ => ⟨h0, hb.cons hm, hrest⟩) fun ⟨h1, hs, hl⟩ => ⟨h1, hs.cons hm, hl⟩

theorem Block.length_pos {l : List (Msg × List UInt8)} (h : Block l) : 0 < l.length := by
  obtain ⟨l', x, rfl, -⟩ := h
  rw [List.length_append]
  exact Nat.succ_pos _

/-- The calls on a connection. The induction is on the number of messages: a call that returns 0 takes one. -/
theorem serves_session (hB : B.Serial step) {e : Env} (he : e.Succeeds) {tail : List UInt8} (htail : Broken B tail)
    (n : Nat) (ms : List Msg) (hn : ms.length ≤ n) (c : Conn H) (h : c.rest = ms.flatMap Msg.enc ++ tail) :
    ∃ l d, l.map Prod.fst = ms ∧ Serves B.shifting e c d 1 ∧ Served B step c.hw d.hw l ∧
      d.written = c.written ++ l.flatMap Prod.snd := by
  induction n generalizing ms c with
  | zero =>
    obtain ⟨now, later, d, ret, rfl, hd, hserved, hwritten, ⟨-, hb, -⟩ | ⟨rfl, -, rfl⟩⟩ :=
      returns_block hB he ms htail c h
    · have hpos := hb.length_pos
      rw [List.length_append, List.length_map] at hn
      omega
    · exact ⟨now, d, (List.append_nil _).symm, .last hd (by decide), hserved, hwritten⟩
  | succ n ih =>
    obtain ⟨now, later, d, ret, rfl, hd, hserved, hwritten, ⟨rfl, hb, hrest⟩ | ⟨rfl, -, rfl⟩⟩ :=
      returns_block hB he ms htail c h
    · have hpos := hb.length_pos
      rw [List.length_append, List.length_map] at hn
      obtain ⟨l, p, rfl, hp, hserved', hwritten'⟩ := ih later (by omega) d hrest
      refine ⟨now ++ l, p, List.map_append, .again hd hp, hserved.append hserved', ?_⟩
      rw [hwritten', hwritten, List.flatMap_append, List.append_assoc]
    · exact ⟨now, d, (List.append_nil _).symm, .last hd (by decide), hserved, hwritten⟩

end Jtag
end Xvc
