import Mathlib.Data.Finset.Insert
import Mathlib.Logic.Function.Basic
import Xvc.Jtag.Builds
import Xvc.Lib.Ledger

/-!
# The loop of `main` in the JTAG servers

`main` of `jtag/zynqMP/src/user/xvcServer.c` and of `jtag/zynq7000/XAPP1251/src/xvcServer.c`, from where the socket `s`
listens: `select`, and a `for` over the descriptors that calls `accept`, `handle_data` and `close`. The descriptors
fit in an `fd_set`.

* `Main`: the set `conn`, `maxfd`, where the loop is, and the clients. `Step`: one descriptor of the `for`, or `select`.
* `Round`: what one time round the `while (1)` does; `select_loop` is what any run of it does.
-/

namespace Xvc
namespace Jtag

open ZynqMP Ledger

variable {H : Type}

/-! ## The code -/

/-- A client: all that it sends, what of it is not read yet, what was written to it, and whether a call of
`handle_data` for it returned another value than 0. -/
structure Peer where
  sent : List UInt8
  rest : List UInt8
  written : List UInt8
  ended : Bool

/-- Where `main` is; in the `for` with the two sets that `select` left, and `fd`. -/
inductive Place where
  | select
  | sweep (read except : Finset Nat) (fd : Nat)
  | done

/-- What `main` does. -/
inductive Event where
  | socket (fd : Nat)
  | select (read except : Finset Nat)
  | accept (fd : Nat)
  | handle (fd : Nat) (ret : Int)
  | close (fd : Nat)

/-- The variables of `main`, the clients in the order in which they were accepted, the one behind each descriptor, and
what has been done. -/
structure Main (H : Type) where
  conn : Finset Nat
  maxfd : Nat
  place : Place
  hw : H
  accepted : Nat
  peer : Nat → Peer
  who : Nat → Nat
  log : List Event

namespace Main

/-- `FD_SET(s, &conn)` is done. -/
def start (s : Nat) (hw : H) : Main H := ⟨{s}, s, .select, hw, 0, fun _ => ⟨[], [], [], false⟩, fun _ => 0, [.socket s]⟩

/-- The client of a descriptor. -/
def client (m : Main H) (fd : Nat) : Peer := m.peer (m.who fd)

/-- A client that sends `l` is accepted. -/
def accept (newfd : Nat) (l : List UInt8) (m : Main H) : Main H :=
  { m with
    conn := insert newfd m.conn
    maxfd := if newfd > m.maxfd then newfd else m.maxfd
    accepted := m.accepted + 1
    peer := Function.update m.peer m.accepted ⟨l, l, [], false⟩
    who := Function.update m.who newfd m.accepted
    log := m.log ++ [.accept newfd] }

/-- `handle_data` has returned. -/
def handle (fd : Nat) (d : Conn H) (ret : Int) (m : Main H) : Main H :=
  { m with
    hw := d.hw
    peer := Function.update m.peer (m.who fd) ⟨(m.client fd).sent, d.rest, d.written, decide (ret ≠ 0)⟩
    log := m.log ++ [.handle fd ret] }

/-- `close(fd); FD_CLR(fd, &conn)`. -/
def close (fd : Nat) (m : Main H) : Main H :=
  { m with
    conn := m.conn.erase fd
    log := m.log ++ [.close fd] }

/-- A step of the loop. A client's bytes are any that `sends` allows, and a call of `handle_data` has any environment
that `ok` does. -/
inductive Step (shifting : Shifting H) (ok : Env → Prop) (sends : List UInt8 → Prop) (s : Nat) : Main H → Main H → Prop
  | select {m : Main H} (read except : Finset Nat) (h : m.place = .select) (hread : read ⊆ m.conn)
      (hexcept : except ⊆ m.conn) :
      Step shifting ok sends s m { m with place := .sweep read except 0, log := m.log ++ [.select read except] }
  | selectFailed {m : Main H} (h : m.place = .select) : Step shifting ok sends s m { m with place := .done }
  /-- The end of the `for`. -/
  | swept {m : Main H} {read except : Finset Nat} {fd : Nat} (h : m.place = .sweep read except fd)
      (hfd : m.maxfd < fd) :
      Step shifting ok sends s m { m with place := .select }
  | accept {m : Main H} {read except : Finset Nat} {fd : Nat} (h : m.place = .sweep read except fd) (hfd : fd ≤ m.maxfd)
      (hread : fd ∈ read) (hs : fd = s) (newfd : Nat) (hnew : newfd ∉ m.conn) (l : List UInt8) (hl : sends l) :
      Step shifting ok sends s m { m.accept newfd l with place := .sweep read except (fd + 1) }
  | acceptFailed {m : Main H} {read except : Finset Nat} {fd : Nat} (h : m.place = .sweep read except fd)
      (hfd : fd ≤ m.maxfd) (hread : fd ∈ read) (hs : fd = s) :
      Step shifting ok sends s m { m with place := .sweep read except (fd + 1) }
  | handled {m : Main H} {read except : Finset Nat} {fd : Nat} (h : m.place = .sweep read except fd)
      (hfd : fd ≤ m.maxfd) (hread : fd ∈ read) (hs : fd ≠ s) {e : Env} (he : ok e) (calls : Nat) {d : Conn H}
      (hret : Returns shifting e ⟨(m.client fd).rest, (m.client fd).written, calls, m.hw⟩ d 0) :
      Step shifting ok sends s m { m.handle fd d 0 with place := .sweep read except (fd + 1) }
  | closed {m : Main H} {read except : Finset Nat} {fd : Nat} (h : m.place = .sweep read except fd)
      (hfd : fd ≤ m.maxfd) (hread : fd ∈ read) (hs : fd ≠ s) {e : Env} (he : ok e) (calls : Nat)
      {d : Conn H} {ret : Int}
      (hret : Returns shifting e ⟨(m.client fd).rest, (m.client fd).written, calls, m.hw⟩ d ret) (hne : ret ≠ 0) :
      Step shifting ok sends s m { (m.handle fd d ret).close fd with place := .sweep read except (fd + 1) }
  | aborted {m : Main H} {read except : Finset Nat} {fd : Nat} (h : m.place = .sweep read except fd)
      (hfd : fd ≤ m.maxfd)
      (hread : fd ∉ read) (hexcept : fd ∈ except) (hs : fd ≠ s) :
      Step shifting ok sends s m { m.close fd with place := .sweep read except (fd + 1) }
  /-- The listening socket: `break`, to the next `select`. -/
  | listener {m : Main H} {read except : Finset Nat} {fd : Nat} (h : m.place = .sweep read except fd)
      (hfd : fd ≤ m.maxfd)
      (hread : fd ∉ read) (hexcept : fd ∈ except) (hs : fd = s) :
      Step shifting ok sends s m { m.close fd with place := .select }
  | idle {m : Main H} {read except : Finset Nat} {fd : Nat} (h : m.place = .sweep read except fd) (hfd : fd ≤ m.maxfd)
      (hread : fd ∉ read) (hexcept : fd ∉ except) :
      Step shifting ok sends s m { m with place := .sweep read except (fd + 1) }

end Main

/-! ## What a round does -/

namespace Event

/-- The descriptor that it is about. -/
def fd : Event → Option Nat
  | .socket fd => some fd
  | .select _ _ => none
  | .accept fd => some fd
  | .handle fd _ => some fd
  | .close fd => some fd

/-- What it does to descriptors. -/
def ops : Event → List (Op Nat)
  | .socket fd => [.acquire fd]
  | .select _ _ => []
  | .accept fd => [.acquire fd]
  | .handle _ _ => []
  | .close fd => [.release fd]

/-- The descriptor that `handle_data` is called for. -/
def called : Event → Option Nat
  | .handle fd _ => some fd
  | _ => none

end Event

/-- The descriptors that are opened and closed. -/
def ledger (log : List Event) : List (Op Nat) := log.flatMap Event.ops

/-- The calls of `handle_data`. -/
def calls (log : List Event) : List Nat := log.filterMap Event.called

/-- Nothing was done with a descriptor before `handle_data` is called for it. -/
def Fresh (l : List Event) : Prop := l.Pairwise fun e e' => ∀ x ret, e' = .handle x ret → e.fd ≠ some x

/-- Behind a `select` with these sets, and as far as `before`: `handle_data` is called once for each descriptor that is
ready, in ascending order, and nothing was done with it since; the others with an exception are closed. -/
structure Turns (s : Nat) (read except : Finset Nat) (before : Nat → Prop) (l : List Event) : Prop where
  onFd : ∀ e ∈ l, e.fd ≠ none
  ascending : (calls l).Pairwise (· < ·)
  called : ∀ x, x ∈ calls l ↔ x ∈ read ∧ x ≠ s ∧ before x
  fresh : Fresh l
  closed : ∀ x ∈ except, x ∉ read → before x → .close x ∈ l

/-- Once round the `while (1)`. It ends early at the listening socket, when that is closed. -/
abbrev Round (s : Nat) (read except : Finset Nat) (l : List Event) : Prop :=
  Turns s read except (fun x => .close s ∈ l → x ≤ s) l

/-- What is done up to a `select`. -/
inductive Rounds (s : Nat) : List Event → Prop
  | start : Rounds s [.socket s]
  | round {l l' : List Event} {read except : Finset Nat} (h : Rounds s l) (h' : Round s read except l') :
      Rounds s (l ++ .select read except :: l')

/-- In the `for`. What lies ahead is as `select` found it. -/
structure Sweeping (s : Nat) (read except : Finset Nat) (fd : Nat) (conn : Finset Nat) (l : List Event) : Prop where
  turns : Turns s read except (· < fd) l
  listening : .close s ∉ l
  ahead : ∀ x, x ∈ read ∨ x ∈ except → fd ≤ x → x ∈ conn ∧ ∀ e ∈ l, e.fd ≠ some x

section Sweep

variable {s fd : Nat} {read except conn conn' : Finset Nat} {l l' : List Event}

theorem calls_append (l l' : List Event) : calls (l ++ l') = calls l ++ calls l' := List.filterMap_append

theorem mem_calls {x : Nat} : x ∈ calls l ↔ ∃ ret, .handle x ret ∈ l := by
  rw [calls, List.mem_filterMap]
  constructor
  · rintro ⟨e, he, hx⟩
    cases e with
    | handle fd ret =>
      obtain rfl := Option.some.inj hx
      exact ⟨ret, he⟩
    | socket => cases hx
    | select => cases hx
    | accept => cases hx
    | close => cases hx
  · rintro ⟨ret, he⟩
    exact ⟨_, he, rfl⟩

theorem sweeping_start (hread : read ⊆ conn) (hexcept : except ⊆ conn) : Sweeping s read except 0 conn [] where
  turns := by
    refine ⟨fun _ he => (List.not_mem_nil he).elim, .nil, fun x => ?_, .nil,
      fun x _ _ hx => absurd hx (Nat.not_lt_zero x)⟩
    exact ⟨fun hx => (List.not_mem_nil hx).elim, fun hx => absurd hx.2.2 (Nat.not_lt_zero x)⟩
  listening := List.not_mem_nil
  ahead x hx _ := ⟨hx.elim (fun h => hread h) fun h => hexcept h, fun _ he => (List.not_mem_nil he).elim⟩

/-- **A step of the `for`** that does `l'`: something with `fd` itself or with a descriptor that is not open. -/
theorem Sweeping.next (h : Sweeping s read except fd conn l)
    (hfd : ∀ e ∈ l', ∃ x, e.fd = some x ∧ (x = fd ∨ x ∉ conn)) (hconn : ∀ x ∈ conn, x ≠ fd → x ∈ conn')
    (hcalls : calls l' = if fd ∈ read ∧ fd ≠ s then [fd] else []) (hfresh : Fresh l') (hlistening : .close s ∉ l')
    (hclosed : fd ∈ except → fd ∉ read → .close fd ∈ l') : Sweeping s read except (fd + 1) conn' (l ++ l') := by
  have hcalled : ∀ x, x ∈ calls l' ↔ x = fd ∧ x ∈ read ∧ x ≠ s := by
    intro x
    rw [hcalls]
    split
    · next hc =>
      rw [List.mem_singleton]
      exact ⟨fun hx => ⟨hx, by rw [hx]; exact hc⟩, fun hx => hx.1⟩
    · next hc => exact ⟨fun hx => (List.not_mem_nil hx).elim, fun ⟨hx, hr⟩ => absurd (hx ▸ hr) hc⟩
  have hbelow : ∀ x ∈ calls l, x < fd := fun x hx => ((h.turns.called x).mp hx).2.2
  refine ⟨⟨?_, ?_, fun x => ?_, ?_, fun x hx hr hlt => ?_⟩, ?_, fun x hx hle => ?_⟩
  · intro e he
    rcases List.mem_append.mp he with he | he
    · exact h.turns.onFd e he
    · obtain ⟨x, hx, -⟩ := hfd e he
      rw [hx]
      exact Option.some_ne_none x
  · rw [calls_append]
    refine List.pairwise_append.mpr ⟨h.turns.ascending, ?_, fun x hx y hy => ?_⟩
    · rw [hcalls]
      split
      · exact List.pairwise_singleton _ _
      · exact .nil
    · rw [((hcalled y).mp hy).1]
      exact hbelow x hx
  · rw [calls_append, List.mem_append, h.turns.called, hcalled]
    constructor
    · rintro (⟨hr, hs, hlt⟩ | ⟨rfl, hr, hs⟩)
      · exact ⟨hr, hs, Nat.lt_succ_of_lt hlt⟩
      · exact ⟨hr, hs, Nat.lt_succ_self x⟩
    · rintro ⟨hr, hs, hlt⟩
      rcases Nat.lt_succ_iff_lt_or_eq.mp hlt with hlt | rfl
      · exact .inl ⟨hr, hs, hlt⟩
      · exact .inr ⟨rfl, hr, hs⟩
  · -- A call is for `fd`, and that lay ahead.
    refine List.pairwise_append.mpr ⟨h.turns.fresh, hfresh, fun e he e' he' x ret hx => ?_⟩
    obtain ⟨rfl, hr, -⟩ := (hcalled x).mp (mem_calls.mpr ⟨ret, hx ▸ he'⟩)
    exact (h.ahead x (.inl hr) (Nat.le_refl x)).2 e he
  · rcases Nat.lt_succ_iff_lt_or_eq.mp hlt with hlt | rfl
    · exact List.mem_append_left _ (h.turns.closed x hx hr hlt)
    · exact List.mem_append_right _ (hclosed hx hr)
  · rw [List.mem_append]
    exact fun hmem => hmem.elim h.listening hlistening
  · obtain ⟨hopen, huntouched⟩ := h.ahead x hx (by omega)
    refine ⟨hconn x hopen (by omega), fun e he => ?_⟩
    rcases List.mem_append.mp he with he | he
    · exact huntouched e he
    · obtain ⟨y, hy, hne⟩ := hfd e he
      rw [hy]
      intro hxy
      obtain rfl := Option.some.inj hxy
      exact hne.elim (by omega) fun hn => hn hopen

/-- The end of the `for`. -/
theorem Sweeping.swept {maxfd : Nat} (h : Sweeping s read except fd conn l) (hmax : ∀ x ∈ conn, x ≤ maxfd)
    (hfd : maxfd < fd) : Round s read except l := by
  have hbefore : ∀ x, x ∈ read ∨ x ∈ except → x < fd := by
    intro x hx
    by_contra hle
    have := hmax x (h.ahead x hx (by omega)).1
    omega
  refine ⟨h.turns.onFd, h.turns.ascending, fun x => ?_, h.turns.fresh, fun x hx hr _ => ?_⟩
  · rw [h.turns.called]
    exact ⟨fun hx => ⟨hx.1, hx.2.1, fun hc => absurd hc h.listening⟩, fun hx => ⟨hx.1, hx.2.1, hbefore x (.inl hx.1)⟩⟩
  · exact h.turns.closed x hx hr (hbefore x (.inr hx))

/-- The end at the listening socket. -/
theorem Sweeping.listener (h : Sweeping s read except s conn l) (hread : s ∉ read) :
    Round s read except (l ++ [.close s]) := by
  have hcalls : calls (l ++ [.close s]) = calls l := by
    rw [calls_append]
    exact List.append_nil _
  have hmem : Event.close s ∈ l ++ [.close s] := List.mem_append_right _ (List.mem_singleton_self _)
  refine ⟨fun e he => ?_, ?_, fun x => ?_, ?_, fun x hx hr hle => ?_⟩
  · rcases List.mem_append.mp he with he | he
    · exact h.turns.onFd e he
    · rw [List.mem_singleton.mp he]
      exact Option.some_ne_none s
  · rw [hcalls]
    exact h.turns.ascending
  · rw [hcalls, h.turns.called]
    constructor
    · rintro ⟨hr, hs, hlt⟩
      exact ⟨hr, hs, fun _ => Nat.le_of_lt hlt⟩
    · rintro ⟨hr, hs, hle⟩
      have := hle hmem
      exact ⟨hr, hs, by omega⟩
  · refine List.pairwise_append.mpr ⟨h.turns.fresh, List.pairwise_singleton _ _, fun e _ e' he' x ret hx => ?_⟩
    rw [List.mem_singleton.mp he'] at hx
    cases hx
  · rcases Nat.lt_or_eq_of_le (hle hmem) with hlt | rfl
    · exact List.mem_append_left _ (h.turns.closed x hx hr hlt)
    · exact hmem

end Sweep

/-! ## Runs -/

/-- The descriptors that are open are those of `conn`, none is opened or closed twice, `select` looks at each, and
`handle_data` is only called for one that is open. -/
structure Holds (conn : Finset Nat) (maxfd : Nat) (log : List Event) : Prop where
  exclusive : Exclusive (ledger log)
  balance : ∀ fd, balance (ledger log) fd = if fd ∈ conn then 1 else 0
  low : ∀ fd ∈ conn, fd ≤ maxfd
  live : ∀ l fd ret, l ++ [.handle fd ret] <+: log → Ledger.balance (ledger l) fd = 1

/-- Up to the last `select` there are whole rounds. -/
def Main.Shaped (s : Nat) (m : Main H) : Prop :=
  match m.place with
  | .sweep read except fd =>
    ∃ l l', m.log = l ++ .select read except :: l' ∧ Rounds s l ∧ Sweeping s read except fd m.conn l'
  | _ => Rounds s m.log

section Runs

variable {conn : Finset Nat} {maxfd fd : Nat} {log : List Event}

theorem ledger_snoc (log : List Event) (e : Event) : ledger (log ++ [e]) = ledger log ++ e.ops := by
  rw [ledger, List.flatMap_append, List.flatMap_singleton]
  rfl

theorem holds_start (s : Nat) : Holds {s} s [.socket s] where
  exclusive := exclusive_nil.acquire rfl
  balance fd := by
    show Ledger.balance [.acquire s] fd = _
    simp only [Ledger.balance, Finset.mem_singleton, eq_comm (a := s)]
    exact Int.zero_add _
  low fd hfd := Nat.le_of_eq (Finset.mem_singleton.mp hfd)
  live l fd ret h := by
    rcases List.prefix_concat_iff.mp (show l ++ [Event.handle fd ret] <+: [] ++ [.socket s] from h) with heq | hp
    · cases (List.append_inj' heq rfl).2
    · exact absurd (congrArg List.length (List.prefix_nil.mp hp)) (by simp)

/-- An event that is no call. -/
theorem live_snoc (h : Holds conn maxfd log) {e : Event}
    (he : ∀ fd ret, e = .handle fd ret → Ledger.balance (ledger log) fd = 1) (l : List Event) (fd : Nat) (ret : Int)
    (hp : l ++ [.handle fd ret] <+: log ++ [e]) : Ledger.balance (ledger l) fd = 1 := by
  rcases List.prefix_concat_iff.mp hp with heq | hp
  · obtain ⟨rfl, hlast⟩ := List.append_inj' heq rfl
    exact he fd ret (List.cons.inj hlast).1.symm
  · exact h.live l fd ret hp

theorem Holds.select (h : Holds conn maxfd log) (read except : Finset Nat) :
    Holds conn maxfd (log ++ [.select read except]) where
  exclusive := by
    rw [ledger_snoc, Event.ops, List.append_nil]
    exact h.exclusive
  balance fd := by
    rw [ledger_snoc, Event.ops, List.append_nil]
    exact h.balance fd
  low := h.low
  live := live_snoc h fun _ _ he => by cases he

theorem Holds.handle (h : Holds conn maxfd log) (hfd : fd ∈ conn) (ret : Int) :
    Holds conn maxfd (log ++ [.handle fd ret]) where
  exclusive := by
    rw [ledger_snoc, Event.ops, List.append_nil]
    exact h.exclusive
  balance fd := by
    rw [ledger_snoc, Event.ops, List.append_nil]
    exact h.balance fd
  low := h.low
  live := live_snoc h fun x ret' he => by
    obtain rfl := (Event.handle.inj he).1
    rw [h.balance, if_pos hfd]

theorem Holds.accept (h : Holds conn maxfd log) (hnew : fd ∉ conn) :
    Holds (insert fd conn) (if fd > maxfd then fd else maxfd) (log ++ [.accept fd]) where
  exclusive := by
    rw [ledger_snoc, Event.ops]
    exact h.exclusive.acquire (by rw [h.balance, if_neg hnew])
  balance x := by
    rw [ledger_snoc, Event.ops, balance_acquire, h.balance]
    by_cases hx : fd = x
    · subst hx
      rw [if_neg hnew, if_pos rfl, if_pos (Finset.mem_insert_self _ _)]
      rfl
    · have hne : x ≠ fd := fun hxf => hx hxf.symm
      rw [if_neg hx, Int.add_zero]
      simp only [Finset.mem_insert, hne, false_or]
  low x hx := by
    rcases Finset.mem_insert.mp hx with rfl | hx
    · split <;> omega
    · have := h.low x hx
      split <;> omega
  live := live_snoc h fun _ _ he => by cases he

theorem Holds.close (h : Holds conn maxfd log) (hfd : fd ∈ conn) :
    Holds (conn.erase fd) maxfd (log ++ [.close fd]) where
  exclusive := by
    rw [ledger_snoc, Event.ops]
    exact h.exclusive.release (by rw [h.balance, if_pos hfd])
  balance x := by
    rw [ledger_snoc, Event.ops, balance_release, h.balance]
    by_cases hx : fd = x
    · subst hx
      rw [if_pos hfd, if_pos rfl, if_neg (Finset.notMem_erase _ _)]
      rfl
    · have hne : x ≠ fd := fun hxf => hx hxf.symm
      rw [if_neg hx, Int.sub_zero]
      simp only [Finset.mem_erase, hne, ne_eq, not_false_eq_true, true_and]
  low x hx := h.low x (Finset.mem_of_mem_erase hx)
  live := live_snoc h fun _ _ he => by cases he

end Runs

variable {shifting : Shifting H} {ok : Env → Prop} {sends : List UInt8 → Prop} {s : Nat}

theorem Main.Shaped.sweep {m : Main H} {read except : Finset Nat} {fd : Nat} (h : m.Shaped s)
    (hplace : m.place = .sweep read except fd) :
    ∃ l l', m.log = l ++ .select read except :: l' ∧ Rounds s l ∧ Sweeping s read except fd m.conn l' := by
  unfold Main.Shaped at h
  rw [hplace] at h
  exact h

theorem Main.Shaped.atSelect {m : Main H} (h : m.Shaped s) (hplace : m.place = .select) : Rounds s m.log := by
  unfold Main.Shaped at h
  rw [hplace] at h
  exact h

/-- The next descriptor of the `for`. -/
theorem Main.Shaped.next {m n : Main H} {read except : Finset Nat} {fd : Nat} (l' : List Event) (h : m.Shaped s)
    (hm : m.place = .sweep read except fd) (hn : n.place = .sweep read except (fd + 1)) (hlog : n.log = m.log ++ l')
    (hfd : ∀ e ∈ l', ∃ x, e.fd = some x ∧ (x = fd ∨ x ∉ m.conn)) (hconn : ∀ x ∈ m.conn, x ≠ fd → x ∈ n.conn)
    (hcalls : calls l' = if fd ∈ read ∧ fd ≠ s then [fd] else []) (hfresh : Fresh l') (hlistening : .close s ∉ l')
    (hclosed : fd ∈ except → fd ∉ read → .close fd ∈ l') : n.Shaped s := by
  obtain ⟨l, q, heq, hl, hsweep⟩ := h.sweep hm
  unfold Main.Shaped
  rw [hn]
  refine ⟨l, q ++ l', ?_, hl, hsweep.next hfd hconn hcalls hfresh hlistening hclosed⟩
  rw [hlog, heq, List.append_assoc, List.cons_append]

theorem Main.Shaped.opened {m : Main H} {read except : Finset Nat} {fd : Nat} (h : m.Shaped s)
    (hm : m.place = .sweep read except fd) (hfd : fd ∈ read ∨ fd ∈ except) : fd ∈ m.conn := by
  obtain ⟨l, q, -, -, hsweep⟩ := h.sweep hm
  exact (hsweep.ahead fd hfd (Nat.le_refl fd)).1

/-- **A step.** -/
theorem Main.Step.keeps {m n : Main H} (hstep : Main.Step shifting ok sends s m n) (h : Holds m.conn m.maxfd m.log)
    (hshape : m.Shaped s) : Holds n.conn n.maxfd n.log ∧ n.Shaped s := by
  cases hstep with
  | select read except hplace hread hexcept =>
    exact ⟨h.select read except, m.log, [], rfl, hshape.atSelect hplace, sweeping_start hread hexcept⟩
  | selectFailed hplace => exact ⟨h, hshape.atSelect hplace⟩
  | swept hplace hfd =>
    obtain ⟨l, l', hlog, hl, hsweep⟩ := hshape.sweep hplace
    refine ⟨h, ?_⟩
    show Rounds s m.log
    rw [hlog]
    exact hl.round (hsweep.swept h.low hfd)
  | accept hplace hfd hread hs newfd hnew stream hstream =>
    refine ⟨h.accept hnew, hshape.next [.accept newfd] hplace rfl rfl ?_ ?_ ?_ ?_ ?_ ?_⟩
    · exact List.forall_mem_singleton.mpr ⟨newfd, rfl, .inr hnew⟩
    · exact fun x hx _ => Finset.mem_insert_of_mem hx
    · exact (if_neg fun hc => hc.2 hs).symm
    · exact List.pairwise_singleton _ _
    · exact fun hmem => by cases List.mem_singleton.mp hmem
    · exact fun _ hr => absurd hread hr
  | acceptFailed hplace hfd hread hs =>
    refine ⟨h, hshape.next [] hplace rfl (List.append_nil _).symm ?_ (fun x hx _ => hx) ?_ .nil List.not_mem_nil ?_⟩
    · exact fun _ he => (List.not_mem_nil he).elim
    · exact (if_neg fun hc => hc.2 hs).symm
    · exact fun _ hr => absurd hread hr
  | @handled read except fd hplace hfd hread hs e he calls d hret =>
    refine ⟨h.handle (hshape.opened hplace (.inl hread)) 0,
      hshape.next [.handle fd 0] hplace rfl rfl ?_ (fun x hx _ => hx) ?_ ?_ ?_ ?_⟩
    · exact List.forall_mem_singleton.mpr ⟨fd, rfl, .inl rfl⟩
    · exact (if_pos ⟨hread, hs⟩).symm
    · exact List.pairwise_singleton _ _
    · exact fun hmem => by cases List.mem_singleton.mp hmem
    · exact fun _ hr => absurd hread hr
  | @closed read except fd hplace hfd hread hs e he calls d ret hret hne =>
    have hopen := hshape.opened hplace (.inl hread)
    refine ⟨(h.handle hopen ret).close hopen,
      hshape.next [.handle fd ret, .close fd] hplace rfl (List.append_assoc _ _ _) ?_ ?_ ?_ ?_ ?_ ?_⟩
    · exact List.forall_mem_cons.mpr ⟨⟨fd, rfl, .inl rfl⟩, List.forall_mem_singleton.mpr ⟨fd, rfl, .inl rfl⟩⟩
    · exact fun x hx hne => Finset.mem_erase.mpr ⟨hne, hx⟩
    · exact (if_pos ⟨hread, hs⟩).symm
    · refine List.pairwise_pair.mpr fun x ret' hx => ?_
      cases hx
    · intro hmem
      rcases List.mem_pair.mp hmem with hx | hx
      · cases hx
      · exact hs (Event.close.inj hx).symm
    · exact fun _ hr => absurd hread hr
  | @aborted read except fd hplace hfd hread hexcept hs =>
    refine ⟨h.close (hshape.opened hplace (.inr hexcept)),
      hshape.next [.close fd] hplace rfl rfl ?_ ?_ ?_ ?_ ?_ ?_⟩
    · exact List.forall_mem_singleton.mpr ⟨fd, rfl, .inl rfl⟩
    · exact fun x hx hne => Finset.mem_erase.mpr ⟨hne, hx⟩
    · exact (if_neg fun hc => hread hc.1).symm
    · exact List.pairwise_singleton _ _
    · exact fun hmem => hs (Event.close.inj (List.mem_singleton.mp hmem)).symm
    · exact fun _ _ => List.mem_singleton_self _
  | listener hplace hfd hread hexcept hs =>
    subst hs
    obtain ⟨l, l', hlog, hl, hsweep⟩ := hshape.sweep hplace
    refine ⟨h.close (hshape.opened hplace (.inr hexcept)), ?_⟩
    show Rounds _ (m.log ++ [.close _])
    rw [hlog, List.append_assoc, List.cons_append]
    exact hl.round (hsweep.listener hread)
  | idle hplace hfd hread hexcept =>
    refine ⟨h, hshape.next [] hplace rfl (List.append_nil _).symm ?_ (fun x hx _ => hx) ?_ .nil List.not_mem_nil ?_⟩
    · exact fun _ he => (List.not_mem_nil he).elim
    · exact (if_neg fun hc => hread hc.1).symm
    · exact fun hx => absurd hx hexcept

/-- **The loop.** Whatever `select`, `accept` and the calls of `handle_data` return, in any run of `main`: the open
descriptors are those of `conn`, each is opened and closed in turn, and `select` looks at all of them; `handle_data` is
only called for one that is open; and each time round, it is called exactly once for each connection that `select` has
found ready, in ascending order, with nothing done to that descriptor since, unless the listening socket is closed
before. -/
theorem select_loop {hw : H} {m : Main H}
    (hrun : Relation.ReflTransGen (Main.Step shifting ok sends s) (.start s hw) m) :
    Holds m.conn m.maxfd m.log ∧ m.Shaped s := by
  induction hrun with
  | refl => exact ⟨holds_start s, Rounds.start⟩
  | tail _ hstep ih => exact hstep.keeps ih.1 ih.2

/-! ## A run with two clients -/

section Visits

variable {S : Type} {B : Build H S} {step : S → Bool → Bool → S × Bool}

/-- A call for shifts, a message that is none, and what comes behind it. The induction is on the shifts. -/
theorem returns_upTo (hB : B.Serial step) {e : Env} (he : e.Succeeds) {a : List Msg} (ha : ∀ m ∈ a, afterMsg m = none)
    {x : Msg} (hx : afterMsg x = some 0) {l : List UInt8} (c : Conn H) (h : c.rest = (a ++ [x]).flatMap Msg.enc ++ l) :
    ∃ d, Returns B.shifting e c d 0 ∧ d.rest = l := by
  induction a generalizing c with
  | nil =>
    rw [List.nil_append, List.flatMap_singleton] at h
    obtain ⟨q, reply, -, i, hpass⟩ := pass_msg hB he x c h
    rw [hx] at hpass
    exact ⟨_, returns_last hpass, rfl⟩
  | cons m a ih =>
    rw [List.cons_append, List.flatMap_cons, List.append_assoc] at h
    obtain ⟨hm, ha⟩ := List.forall_mem_cons.mp ha
    obtain ⟨q, reply, -, i, hpass⟩ := pass_msg hB he m c h
    rw [hm] at hpass
    obtain ⟨d, hd, hrest⟩ := ih ha ⟨(a ++ [x]).flatMap Msg.enc ++ l, c.written ++ reply, i, q⟩ rfl
    exact ⟨d, hd.again hpass, hrest⟩

/-- A call for shifts, and bytes of which no pass can make anything. -/
theorem returns_shifts (hB : B.Serial step) {e : Env} (he : e.Succeeds) {a : List Msg} (ha : ∀ m ∈ a, afterMsg m = none)
    {tail : List UInt8} (htail : Broken B tail) (c : Conn H) (h : c.rest = a.flatMap Msg.enc ++ tail) :
    ∃ d, Returns B.shifting e c d 1 := by
  obtain ⟨now, later, d, ret, rfl, hd, -, -, ⟨-, hblock, -⟩ | ⟨rfl, -, -⟩⟩ := returns_block hB he a htail c h
  · obtain ⟨l, x, rfl, -, hx⟩ := hblock
    have hlast : x ∈ l ++ [x] := List.mem_append_right _ (List.mem_singleton_self x)
    have hnone := ha x.1 (List.mem_append_left _ (List.mem_map_of_mem hlast))
    exact absurd (hnone.symm.trans hx) (by decide)
  · exact ⟨d, hd⟩

/-- Two clients are accepted, and `select` then finds both ready. The first has sent shifts, a message that is none and
more shifts: it gets a call up to that message, then the second, that sends only shifts, gets its one call, and the
first its last. -/
theorem visits (hB : B.Serial step) (ok : Env → Prop) (sends : List UInt8 → Prop) {e : Env} (he : e.Succeeds)
    (hok : ok e)
    (a : List Msg) (x : Msg) (later other : List Msg) (ha : ∀ m ∈ a, afterMsg m = none) (hx : afterMsg x = some 0)
    (hlater : ∀ m ∈ later, afterMsg m = none) (hother : ∀ m ∈ other, afterMsg m = none) {tail tail' : List UInt8}
    (htail : Broken B tail) (htail' : Broken B tail')
    (hsends : sends ((a ++ [x]).flatMap Msg.enc ++ (later.flatMap Msg.enc ++ tail)))
    (hsends' : sends (other.flatMap Msg.enc ++ tail')) (hw : H) :
    ∃ m, Relation.ReflTransGen (Main.Step B.shifting ok sends 0) (.start 0 hw) m ∧ calls m.log = [1, 2, 1] ∧
      m.accepted = 2 ∧ (m.peer 0).ended = true ∧ (m.peer 1).ended = true ∧
      (m.peer 0).sent = (a ++ [x]).flatMap Msg.enc ++ (later.flatMap Msg.enc ++ tail) ∧
      (m.peer 1).sent = other.flatMap Msg.enc ++ tail' := by
  obtain ⟨hone, htwo, hboth, hlast⟩ : 1 ∉ ({0} : Finset Nat) ∧ 2 ∉ ({0} : Finset Nat) ∧ 0 ∉ ({1, 2} : Finset Nat) ∧
      0 ∉ ({1} : Finset Nat) := by decide
  have hrun : Relation.ReflTransGen (Main.Step B.shifting ok sends 0) (.start 0 hw) _ :=
    .tail .refl (.select {0} ∅ rfl (Finset.Subset.refl _) (Finset.empty_subset _))
  -- The first client.
  have hrun := hrun.tail (.accept rfl (Nat.le_refl 0) (Finset.mem_singleton_self 0) rfl 1 hone _ hsends)
  have hrun := hrun.tail (.idle rfl (Nat.le_refl 1) hone (Finset.notMem_empty 1))
  have hrun := hrun.tail (.swept rfl (Nat.lt_succ_self 1))
  -- The second.
  have hrun := hrun.tail (.select {0} ∅ rfl (Finset.subset_insert 1 {0}) (Finset.empty_subset _))
  have hrun := hrun.tail (.accept rfl (Nat.zero_le 1) (Finset.mem_singleton_self 0) rfl 2
    (show 2 ∉ insert 1 ({0} : Finset Nat) by decide) _ hsends')
  have hrun := hrun.tail (.idle rfl (Nat.le_succ 1) hone (Finset.notMem_empty 1))
  have hrun := hrun.tail (.idle rfl (Nat.le_refl 2) htwo (Finset.notMem_empty 2))
  have hrun := hrun.tail (.swept rfl (Nat.lt_succ_self 2))
  -- Both are ready.
  have hrun := hrun.tail (.select {1, 2} ∅ rfl
    (show {1, 2} ⊆ insert 2 (insert 1 ({0} : Finset Nat)) by decide) (Finset.empty_subset _))
  have hrun := hrun.tail (.idle rfl (Nat.zero_le 2) hboth (Finset.notMem_empty 0))
  obtain ⟨d, hd, hrest⟩ := returns_upTo hB he ha hx
    (⟨(a ++ [x]).flatMap Msg.enc ++ (later.flatMap Msg.enc ++ tail), [], 0, hw⟩ : Conn H) rfl
  have hrun := hrun.tail (.handled rfl (Nat.le_succ 1) (Finset.mem_insert_self 1 {2}) (by decide) hok 0 hd)
  obtain ⟨d', hd'⟩ := returns_shifts hB he hother htail' (⟨other.flatMap Msg.enc ++ tail', [], 0, d.hw⟩ : Conn H) rfl
  have hrun := hrun.tail (.closed rfl (Nat.le_refl 2) (show 2 ∈ ({1, 2} : Finset Nat) by decide) (by decide) hok 0 hd'
    (by decide))
  have hrun := hrun.tail (.swept rfl (Nat.lt_succ_self 2))
  -- The first once more.
  have hrun := hrun.tail (.select {1} ∅ rfl
    (show {1} ⊆ (insert 2 (insert 1 ({0} : Finset Nat))).erase 2 by decide) (Finset.empty_subset _))
  have hrun := hrun.tail (.idle rfl (Nat.zero_le 2) hlast (Finset.notMem_empty 0))
  obtain ⟨q, hq⟩ := returns_shifts hB he hlater htail (⟨d.rest, d.written, 0, d'.hw⟩ : Conn H) hrest
  exact ⟨_, hrun.tail (.closed rfl (Nat.le_succ 1) (Finset.mem_singleton_self 1) (by decide) hok 0 hq (by decide)),
    rfl, rfl, rfl, rfl, rfl, rfl⟩

end Visits

/-- A shift on each side of a `getinfo:`. -/
def parted : List Msg :=
  [.shift 12 [6, 2] [8, 4] (by decide) rfl rfl, .getinfo, .shift 5 [13] [11] (by decide) rfl rfl]

/-- Two connections that are ready in one round, and the first again in the next. -/
theorem select_loop_twoReady :
    ∃ m : Main (Ip Nat), calls m.log = [1, 2, 1] ∧ m.accepted = 2 ∧ Holds m.conn m.maxfd m.log ∧ m.Shaped 0 := by
  have hsucceeds : bytewise.Succeeds := ⟨fun _ => rfl, fun _ => calmKernel_succeeds⟩
  have htail : Broken (Target.build countingDevice 100 .zynq7000) [] := .command Nat.zero_lt_two
  obtain ⟨m, hrun, hcalls, haccepted, -⟩ := visits
    (build_serial countingDevice_inTime (BitSerial.Engine.of_serial Zynq7000.counting) (Nat.le_refl 100) .zynq7000)
    Env.Succeeds (fun _ => True) hsucceeds hsucceeds (parted.take 1) .getinfo (parted.drop 2) (parted.take 1)
    (by decide) rfl (by decide) (by decide) htail htail trivial trivial ⟨0, []⟩
  exact ⟨m, hcalls, haccepted, select_loop hrun⟩

end Jtag
end Xvc
