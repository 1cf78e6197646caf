import Xvc.Dpc.Contain
import Xvc.Lib.Ledger
import Xvc.Server.Room
import Xvc.Server.Start
import Xvc.Versal.Contain
import Xvc.Versal.XvcMem

/-!
# The lifecycle of a connection

What `xvcserver_start` acquires for a connection (the descriptor, the receive buffer, the port) against what
it gives back, in runs of any length with any results of its calls.

* `ledger`: the log of a `Daemon` as acquires and releases; `held`: what a stage of the loop has in hand.
* `Books`: the log accounts for what is held and for what was left behind. `Books.turn` is the step lemma.
* `connection_lifecycle_iff`: only a failed `getpeername` leaves something behind.
-/

namespace Xvc

open Ledger Machine

variable {σ τ R : Type}

/-! ## The receive buffer of a connection -/

namespace Conn

variable {P : Protocol σ} {D : Dispatch σ R} {c d : Conn σ}

theorem rx_finish (P : Protocol σ) (snd : Nat → Int) (s : Server σ) (cbuf : Nat) (fill : Bool) :
    (finish P snd s cbuf fill).s.rx = s.rx := by
  unfold finish
  split
  · have hrx : (s.runFlush P).1.rx = s.rx := Server.rx_of_received (Server.received_runFlush P s)
    generalize s.runFlush P = x at hrx
    obtain ⟨t, rval⟩ := x
    dsimp only
    split
    · exact hrx
    split
    · exact hrx
    split
    · exact hrx
    split
    · exact hrx
    · exact hrx
  · rfl

/-- `read_packet` stays with the buffer that it was given. -/
theorem rx_step (hkeep : D.KeepsBuffer) (hP : P.iter = D.iter) (hstep : Step P c d) : d.s.rx = c.s.rx := by
  cases hstep with
  | @advance cbuf snd hp =>
    rw [advance_parse hp, hP]
    cases hiter : D.iter c.s cbuf with
    | fill => exact rx_finish P snd c.s cbuf true
    | stop => exact rx_finish P snd c.s cbuf false
    | bad => rfl
    | abort => rfl
    | reply t p =>
      obtain ⟨r, q, -, rfl⟩ := Dispatch.iter_eq_reply.mp hiter
      exact (hkeep c.s r).1
  | recv hp hne hfit => rfl
  | closed hp => rfl
  | failed hp => rfl

end Conn

namespace Daemon

/-! ## The ledger -/

/-- What the loop acquires; a buffer is its address. -/
inductive Resource where
  | fd (fd : Nat)
  | buf (addr : Nat)
  | port
  deriving DecidableEq

/-- An event as acquires and releases. A failed `open_port` acquires nothing. -/
def ops : StartEvent → List (Op Resource)
  | .accepted fd => [.acquire (.fd fd)]
  | .closed fd => [.release (.fd fd)]
  | .malloc rx => [.acquire (.buf rx.buf)]
  | .free rx => [.release (.buf rx.buf)]
  | .openPort rval => if rval < 0 then [] else [.acquire .port]
  | .closePort => [.release .port]

def ledger (log : List StartEvent) : List (Op Resource) := log.flatMap ops

/-- What the loop has in hand; the buffer in use is that of the connection. -/
def held : Stage σ → List Resource
  | .accept => []
  | .accepted fd => [.fd fd]
  | .opening fd rx _ => [.fd fd, .buf rx.buf]
  | .serving fd c => [.port, .fd fd, .buf c.s.rx.buf]
  | .done => []

/-- Results of the calls that the loop makes, `read_packet` step by step. -/
inductive Returned where
  /-- `accept` returned a descriptor, or failed. -/
  | accept (fd : Option Nat)
  /-- `setsockopt` and `getpeername` for the descriptor. -/
  | client (fd : Nat) (setsockopt getpeername : Int)
  | openPort (rval : Int)
  | readPacket

/-- With these results the loop goes from one stage to the other. -/
def Returned.Leads : Returned → Stage σ → Stage σ → Prop
  | .accept (some fd), s, t => s = .accept ∧ t = .accepted fd
  | .accept none, s, t => s = .accept ∧ t = .done
  | .client fd _ getpeername, s, t => s = .accepted fd ∧ (getpeername < 0 ↔ t = .accept)
  | .openPort rval, s, t => (∃ fd rx mem, s = .opening fd rx mem) ∧ (rval < 0 ↔ t = .accept)
  | .readPacket, s, _ => ∃ fd c, s = .serving fd c

/-- A step of the loop with the results of its calls. -/
def Turn (P : Protocol σ) (ports : Ports σ) (o : Returned) (m n : Daemon σ) : Prop :=
  Step P ports m n ∧ o.Leads m.stage n.stage

/-- Every step of the loop is a turn, and `setsockopt` has no part in it. -/
theorem Step.turn {P : Protocol σ} {ports : Ports σ} {m n : Daemon σ} (hstep : Step P ports m n) (setsockopt : Int) :
    ∃ o, Turn P ports o m n ∧ ∀ fd opt peer, o = .client fd opt peer → opt = setsockopt := by
  have hlead : ∃ o : Returned, o.Leads m.stage n.stage ∧ ∀ fd opt peer, o = .client fd opt peer → opt = setsockopt := by
    cases hstep with
    | accept fd hs => exact ⟨.accept (some fd), ⟨hs, rfl⟩, nofun⟩
    | acceptFailed hs => exact ⟨.accept none, ⟨hs, rfl⟩, nofun⟩
    | @noPeer fd hs => exact ⟨.client fd setsockopt (-1), ⟨hs, by simp⟩, by rintro _ _ _ ⟨⟩; rfl⟩
    | @peer fd rx mem hs hmax => exact ⟨.client fd setsockopt 0, ⟨hs, by simp⟩, by rintro _ _ _ ⟨⟩; rfl⟩
    | openFailed hs hrval => exact ⟨.openPort (-1), ⟨⟨_, _, _, hs⟩, by simp⟩, nofun⟩
    | opened hs hrval => exact ⟨.openPort 0, ⟨⟨_, _, _, hs⟩, by simp⟩, nofun⟩
    | serve hs hconn => exact ⟨.readPacket, ⟨_, _, hs⟩, nofun⟩
    | close hs hend => exact ⟨.readPacket, ⟨_, _, hs⟩, nofun⟩
  obtain ⟨o, ho, hopt⟩ := hlead
  exact ⟨o, ⟨hstep, ho⟩, hopt⟩

/-! ## The statement -/

/-- A new connection: nothing is buffered, and the record is zeroed but for an error of its own `open_port`. -/
structure Fresh (error : Option (List UInt8)) (c : Conn σ) : Prop where
  bufLen : c.s.bufLen = 0
  record : c.s.c = XvcClient.after {} error

/-- The lifecycle of the connections up to `m`. -/
structure Lifecycle (P : Protocol σ) (ports : Ports σ) (m : Daemon σ) : Prop where
  /-- Nothing is given back twice, or taken while it is in hand. -/
  once : Exclusive (ledger m.log)
  /-- What is not in hand has been given back. -/
  settled : ∀ r, balance (ledger m.log) r = (held m.stage).count r
  /-- `open_port` is called with the port closed. -/
  opened : ∀ l rval, l ++ [.openPort rval] <+: m.log → balance (ledger l) .port = 0
  starts : ∀ n fd c rx mem, m.stage = .opening fd rx mem → Step P ports m n → n.stage = .serving fd c →
    Fresh (ports.openPort m.clientData).2.1 c

/-- No `getpeername` failed. -/
def PeersKnown (outcomes : List Returned) : Prop :=
  ∀ fd setsockopt getpeername, .client fd setsockopt getpeername ∈ outcomes → 0 ≤ getpeername

/-- The descriptor for which `getpeername` failed. -/
def Returned.leak : Returned → Option Resource
  | .client fd _ getpeername => if getpeername < 0 then some (.fd fd) else none
  | _ => none

def leaked (outcomes : List Returned) : List Resource := outcomes.filterMap Returned.leak

theorem leaked_eq_nil_iff (outcomes : List Returned) : leaked outcomes = [] ↔ PeersKnown outcomes := by
  unfold leaked PeersKnown
  rw [List.filterMap_eq_nil_iff]
  constructor
  · intro h fd opt peer hmem
    have hnone := h _ hmem
    by_contra hneg
    rw [Returned.leak, if_pos (Int.not_le.mp hneg)] at hnone
    cases hnone
  · intro h o hmem
    cases o with
    | client fd opt peer => exact if_neg (Int.not_lt.mpr (h fd opt peer hmem))
    | _ => rfl

theorem leaked_cons (o : Returned) (outcomes : List Returned) :
    leaked (o :: outcomes) = leaked [o] ++ leaked outcomes := by
  rw [← List.singleton_append]
  exact List.filterMap_append

/-! ## The books -/

/-- The log accounts for what is in hand and for what was left behind. -/
structure Books (log : List StartEvent) (hand left : List Resource) : Prop where
  balance : ∀ r, balance (ledger log) r = hand.count r + left.count r
  port : .port ∉ left
  opened : ∀ l rval, l ++ [.openPort rval] <+: log → Ledger.balance (ledger l) .port = 0
  once : left = [] → Exclusive (ledger log)

variable {log : List StartEvent} {hand hand' left : List Resource} {e : StartEvent} {r : Resource}

theorem ledger_snoc (log : List StartEvent) (e : StartEvent) : ledger (log ++ [e]) = ledger log ++ ops e := by
  unfold ledger
  rw [List.flatMap_append, List.flatMap_singleton]

theorem books_nil : Books [] [] [] where
  balance _ := rfl
  port := List.not_mem_nil
  opened l rval h := by simp at h
  once _ := exclusive_nil

/-- An event that is not an `open_port`, or comes with the port closed. -/
theorem Books.opened_snoc (hb : Books log hand left) (he : ∀ rval, e = .openPort rval → .port ∉ hand) :
    ∀ l rval, l ++ [.openPort rval] <+: log ++ [e] → Ledger.balance (ledger l) .port = 0 := by
  intro l rval hp
  rcases List.prefix_concat_iff.mp hp with heq | hp
  · obtain ⟨rfl, hev⟩ := List.append_inj' heq rfl
    rw [hb.balance, List.count_eq_zero.mpr (he rval (List.singleton_inj.mp hev).symm), List.count_eq_zero.mpr hb.port]
    rfl
  · exact hb.opened l rval hp

theorem Books.acquire (hb : Books log hand left) (he : ops e = [.acquire r]) (hr : r ∉ hand)
    (hport : ∀ rval, e = .openPort rval → .port ∉ hand) (hperm : hand'.Perm (r :: hand)) :
    Books (log ++ [e]) hand' left where
  balance r' := by
    rw [ledger_snoc, he, balance_acquire, hb.balance, hperm.count_eq, List.count_cons]
    by_cases hrr : r = r' <;> simp [hrr]
    omega
  port := hb.port
  opened := hb.opened_snoc hport
  once hnil := by
    rw [ledger_snoc, he]
    refine (hb.once hnil).acquire ?_
    rw [hb.balance, List.count_eq_zero.mpr hr, hnil]
    rfl

theorem Books.release (hb : Books log (r :: hand) left) (he : ops e = [.release r]) (hr : r ∉ hand)
    (hport : ∀ rval, e ≠ .openPort rval) : Books (log ++ [e]) hand left where
  balance r' := by
    rw [ledger_snoc, he, balance_release, hb.balance, List.count_cons]
    by_cases hrr : r = r' <;> simp [hrr]
    omega
  port := hb.port
  opened := hb.opened_snoc fun rval h => absurd h (hport rval)
  once hnil := by
    rw [ledger_snoc, he]
    refine (hb.once hnil).release ?_
    rw [hb.balance, List.count_cons_self, List.count_eq_zero.mpr hr, hnil]
    rfl

/-- `open_port` failed. -/
theorem Books.openFailed (hb : Books log hand left) {rval : Int} (hrval : rval < 0) (hport : .port ∉ hand) :
    Books (log ++ [.openPort rval]) hand left := by
  have hops : ledger (log ++ [.openPort rval]) = ledger log := by
    rw [ledger_snoc, ops, if_pos hrval, List.append_nil]
  exact ⟨by rw [hops]; exact hb.balance, hb.port, hb.opened_snoc fun _ _ => hport, by rw [hops]; exact hb.once⟩

/-- The descriptor is left open. -/
theorem Books.leave (hb : Books log [.fd fd] left) : Books log [] (left ++ [.fd fd]) where
  balance r := by
    rw [hb.balance, List.count_append, List.count_nil]
    omega
  port h := by
    rcases List.mem_append.mp h with h | h
    · exact hb.port h
    · simp at h
  opened := hb.opened
  once h := by simp at h

variable {P : Protocol σ} {D : Dispatch σ R} {ports : Ports σ} {m n : Daemon σ} {o : Returned}
  {outcomes : List Returned}

/-- Only a failed `getpeername` takes the loop from a descriptor back to `accept`. -/
theorem leak_of_leads {s t : Stage σ} (h : o.Leads s t) (hne : (∀ fd, s ≠ .accepted fd) ∨ t ≠ .accept) :
    o.leak = none := by
  cases o with
  | client fd opt peer =>
    obtain ⟨rfl, hpeer⟩ := h
    rcases hne with hs | ht
    · exact absurd rfl (hs fd)
    · exact if_neg fun hneg => ht (hpeer.mp hneg)
  | _ => rfl

theorem leak_of_noPeer {s t : Stage σ} {fd : Nat} (h : o.Leads s t) (hs : s = .accepted fd) (ht : t = .accept) :
    o.leak = some (.fd fd) := by
  subst hs ht
  cases o with
  | accept fd' => cases fd' <;> cases h.1
  | client fd' opt peer =>
    obtain ⟨hfd, hpeer⟩ := h
    cases hfd
    exact if_pos (hpeer.mpr rfl)
  | openPort rval =>
    obtain ⟨⟨_, _, _, hs⟩, -⟩ := h
    cases hs
  | readPacket =>
    obtain ⟨_, _, hs⟩ := h
    cases hs

/-- **One step** of the loop keeps the books. -/
theorem Books.turn (hkeep : D.KeepsBuffer) (hP : P.iter = D.iter) (hb : Books m.log (held m.stage) left)
    (hturn : Turn P ports o m n) : Books n.log (held n.stage) (left ++ leaked [o]) := by
  obtain ⟨hstep, hlead⟩ := hturn
  have hquiet : (∀ fd, m.stage ≠ .accepted fd) ∨ n.stage ≠ .accept → left ++ leaked [o] = left := fun h => by
    rw [leaked, List.filterMap_cons, leak_of_leads hlead h, List.filterMap_nil, List.append_nil]
  cases hstep with
  | accept fd hs =>
    rw [hquiet (.inr nofun)]
    rw [hs] at hb
    exact hb.acquire rfl List.not_mem_nil nofun (.refl _)
  | acceptFailed hs =>
    rw [hquiet (.inr nofun)]
    rwa [hs] at hb
  | @noPeer fd hs =>
    rw [leaked, List.filterMap_cons, leak_of_noPeer hlead hs rfl, List.filterMap_nil]
    rw [hs] at hb
    exact hb.leave
  | peer rx mem hs hmax =>
    rw [hquiet (.inr nofun)]
    rw [hs] at hb
    exact hb.acquire rfl (by simp [held]) nofun (.swap _ _ _)
  | openFailed hs hrval =>
    rw [hquiet (.inl (by rw [hs]; nofun))]
    rw [hs] at hb
    have hfailed := hb.openFailed hrval (by simp [held])
    have hclosed := hfailed.release (e := .closed _) rfl (by simp) nofun
    have hfreed := hclosed.release (e := .free _) rfl List.not_mem_nil nofun
    simpa [held] using hfreed
  | opened hs hrval =>
    rw [hquiet (.inr nofun)]
    rw [hs] at hb
    exact hb.acquire (if_neg hrval) (by simp [held]) (fun _ _ => by simp [held]) (.refl _)
  | @serve fd c d hs hconn =>
    rw [hquiet (.inr nofun)]
    rw [hs] at hb
    show Books m.log [.port, .fd fd, .buf d.s.rx.buf] left
    rw [Conn.rx_step hkeep hP hconn]
    exact hb
  | close hs hend =>
    rw [hquiet (.inl (by rw [hs]; nofun))]
    rw [hs] at hb
    have hport := hb.release (e := .closePort) rfl (by simp) nofun
    have hclosed := hport.release (e := .closed _) rfl (by simp) nofun
    have hfreed := hclosed.release (e := .free _) rfl List.not_mem_nil nofun
    simpa [held] using hfreed

/-- **A run** leaves behind exactly the descriptors for which `getpeername` failed. -/
theorem Books.run (hkeep : D.KeepsBuffer) (hP : P.iter = D.iter) (hrun : Run (Turn P ports) m outcomes n)
    (hb : Books m.log (held m.stage) left) : Books n.log (held n.stage) (left ++ leaked outcomes) := by
  induction hrun generalizing left with
  | nil m => simpa [leaked] using hb
  | cons hturn _ ih =>
    rw [leaked_cons, ← List.append_assoc]
    exact ih (hb.turn hkeep hP hturn)

theorem fresh_of_opening {fd fd' : Nat} {c : Conn σ} {rx : RxBuffer} {mem : ByteMem}
    (hm : m.stage = .opening fd rx mem) (hstep : Step P ports m n) (hn : n.stage = .serving fd' c) :
    Fresh (ports.openPort m.clientData).2.1 c := by
  cases hstep with
  | opened hs hrval =>
    cases hn
    exact ⟨rfl, rfl⟩
  | accept fd hs => cases hn
  | acceptFailed hs => cases hn
  | noPeer hs => cases hn
  | peer rx mem hs hmax => cases hn
  | openFailed hs hrval => cases hn
  | serve hs hconn => rw [hm] at hs; cases hs
  | close hs hend => cases hn

/-- **Any server** with this loop: the lifecycle is right if and only if no `getpeername` failed. -/
theorem lifecycle_iff_peersKnown (hkeep : D.KeepsBuffer) (hP : P.iter = D.iter) {data : σ} {replyBuf : ByteMem}
    (hrun : Run (Turn P ports) (.start data replyBuf) outcomes m) : Lifecycle P ports m ↔ PeersKnown outcomes := by
  have hb : Books m.log (held m.stage) (leaked outcomes) := books_nil.run hkeep hP hrun
  rw [← leaked_eq_nil_iff]
  constructor
  · intro h
    by_contra hne
    obtain ⟨r, hr⟩ := List.exists_mem_of_ne_nil _ hne
    have hcount := h.settled r
    rw [hb.balance] at hcount
    have hpos := List.count_pos_iff.mpr hr
    omega
  · intro hnil
    refine ⟨hb.once hnil, fun r => ?_, hb.opened, fun _ _ _ _ _ hm hstep hn => fresh_of_opening hm hstep hn⟩
    rw [hb.balance, hnil]
    exact Int.add_zero _

end Daemon

/-! ## Both servers -/

/-- **The lifecycle of connections.** For either server, with any handlers and ports, and any results of the calls
of the accept loop and of `read_packet`: after any number of connections the books are right if and only if
`getpeername` has never failed. -/
theorem connection_lifecycle_iff (h : Versal.XvcServerHandlers σ) (h' : Dpc.XvcServerHandlers τ) (ports : Ports σ)
    (ports' : Ports τ) (data : σ) (data' : τ) (replyBuf : ByteMem) :
    (∀ outcomes m, Run (Daemon.Turn (Versal.protocol h) ports) (.start data replyBuf) outcomes m →
      (Daemon.Lifecycle (Versal.protocol h) ports m ↔ Daemon.PeersKnown outcomes)) ∧
    ∀ outcomes m, Run (Daemon.Turn (Dpc.protocol h') ports') (.start data' replyBuf) outcomes m →
      (Daemon.Lifecycle (Dpc.protocol h') ports' m ↔ Daemon.PeersKnown outcomes) :=
  ⟨fun _ _ hrun => Daemon.lifecycle_iff_peersKnown (Versal.keepsBuffer h) rfl hrun,
    fun _ _ hrun => Daemon.lifecycle_iff_peersKnown (Dpc.keepsBuffer h') rfl hrun⟩

/-- A port that opens. -/
def plainPorts : Ports Unit := ⟨fun d => (d, none, 0), fun d => d⟩

/-- `xvc_mem`'s protocol. -/
abbrev hubProtocol : Protocol ByteMem := Versal.protocol (Versal.handlers Versal.defaultHub)

/-- The port of `xvc_mem`. -/
def hubPorts : Ports ByteMem := ⟨fun d => (d, none, 0), fun d => d⟩

/-- The events of a client on descriptor 4 that connects and leaves. -/
def visit : List StartEvent :=
  [.accepted 4, .malloc (Server.loaded () []).rx, .openPort 0, .closePort, .closed 4, .free (Server.loaded () []).rx]

/-- Two such clients, one after the other. -/
def visited : Daemon ByteMem := ⟨.accept, Versal.zeroHub, Versal.zeroHub, visit ++ visit⟩

/-- The results of the calls for one of them. -/
def visitOutcomes : List Daemon.Returned :=
  [.accept (some 4), .client 4 0 0, .openPort 0, .readPacket, .readPacket, .readPacket]

theorem first_visit_run : Run (Daemon.Turn hubProtocol hubPorts) (.start Versal.zeroHub Versal.zeroHub) visitOutcomes
    ⟨.accept, Versal.zeroHub, Versal.zeroHub, visit⟩ :=
  .cons ⟨.accept 4 rfl, rfl, rfl⟩ <|
  .cons ⟨.peer (Server.loaded () []).rx Versal.zeroHub rfl rfl, rfl, by simp⟩ <|
  .cons ⟨.opened rfl (by decide), ⟨_, _, _, rfl⟩, by simp⟩ <|
  .cons ⟨.serve rfl (.advance Conn.sendAll rfl), _, _, rfl⟩ <|
  .cons ⟨.serve rfl (.closed rfl), _, _, rfl⟩ <|
  .cons ⟨.close rfl (.inl rfl), _, _, rfl⟩ <| .nil _

theorem visited_run : Run (Daemon.Turn hubProtocol hubPorts) (.start Versal.zeroHub Versal.zeroHub)
    (visitOutcomes ++ visitOutcomes) visited :=
  first_visit_run.append <|
    .cons ⟨.accept 4 rfl, rfl, rfl⟩ <|
    .cons ⟨.peer (Server.loaded () []).rx Versal.zeroHub rfl rfl, rfl, by simp⟩ <|
    .cons ⟨.opened rfl (by decide), ⟨_, _, _, rfl⟩, by simp⟩ <|
    .cons ⟨.serve rfl (.advance Conn.sendAll rfl), _, _, rfl⟩ <|
    .cons ⟨.serve rfl (.closed rfl), _, _, rfl⟩ <|
    .cons ⟨.close rfl (.inl rfl), _, _, rfl⟩ <| .nil _

theorem connection_lifecycle_iff_visited : Daemon.Lifecycle hubProtocol hubPorts visited :=
  ((connection_lifecycle_iff (Versal.handlers Versal.defaultHub) Dpc.idleHandlers hubPorts plainPorts Versal.zeroHub ()
    Versal.zeroHub).1 _ visited visited_run).mpr (by intro fd opt peer hmem; simp [visitOutcomes] at hmem; omega)

/-- A peer that is gone when `getpeername` asks for it: descriptor 4 stays open. -/
theorem lifecycle_leaks_descriptor :
    ¬ ∀ outcomes m, Run (Daemon.Turn hubProtocol hubPorts) (.start Versal.zeroHub Versal.zeroHub) outcomes m →
      Daemon.Lifecycle hubProtocol hubPorts m := by
  intro hall
  have hrun : Run (Daemon.Turn hubProtocol hubPorts) (.start Versal.zeroHub Versal.zeroHub)
      [.accept (some 4), .client 4 0 (-1)] ⟨.accept, Versal.zeroHub, Versal.zeroHub, [.accepted 4]⟩ :=
    .cons ⟨.accept 4 rfl, rfl, rfl⟩ <| .cons ⟨.noPeer rfl, rfl, by simp⟩ <| .nil _
  have hsettled := (hall _ _ hrun).settled (.fd 4)
  exact absurd hsettled (by decide)

end Xvc
