import Xvc.Lib.Machine
import Xvc.Server.Start
import Xvc.Versal.LockState

/-!
# The lock across connections

`locked` lives in the client record, which is zeroed for each connection, and `read_packet` does not
release the lock when it returns. `lock_released` says what follows: when `close_port` is called the
lock has been released as often as it was taken exactly when `locked` is 0, and as long as every
connection ends so, the lock is never taken while it is held.
-/

namespace Xvc
namespace Versal

open Server

variable {σ : Type} {h : XvcServerHandlers σ} {ports : Ports σ}

/-- The lock calls of a step of the server. -/
def Stage.lockCalls : Stage σ → Stage σ → List LockLog.Call
  | .serving _ c, .serving _ d => Versal.lockCalls c.s d.s
  | _, _ => []

/-- The server and the lock calls since its start. -/
structure LockDaemon (σ : Type) where
  daemon : Daemon σ
  log : List LockLog.Call

/-- A step of the server adds its lock calls to the log. -/
inductive LockDaemon.Step (P : Protocol σ) (ports : Ports σ) : LockDaemon σ → LockDaemon σ → Prop
  | of_step {m n : Daemon σ} (log : List LockLog.Call) (hstep : Daemon.Step P ports m n) :
      Step P ports ⟨m, log⟩ ⟨n, log ++ Stage.lockCalls m.stage n.stage⟩

/-- A connection that has ended does not hold the lock. -/
def Released (a : LockDaemon σ) : Prop :=
  ∀ fd c, a.daemon.stage = .serving fd c → c.Ended → c.s.c.locked = 0

/-- Between connections the lock is free; within one `locked` is what the log says. -/
def DaemonInv (h : XvcServerHandlers σ) (a : LockDaemon σ) : Prop :=
  match a.daemon.stage with
  | .serving _ c => LockInv h ⟨c, a.log⟩
  | _ => LockLog.held false a.log = some false

theorem lockInv_opened (h : XvcServerHandlers σ) (rx : RxBuffer) (mem : ByteMem) (data : σ)
    (error : Option (List UInt8)) (replyBuf : ByteMem) {log : List LockLog.Call}
    (hlog : LockLog.held false log = some false) : LockInv h ⟨Conn.opened rx mem data error replyBuf, log⟩ := by
  refine ⟨List.not_mem_nil, fun hne => ?_, false, hlog, ?_⟩
  · exact absurd (XvcClient.after_enableLocking _ _) hne
  · exact XvcClient.after_locked _ _

theorem DaemonInv.step {a b : LockDaemon σ} (hstep : LockDaemon.Step (protocol h) ports a b) (hr : Released a)
    (hi : DaemonInv h a) : DaemonInv h b := by
  obtain @⟨m, n, log, hstep⟩ := hstep
  cases hstep with
  | accept fd hs => simpa [DaemonInv, hs, Stage.lockCalls] using hi
  | acceptFailed hs => simpa [DaemonInv, hs, Stage.lockCalls] using hi
  | noPeer hs => simpa [DaemonInv, hs, Stage.lockCalls] using hi
  | peer rx mem hs hmax => simpa [DaemonInv, hs, Stage.lockCalls] using hi
  | openFailed hs hrval => simpa [DaemonInv, hs, Stage.lockCalls] using hi
  | opened hs hrval =>
    have hlog : LockLog.held false log = some false := by simpa [DaemonInv, hs] using hi
    simp only [DaemonInv, hs, Stage.lockCalls, List.append_nil]
    exact lockInv_opened h _ _ _ _ _ hlog
  | @serve fd c d hs hconn =>
    have hc : LockInv h ⟨c, log⟩ := by simpa [DaemonInv, hs] using hi
    have hd := hc.step (.of_step log hconn)
    simpa [DaemonInv, hs, Stage.lockCalls] using hd
  | @close fd c hs hend =>
    have hc : LockInv h ⟨c, log⟩ := by simpa [DaemonInv, hs] using hi
    obtain ⟨b, hlog, hlocked⟩ := hc.locked
    have h0 : c.s.c.locked = 0 := hr fd c hs hend
    cases b with
    | true => rw [h0] at hlocked; exact absurd hlocked (by decide)
    | false => simpa [DaemonInv, hs, Stage.lockCalls] using hlog

/-- The lock is free whenever it is taken. -/
theorem DaemonInv.of_lock {a b : LockDaemon σ} (hi : DaemonInv h a) (hstep : LockDaemon.Step (protocol h) ports a b)
    {ok : Bool} (hm : LockLog.Call.lock ok ∈ b.log.drop a.log.length) : LockLog.held false a.log = some false := by
  obtain @⟨m, n, log, hstep⟩ := hstep
  rw [List.drop_left] at hm
  cases hstep with
  | @serve fd c d hs hconn =>
    have hc : LockInv h ⟨c, log⟩ := by simpa [DaemonInv, hs] using hi
    obtain ⟨b, hlog, hlocked⟩ := hc.locked
    have hm : LockLog.Call.lock ok ∈ Versal.lockCalls c.s d.s := by simpa [hs, Stage.lockCalls] using hm
    cases (lockEffect_step hconn hc.enabled).1 with
    | quiet hq => rw [hq.lockCalls] at hm; exact absurd hm List.not_mem_nil
    | lock hlock hcall hf hfree hreply herror hlocked' =>
      cases b with
      | true => rw [hfree] at hlocked; exact absurd hlocked (by decide)
      | false => exact hlog
    | unlock hunlock hcall hf hheld herror hlocked' =>
      rw [hcall.lockCalls] at hm
      exact absurd (Option.mem_toList.mp hm) (by simp [lockCall])
  | accept fd hs => simp [hs, Stage.lockCalls] at hm
  | acceptFailed hs => simp [hs, Stage.lockCalls] at hm
  | noPeer hs => simp [hs, Stage.lockCalls] at hm
  | peer rx mem hs hmax => simp [hs, Stage.lockCalls] at hm
  | openFailed hs hrval => simp [hs, Stage.lockCalls] at hm
  | opened hs hrval => simp [hs, Stage.lockCalls] at hm
  | close hs hend => simp [hs, Stage.lockCalls] at hm

/-- **The lock and its connections.** Any handlers, any connections, any bytes. In a run in which every
connection that ended had released the lock: when the next `close_port` is called the successful `lock`
calls are as many as the successful `unlock` calls if and only if this connection has released it too;
and `lock` is only called with nothing to release. -/
theorem lock_released (h : XvcServerHandlers σ) (ports : Ports σ) (data : σ) (replyBuf : ByteMem) (a : LockDaemon σ)
    (hrun : Relation.ReflTransGen (Machine.Guarded (LockDaemon.Step (protocol h) ports) Released)
      ⟨.start data replyBuf, []⟩ a) :
    (∀ fd c, a.daemon.stage = .serving fd c → c.Ended →
      ((LockLog.successes a.log).count true = (LockLog.successes a.log).count false ↔ c.s.c.locked = 0)) ∧
    ∀ b, LockDaemon.Step (protocol h) ports a b → ∀ ok, LockLog.Call.lock ok ∈ b.log.drop a.log.length →
      (LockLog.successes a.log).count true = (LockLog.successes a.log).count false := by
  have keep : ∀ a b : LockDaemon σ, LockDaemon.Step (protocol h) ports a b → Released a → DaemonInv h a →
      DaemonInv h b := fun _ _ hstep hr hi => hi.step hstep hr
  have hi := Machine.Guarded.invariant keep (show DaemonInv h ⟨.start data replyBuf, []⟩ from rfl) hrun
  refine ⟨fun fd c hs hend => ?_, fun b hstep ok hm => ?_⟩
  · have hc : LockInv h ⟨c, a.log⟩ := by simpa [DaemonInv, hs] using hi
    obtain ⟨b, hlog, hlocked⟩ := hc.locked
    have hcount := LockLog.balanced hlog
    rw [hlocked]
    cases b with
    | false => simpa using hcount
    | true =>
      simp only [Bool.toNat_false, Bool.toNat_true] at hcount
      exact ⟨fun heq => by omega, fun h1 => absurd h1 (by decide)⟩
  · simpa using LockLog.balanced (hi.of_lock hstep hm)

/-- A port that always opens. -/
def openPorts : Ports Unit := ⟨fun d => (d, none, 0), fun d => d⟩

/-- The server while it serves the connection of `a`. -/
def serving (a : Audit Unit) : LockDaemon Unit :=
  ⟨⟨.serving 4 a.conn, (), zeroHub, [.accepted 4, .malloc (Server.loaded () []).rx, .openPort 0]⟩, a.log⟩

/-- The first connection. -/
def firstAudit : Audit Unit := ⟨Conn.start (Server.loaded () []).rx () zeroHub zeroHub, []⟩

theorem released_of_stage {a : LockDaemon σ} (h : ∀ fd c, a.daemon.stage ≠ .serving fd c) : Released a :=
  fun fd c hs => absurd hs (h fd c)

theorem serving_first : Relation.ReflTransGen
    (Machine.Guarded (LockDaemon.Step (protocol lockHandlers) openPorts) Released)
    ⟨.start () zeroHub, []⟩ (serving firstAudit) := by
  refine .tail (.tail (.tail .refl ⟨.of_step [] (.accept 4 rfl), ?_⟩)
    ⟨.of_step [] (.peer (Server.loaded () []).rx zeroHub rfl rfl), ?_⟩) ⟨.of_step [] (.opened rfl (by decide)), ?_⟩
  · exact released_of_stage nofun
  · exact released_of_stage nofun
  · exact released_of_stage nofun

/-- A run of the connection that does not end before its last step is a run of the server. -/
theorem serving_run {a b : Audit Unit} (hrun : Relation.ReflTransGen
      (Machine.Guarded (Audit.Step (protocol lockHandlers)) fun a => ¬ a.conn.Ended) a b) :
    Relation.ReflTransGen (Machine.Guarded (LockDaemon.Step (protocol lockHandlers) openPorts) Released)
      (serving a) (serving b) := by
  induction hrun with
  | refl => exact .refl
  | tail _ hstep ih =>
    obtain ⟨hstep, hne⟩ := hstep
    obtain @⟨c, d, log, hconn⟩ := hstep
    refine .tail ih ⟨.of_step log (.serve rfl hconn), fun fd e hs hend => ?_⟩
    cases hs
    exact absurd hend hne

theorem guarded_advance (a : Audit Unit) (cbuf : Nat) (hp : a.conn.phase = .parse cbuf) :
    Machine.Guarded (Audit.Step (protocol lockHandlers)) (fun a => ¬ a.conn.Ended) a a.advance :=
  ⟨a.advance_step cbuf hp, by rintro (h | h) <;> rw [hp] at h <;> cases h⟩

/-- The peer closes the connection. -/
def Audit.close (a : Audit Unit) : Audit Unit :=
  ⟨{ a.conn with phase := .closed }, a.log ++ lockCalls a.conn.s a.conn.s⟩

theorem guarded_close (a : Audit Unit) (hp : a.conn.phase = .recv) :
    Machine.Guarded (Audit.Step (protocol lockHandlers)) (fun a => ¬ a.conn.Ended) a a.close :=
  ⟨.of_step a.log (.closed hp), by rintro (h | h) <;> rw [hp] at h <;> cases h⟩

theorem guarded_auditOf {bytes : List UInt8} (hne : bytes ≠ []) (hfit : bytes.length ≤ 10000) :
    Relation.ReflTransGen (Machine.Guarded (Audit.Step (protocol lockHandlers)) fun a => ¬ a.conn.Ended)
      firstAudit (auditOf bytes) :=
  .tail (.tail .refl (guarded_advance _ 0x1000 rfl))
    ⟨.of_step _ (.recv rfl hne hfit), by rintro (h | h) <;> cases h⟩

/-- A client that takes the lock and returns it. -/
def lockReturned : Audit Unit := (auditOf (enableLocking ++ ascii "lock:" ++ [5] ++ ascii "unlock:"))
  |>.advance |>.advance |>.advance |>.advance |>.advance |>.close

theorem lockReturned_run : Relation.ReflTransGen
    (Machine.Guarded (Audit.Step (protocol lockHandlers)) fun a => ¬ a.conn.Ended) firstAudit lockReturned :=
  .tail (.tail (.tail (.tail (.tail (.tail (guarded_auditOf (by decide) (by decide)) (guarded_advance _ 0x1000 rfl))
    (guarded_advance _ 0x1013 (by decide))) (guarded_advance _ 0x1000 (by decide)))
    (guarded_advance _ 0x1006 (by decide))) (guarded_advance _ 0x100d (by decide))) (guarded_close _ (by decide))

theorem lock_released_returned :
    (serving lockReturned).log = [.lock true, .unlock true] ∧
      ((LockLog.successes (serving lockReturned).log).count true =
          (LockLog.successes (serving lockReturned).log).count false ↔
        lockReturned.conn.s.c.locked = 0) :=
  ⟨by decide, (lock_released lockHandlers openPorts () zeroHub (serving lockReturned)
    (serving_first.trans (serving_run lockReturned_run))).1 4 lockReturned.conn rfl (.inl rfl)⟩

/-- A client that takes the lock and leaves. -/
def lockKept : Audit Unit := (auditOf (enableLocking ++ ascii "lock:" ++ [5]))
  |>.advance |>.advance |>.advance |>.advance |>.close

theorem lockKept_run : Relation.ReflTransGen
    (Machine.Guarded (Audit.Step (protocol lockHandlers)) fun a => ¬ a.conn.Ended) firstAudit lockKept :=
  .tail (.tail (.tail (.tail (.tail (guarded_auditOf (by decide) (by decide)) (guarded_advance _ 0x1000 rfl))
    (guarded_advance _ 0x1013 (by decide))) (guarded_advance _ 0x1000 (by decide)))
    (guarded_advance _ 0x1006 (by decide))) (guarded_close _ (by decide))

theorem lock_not_released :
    ¬ ∀ (h : XvcServerHandlers Unit) (ports : Ports Unit) (data : Unit) (replyBuf : ByteMem)
        (a : LockDaemon Unit), h.lock.isSome → h.unlock.isSome →
      Relation.ReflTransGen (LockDaemon.Step (protocol h) ports) ⟨.start data replyBuf, []⟩ a →
      ∀ fd c, a.daemon.stage = .serving fd c → c.Ended →
        (LockLog.successes a.log).count true = (LockLog.successes a.log).count false := by
  intro hall
  have hrun := Machine.Guarded.run (serving_first.trans (serving_run lockKept_run))
  have heq := hall lockHandlers openPorts () zeroHub (serving lockKept) rfl rfl hrun 4 lockKept.conn rfl (.inl rfl)
  have hlog : (serving lockKept).log = [.lock true] := by decide
  rw [hlog] at heq
  exact absurd heq (by decide)

end Versal
end Xvc
