import Xvc.Server.Split
import Xvc.Server.Start

/-!
# One client after the other

`xvcserver_start` serves a client until it leaves, and then the next one.

* `Daemon.Visit`: a client that sends its bytes, and leaves when `read_packet` waits for more. `Visit.run`: this is a
  run of the loop.
* `Visit.waits`: what the messages of a client have done by then, for any server that realizes a `Wire`.
-/

namespace Xvc

open Machine Relation Stream

variable {σ A M : Type} {P : Protocol σ}

namespace Conn

variable {c d : Conn σ} {chunks : List (List UInt8)}

theorem steps_of_settles {snd : Nat → Int} (h : Settles (advance P snd) c d) : ReflTransGen (Step P) c d := by
  obtain ⟨⟨n, rfl⟩, -⟩ := h
  induction n with
  | zero => exact .refl
  | succ n ih =>
    rw [Function.iterate_succ_apply']
    generalize (advance P snd)^[n] c = e at ih
    cases hp : e.phase with
    | parse cbuf => exact ih.tail (.advance snd hp)
    | _ =>
      rw [advance_of_not_parse fun cbuf hc => by rw [hp] at hc; cases hc]
      exact ih

theorem steps_of_feed (h : Feed P c chunks d) : ReflTransGen (Step P) c d := by
  induction h with
  | nil c => exact .refl
  | cons hp hne hfit hrun _ ih =>
    exact ((ReflTransGen.single (.recv hp hne hfit)).trans (steps_of_settles hrun)).trans ih

theorem steps_of_session (h : c.Session P chunks d) : ReflTransGen (Step P) c d := by
  obtain ⟨e, he, hfeed⟩ := h
  exact (steps_of_settles he).trans (steps_of_feed hfeed)

end Conn

namespace Daemon

variable {ports : Ports σ} {m n : Daemon σ} {d : Conn σ} {chunks : List (List UInt8)}

/-- A client connects, its bytes arrive in these chunks, and it leaves when the connection waits in `d`. -/
inductive Visit (P : Protocol σ) (ports : Ports σ) (chunks : List (List UInt8)) (d : Conn σ) :
    Daemon σ → Daemon σ → Prop
  | served {m : Daemon σ} (fd : Nat) (rx : RxBuffer) (mem : ByteMem) (hstage : m.stage = .accept)
      (hmax : rx.bufMax = maxPacketLen) (hrval : ¬ (ports.openPort m.clientData).2.2 < 0)
      (hs : (Conn.opened rx mem (ports.openPort m.clientData).1 (ports.openPort m.clientData).2.1 m.replyBuf).Session P
        chunks d)
      (hrecv : d.phase = .recv) :
      Visit P ports chunks d m
        { stage := .accept
          clientData := ports.closePort d.s.clientData
          replyBuf := d.s.replyBuf
          log := m.log ++ [.accepted fd] ++ [.malloc rx] ++ [.openPort (ports.openPort m.clientData).2.2] ++
            [.closePort, .closed fd, .free d.s.rx] }

theorem serve_run {fd : Nat} {c : Conn σ} (h : ReflTransGen (Conn.Step P) c d) (hm : m.stage = .serving fd c) :
    ReflTransGen (Step P ports) m { m with stage := .serving fd d } := by
  induction h with
  | refl =>
    rw [← hm]
  | tail _ hstep ih => exact ih.tail (.serve rfl hstep)

/-- **A visit** is a run of the loop. -/
theorem Visit.run (h : Visit P ports chunks d m n) : ReflTransGen (Step P ports) m n := by
  cases h with
  | served fd rx mem hstage hmax hrval hs hrecv =>
    obtain ⟨stage, data, replyBuf, log⟩ := m
    obtain rfl : stage = .accept := hstage
    have hsteps := Conn.steps_of_session hs
    refine .head (.accept fd rfl) (.head (.peer rx mem rfl hmax) (.head (.opened rfl hrval) ?_))
    refine (serve_run hsteps rfl).trans (.head (.serve rfl (.closed hrecv)) (.single ?_))
    exact Step.close (c := { d with phase := .closed }) rfl (.inl rfl)

/-- What the messages of a client have done when it leaves. -/
theorem Visit.waits {abs : Core σ → A} {W : Wire A M} {ok : M → Prop} {inv : A → Prop}
    (h : Visit P ports chunks d m n) (hr : ∀ rx, rx.bufMax = maxPacketLen → Realizes P abs W rx ok inv)
    (hopen : (ports.openPort m.clientData).2.1 = none) {mss : List (List M)} {q : List UInt8}
    (hb : Batched W.enc ok [] chunks mss q) (hms : ∀ x ∈ mss.flatten, ok x)
    (hinv : inv (abs ⟨{}, (ports.openPort m.clientData).1⟩))
    (hfit : W.BatchesFit mss (abs ⟨{}, (ports.openPort m.clientData).1⟩)) :
    abs d.s.view.core = (W.run mss.flatten (abs ⟨{}, (ports.openPort m.clientData).1⟩)).core ∧
      sentOf d.s.trace = (W.run mss.flatten (abs ⟨{}, (ports.openPort m.clientData).1⟩)).reply := by
  cases h with
  | served fd rx mem hstage hmax hrval hs hrecv =>
    rw [hopen] at hs
    obtain ⟨c, hc, hwait⟩ := start_waits (hr rx hmax) (ports.openPort m.clientData).1 mem m.replyBuf
    obtain ⟨c', hc', hfeed⟩ := hs
    obtain rfl := hc.unique hc'
    have hd := hwait.feed (hr rx hmax) hb hms hinv hfit hfeed
    exact ⟨hd.core, hd.sent⟩

/-- A client whose messages fit is served, in whatever chunks they come. -/
theorem Visit.exists_served {abs : Core σ → A} {W : Wire A M} {ok : M → Prop} {inv : A → Prop} {rx : RxBuffer}
    (hr : Realizes P abs W rx ok inv) (hmax : rx.bufMax = maxPacketLen) (hstage : m.stage = .accept)
    (hrval : ¬ (ports.openPort m.clientData).2.2 < 0) (hopen : (ports.openPort m.clientData).2.1 = none)
    {mss : List (List M)} {q : List UInt8} (hb : Batched W.enc ok [] chunks mss q) (hms : ∀ x ∈ mss.flatten, ok x)
    (hinv : inv (abs ⟨{}, (ports.openPort m.clientData).1⟩))
    (hfit : W.BatchesFit mss (abs ⟨{}, (ports.openPort m.clientData).1⟩)) (hne : ∀ chunk ∈ chunks, chunk ≠ [])
    (hlen : chunks.flatten.length ≤ maxPacketLen) :
    ∃ d n, Visit P ports chunks d m n ∧ n.stage = .accept := by
  obtain ⟨c, hc, hwait⟩ := start_waits hr (ports.openPort m.clientData).1 (fun _ => 0) m.replyBuf
  obtain ⟨d, hd, hw⟩ := hwait.exists_feed_all hr hb hms hinv hfit hne (by rw [hmax, List.length_nil]; omega)
  have hs : (Conn.opened rx (fun _ => 0) (ports.openPort m.clientData).1 (ports.openPort m.clientData).2.1
      m.replyBuf).Session P chunks d := by
    rw [hopen]
    exact ⟨c, hc, hd⟩
  exact ⟨d, _, .served 4 rx (fun _ => 0) hstage hmax hrval hs hw.phase, rfl⟩

/-- All of its messages in one chunk. -/
theorem Visit.exists_one {abs : Core σ → A} {W : Wire A M} {ok : M → Prop} {inv : A → Prop} {rx : RxBuffer}
    (hr : Realizes P abs W rx ok inv) (hmax : rx.bufMax = maxPacketLen) (hstage : m.stage = .accept)
    (hrval : ¬ (ports.openPort m.clientData).2.2 < 0) (hopen : (ports.openPort m.clientData).2.1 = none) {ms : List M}
    (hne : ms ≠ []) (hms : ∀ x ∈ ms, ok x) (hlen : (ms.flatMap W.enc).length ≤ maxPacketLen)
    (hinv : inv (abs ⟨{}, (ports.openPort m.clientData).1⟩))
    (hrep : (W.run ms (abs ⟨{}, (ports.openPort m.clientData).1⟩)).reply.length ≤ maxPacketLen) :
    ∃ d n, Visit P ports [ms.flatMap W.enc] d m n ∧ n.stage = .accept := by
  have henc : ms.flatMap W.enc ≠ [] := by
    obtain ⟨x, hx⟩ := List.exists_mem_of_ne_nil ms hne
    exact fun h => hr.enc_ne x (hms x hx) (List.flatMap_eq_nil_iff.mp h x hx)
  have hb : Batched W.enc ok [] [ms.flatMap W.enc] [ms] [] :=
    .cons (by rw [List.nil_append, List.append_nil]) (.inl rfl) (.nil [])
  exact Visit.exists_served hr hmax hstage hrval hopen hb (by simpa using hms) hinv ⟨hrep, trivial⟩
    (List.forall_mem_singleton.mpr henc) (by simpa using hlen)

end Daemon

end Xvc
