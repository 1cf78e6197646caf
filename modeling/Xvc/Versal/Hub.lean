import Xvc.Lifecycle
import Xvc.Server.Visits
import Xvc.Versal.Memory

/-!
# The clients of `xvc_mem`

`memory_semantics` is about one connection. Here the accept loop serves any number of clients, one after the
other. What they write is in the hub for the clients after them; the pending error goes with its client.

* `HubState.next`, `HubState.after`: the hub after a client, and after several.
* `Client.run`: from any state of the hub, what a client is answered and what it leaves.
* `hub_run`: the clients of a run, by induction on the run.
-/

namespace Xvc
namespace Versal

open ByteMem Machine Stream

/-- A client: its bytes as they arrive, the requests that they complete, and the connection when it leaves. -/
structure Client where
  chunks : List (List UInt8)
  mss : List (List Msg)
  rest : List UInt8
  conn : Conn ByteMem

/-- The requests of a client. -/
def Client.msgs (v : Client) : List Msg := v.mss.flatten

/-- A client connects to `xvc_mem`, is served and leaves. -/
def Client.Visits (hub : MemRegion) (v : Client) : Daemon ByteMem → Daemon ByteMem → Prop :=
  Daemon.Visit (protocol (handlers hub)) hubPorts v.chunks v.conn

namespace HubState

variable {hub : MemRegion} {init : ByteMem}

/-- After a client has left: its writes stay, its error does not. -/
def next (hub : MemRegion) (init : ByteMem) (st : HubState) (v : Client) : HubState :=
  { ((wire hub init).run v.msgs st).core with pending := .none }

def after (hub : MemRegion) (init : ByteMem) (vs : List Client) (st : HubState) : HubState :=
  vs.foldl (next hub init) st

/-- The requests do nothing but append writes. -/
theorem writes_step (m : Msg) (st : HubState) : st.writes <+: (step hub init m st).core.writes := by
  cases m with
  | mrd flags addr numBytes =>
    simp only [step]
    split
    · exact List.prefix_rfl
    split
    · exact List.prefix_rfl
    · exact List.prefix_rfl
  | mwr flags addr numBytes data hd =>
    simp only [step]
    split
    · exact List.prefix_rfl
    split
    · exact List.prefix_append _ _
    · exact List.prefix_rfl
  | _ => exact List.prefix_rfl

theorem writes_run (ms : List Msg) (st : HubState) : st.writes <+: ((wire hub init).run ms st).core.writes := by
  induction ms generalizing st with
  | nil => exact List.prefix_rfl
  | cons m ms ih => exact (writes_step m st).trans (ih (step hub init m st).core)

/-- No client undoes the writes of those before it. -/
theorem writes_after (vs : List Client) (st : HubState) : st.writes <+: (after hub init vs st).writes := by
  induction vs generalizing st with
  | nil => exact List.prefix_rfl
  | cons v vs ih => exact (writes_run v.msgs st).trans (ih (next hub init st v))

end HubState

/-- The requests of the client fit the receive buffer, and their replies, from this state of the hub, the reply
buffer. -/
structure Client.Sends (hub : MemRegion) (init : ByteMem) (v : Client) (st : HubState) : Prop where
  batched : Batched Msg.enc (fun m => m.MemRequest ∧ m.enc.length ≤ maxPacketLen) [] v.chunks v.mss v.rest
  requests : ∀ m ∈ v.msgs, m.MemRequest ∧ m.enc.length ≤ maxPacketLen
  replies : (HubState.wire hub init).BatchesFit v.mss st

/-- `simulates`, for the buffer that `xvcserver_start` allocates. -/
theorem simulates_hub (hub : MemRegion) (init : ByteMem) :
    (Versal.wire (handlers hub) (memCallbacks hub) maxPacketLen).Simulates (HubState.wire hub init)
      (HubState.Shows hub init) Msg.MemRequest :=
  HubState.simulates hub init rfl

/-- `realizes`, for these messages. -/
theorem realizes_requests (hub : MemRegion) {rx : RxBuffer} (hmax : rx.bufMax = maxPacketLen) :
    Realizes (protocol (handlers hub)) id (Versal.wire (handlers hub) (memCallbacks hub) maxPacketLen) rx
      (fun m => m.MemRequest ∧ m.enc.length ≤ maxPacketLen) (LockingKnown (handlers hub)) := by
  rw [← hmax]
  exact (realizes (h := handlers hub) (memCallbacks hub) rx nofun).mono fun m hm =>
    ⟨hm.1.wellFormed hm.2, memCallbacks_served hm.1⟩

variable {hub : MemRegion} {init : ByteMem} {st : HubState} {m n : Daemon ByteMem}

/-- The hub between two clients. -/
structure HubState.Rests (hub : MemRegion) (init : ByteMem) (m : Daemon ByteMem) (st : HubState) : Prop where
  pending : st.pending = .none
  hub : ∀ i, m.clientData i = st.bytes hub init (hub.addr + i)

/-- **A client** is answered what `HubState.step` says from the state that it finds. -/
theorem Client.run {v : Client} (hv : v.Visits hub m n) (hm : st.Rests hub init m) (hsends : v.Sends hub init st) :
    sentOf v.conn.s.trace = ((HubState.wire hub init).run v.msgs st).reply ∧
      (HubState.next hub init st v).Rests hub init n := by
  have hshow : HubState.Shows hub init ⟨{}, m.clientData⟩ st := ⟨hm.pending.symm, hm.hub⟩
  have hsim := simulates_hub hub init
  have hreq : ∀ x ∈ v.msgs, x.MemRequest := fun x hx => (hsends.requests x hx).1
  have hwait := Daemon.Visit.waits hv (fun _ => realizes_requests hub) rfl hsends.batched hsends.requests (fun _ => rfl)
    (hsim.batchesFit hreq hshow hsends.replies)
  obtain ⟨hcore, hreply⟩ := hsim.run hreq hshow
  refine ⟨hwait.2.trans hreply, rfl, fun i => ?_⟩
  -- The memory is the hub's own, so it outlives the mapping.
  have hdata : n.clientData = v.conn.s.view.core.data := by cases hv; rfl
  rw [hdata, show v.conn.s.view.core = _ from hwait.1]
  exact hcore.hub i

/-- A client whose requests fit is served, and the loop is at `accept` again. -/
theorem Client.exists_visit (hm : st.Rests hub init m) (hstage : m.stage = .accept) {ms : List Msg}
    (hne : ms ≠ []) (hms : ∀ x ∈ ms, x.MemRequest ∧ x.enc.length ≤ maxPacketLen)
    (hlen : (ms.flatMap Msg.enc).length ≤ maxPacketLen)
    (hrep : ((HubState.wire hub init).run ms st).reply.length ≤ maxPacketLen) :
    ∃ v : Client, ∃ n, v.msgs = ms ∧ v.Visits hub m n ∧ v.Sends hub init st ∧ n.stage = .accept := by
  have hshow : HubState.Shows hub init ⟨{}, m.clientData⟩ st := ⟨hm.pending.symm, hm.hub⟩
  have hreply := ((simulates_hub hub init).run (fun x hx => (hms x hx).1) hshow).2
  have hr := realizes_requests hub (show (Server.loaded () []).rx.bufMax = maxPacketLen from rfl)
  have hrval : ¬ (hubPorts.openPort m.clientData).2.2 < 0 := by simp [hubPorts]
  obtain ⟨d, n, hv, hn⟩ := Daemon.Visit.exists_one hr rfl hstage hrval rfl hne hms hlen (fun _ => rfl)
    (by rw [← hreply] at hrep; exact hrep)
  refine ⟨⟨[ms.flatMap Msg.enc], [ms], [], d⟩, n, by simp [Client.msgs], hv, ⟨?_, ?_, hrep, trivial⟩, hn⟩
  · exact .cons (by simp) (.inl rfl) (.nil [])
  · simpa [Client.msgs] using hms

/-- **The clients of `xvc_mem`.** The accept loop serves the clients `vs` one after the other, each on a connection
of its own that brings `mrd:`, `mwr:` and `error:` messages in any chunks. Every client receives the replies of
`HubState.step` from the state that the clients before it left. That state has every write of those clients, and no
error. At the end each byte of the hub is the one that the last write to it stored. -/
theorem hub_run (hub : MemRegion) (init replyBuf : ByteMem) (vs : List Client) (n : Daemon ByteMem)
    (hrun : Run (Client.Visits hub) (.start init replyBuf) vs n)
    (hsends : ∀ before v later, vs = before ++ v :: later → v.Sends hub init (HubState.after hub init before {})) :
    let found := fun before => HubState.after hub init before {}
    (∀ before v later, vs = before ++ v :: later →
      sentOf v.conn.s.trace = ((HubState.wire hub init).run v.msgs (found before)).reply ∧
        (found before).pending = .none ∧
        ((HubState.wire hub init).run v.msgs (found before)).core.writes <+: (found vs).writes) ∧
    ∀ i, n.clientData i = (found vs).bytes hub init (hub.addr + i) := by
  have hstart : HubState.Rests hub init (.start init replyBuf) {} :=
    ⟨rfl, fun i => by simp [HubState.bytes, Daemon.start]⟩
  -- By induction on the run, from any state of the hub in which no error is pending.
  generalize Daemon.start init replyBuf = m at hrun hstart
  generalize ({} : HubState) = st at hsends hstart ⊢
  induction hrun generalizing st with
  | nil m => exact ⟨fun before v later h => by simp at h, hstart.hub⟩
  | @cons m t n v vs hv _ ih =>
    obtain ⟨hreply, hrests⟩ := Client.run hv hstart (hsends [] v vs rfl)
    obtain ⟨hanswers, hbytes⟩ := ih (HubState.next hub init st v)
      (fun before w later heq => hsends (v :: before) w later (by rw [heq]; rfl)) hrests
    refine ⟨?_, hbytes⟩
    rintro (_ | ⟨u, before⟩) w later heq
    · obtain ⟨rfl, -⟩ := List.cons.inj heq
      exact ⟨hreply, hstart.pending, HubState.writes_after vs (HubState.next hub init st v)⟩
    · obtain ⟨rfl, htail⟩ := List.cons.inj heq
      exact hanswers before w later htail

/-- A word is written, and a read leaves the window. -/
def writesThenFails : List Msg :=
  [.mwr (.ofUInt64 0) (.ofUInt64 0xA4000000) (.ofUInt64 4) [1, 2, 3, 4] (by decide),
    .mrd (.ofUInt64 0) (.ofUInt64 0) (.ofUInt64 4)]

/-- The error is asked for, and the word is read. -/
def asksThenReads : List Msg := [.error, .mrd (.ofUInt64 0) (.ofUInt64 0xA4000000) (.ofUInt64 4)]

/-- The second client finds the word of the first, but not its error. -/
theorem hub_run_twoClients :
    ∃ vs n, Run (Client.Visits defaultHub) (.start zeroHub zeroHub) vs n ∧
      vs.map Client.msgs = [writesThenFails, asksThenReads] ∧
      vs.map (fun v => sentOf v.conn.s.trace) = [[0, 0, 0, 0, 0, 1], [0, 1, 2, 3, 4, 0]] := by
  have hstart : HubState.Rests defaultHub zeroHub (.start zeroHub zeroHub) {} := ⟨rfl, fun _ => rfl⟩
  have hone : ∀ x ∈ writesThenFails, x.MemRequest ∧ x.enc.length ≤ maxPacketLen := by
    simp [writesThenFails, Msg.MemRequest]
    decide
  have htwo : ∀ x ∈ asksThenReads, x.MemRequest ∧ x.enc.length ≤ maxPacketLen := by
    simp [asksThenReads, Msg.MemRequest]
    decide
  obtain ⟨v, m, hv, hvisit, hsends, hstage⟩ := Client.exists_visit hstart rfl (by decide) hone (by decide) (by decide)
  have hmid := (Client.run hvisit hstart hsends).2
  obtain ⟨w, n, hw, hvisit', hsends', -⟩ := Client.exists_visit hmid hstage (by decide) htwo (by decide)
    (by rw [HubState.next, hv]; decide)
  have hrun : Run (Client.Visits defaultHub) (.start zeroHub zeroHub) [v, w] n :=
    .cons hvisit (.cons hvisit' (.nil n))
  have hall := (hub_run defaultHub zeroHub zeroHub [v, w] n hrun (by
    rintro (_ | ⟨u, _ | ⟨x, before⟩⟩) y later heq
    · obtain ⟨rfl, -⟩ := List.cons.inj heq
      exact hsends
    · simp only [List.cons_append, List.nil_append, List.cons.injEq] at heq
      obtain ⟨rfl, rfl, -⟩ := heq
      exact hsends'
    · simp at heq)).1
  refine ⟨[v, w], n, hrun, by simp [hv, hw], ?_⟩
  have h₁ := (hall [] v [w] rfl).1
  have h₂ := (hall [v] w [] rfl).1
  simp only [List.map_cons, List.map_nil, h₁, h₂, HubState.after, List.foldl_nil, List.foldl_cons, HubState.next,
    hv, hw]
  decide

end Versal
end Xvc
