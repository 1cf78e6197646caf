import Xvc.Jtag.Select

/-!
# Clients of the JTAG servers

`main` serves its connections in turn, on one device. `History` is what the clients see of a run: the messages of
each are answered in order, and all of them are one run of the device. `clients_serial` says that every run of `main`
has one.
-/

namespace Xvc
namespace Jtag

open ZynqMP

variable {H S : Type} {B : Build H S} {step : S → Bool → Bool → S × Bool} {s : Nat}

/-- Whole messages, and bytes of which no pass can make anything. -/
def Sends (B : Build H S) (l : List UInt8) : Prop :=
  ∃ (ms : List Msg) (tail : List UInt8), Broken B tail ∧ l = ms.flatMap Msg.enc ++ tail

/-- What a call of `handle_data` has served: the client, and its messages with the replies. -/
abbrev Call := Nat × List (Msg × List UInt8)

/-- What the calls have served of client `k`. -/
def servedTo (k : Nat) (calls : List Call) : List (Msg × List UInt8) := (calls.filter (·.1 = k)).flatMap Prod.snd

/-- Client `k` has sent messages that were served and `later` ones, and was written the replies to the served ones.
When `handle_data` has said that it ended, none are left. -/
structure Client (B : Build H S) (p : Peer) (served : List (Msg × List UInt8)) (later : List Msg) (tail : List UInt8) :
    Prop where
  broken : Broken B tail
  sent : p.sent = (served.map Prod.fst ++ later).flatMap Msg.enc ++ tail
  written : p.written = served.flatMap Prod.snd
  ended : p.ended = true → later = []
  rest : p.ended = false → p.rest = later.flatMap Msg.enc ++ tail

/-- The calls of `handle_data` in their order. All their messages are one run of the device; each call serves shifts
up to a message that is none, or all that is left of its client. -/
structure History (B : Build H S) (step : S → Bool → Bool → S × Bool) (hw : H) (m : Main H) (history : List Call) :
    Prop where
  served : Served B step hw m.hw (history.flatMap Prod.snd)
  blocks : ∀ x ∈ history, x.1 < m.accepted ∧ (Block x.2 ∨ Shifts x.2 ∧ (m.peer x.1).ended = true)
  number : history.length = (calls m.log).length
  clients : ∀ k < m.accepted, ∃ later tail, Client B (m.peer k) (servedTo k history) later tail

/-- The descriptors stand for different clients, none of which has ended. -/
structure Main.Known (s : Nat) (m : Main H) : Prop where
  accepted : ∀ fd ∈ m.conn, fd ≠ s → m.who fd < m.accepted
  live : ∀ fd ∈ m.conn, fd ≠ s → (m.client fd).ended = false
  inj : ∀ fd ∈ m.conn, ∀ fd' ∈ m.conn, fd ≠ s → fd' ≠ s → m.who fd = m.who fd' → fd = fd'

theorem servedTo_append (k : Nat) (l l' : List Call) : servedTo k (l ++ l') = servedTo k l ++ servedTo k l' := by
  rw [servedTo, List.filter_append, List.flatMap_append]
  rfl

theorem servedTo_self (k : Nat) (l : List (Msg × List UInt8)) : servedTo k [(k, l)] = l := by
  rw [servedTo, List.filter_cons_of_pos (by simp)]
  exact List.append_nil l

theorem servedTo_other {k k' : Nat} (h : k' ≠ k) (l : List (Msg × List UInt8)) : servedTo k [(k', l)] = [] := by
  rw [servedTo, List.filter_cons_of_neg (by simpa using h)]
  rfl

theorem servedTo_unknown {k : Nat} {l : List Call} (h : ∀ x ∈ l, x.1 < k) : servedTo k l = [] := by
  rw [servedTo, List.filter_eq_nil_iff.mpr fun x hx => ?_]
  · rfl
  · have := h x hx
    simp only [decide_eq_true_eq]
    omega

/-! ## Steps -/

/-- A step that serves nobody. -/
theorem History.still {hw : H} {m n : Main H} {history : List Call} (h : History B step hw m history)
    (hhw : n.hw = m.hw)
    (hpeer : n.peer = m.peer) (haccepted : n.accepted = m.accepted) (hcalls : calls n.log = calls m.log) :
    History B step hw n history where
  served := by
    rw [hhw]
    exact h.served
  blocks := by
    rw [hpeer, haccepted]
    exact h.blocks
  number := by
    rw [hcalls]
    exact h.number
  clients := by
    rw [hpeer, haccepted]
    exact h.clients

/-- A client is accepted. -/
theorem History.accept {hw : H} {m : Main H} {history : List Call} (h : History B step hw m history) (newfd : Nat)
    {l : List UInt8} (hl : Sends B l) : History B step hw (m.accept newfd l) history where
  served := h.served
  blocks x hx := by
    obtain ⟨hlt, hblock⟩ := h.blocks x hx
    refine ⟨Nat.lt_succ_of_lt hlt, ?_⟩
    show _ ∨ _ ∧ (Function.update m.peer m.accepted _ x.1).ended = true
    rw [Function.update_of_ne (Nat.ne_of_lt hlt)]
    exact hblock
  number := by
    show history.length = (Jtag.calls (m.log ++ [.accept newfd])).length
    rw [calls_append, h.number]
    exact congrArg List.length (List.append_nil _).symm
  clients k hk := by
    show ∃ later tail, Client B (Function.update m.peer m.accepted _ k) _ later tail
    by_cases hnew : k = m.accepted
    · subst hnew
      obtain ⟨ms, tail, htail, rfl⟩ := hl
      rw [Function.update_self, servedTo_unknown fun x hx => (h.blocks x hx).1]
      exact ⟨ms, tail, htail, rfl, rfl, fun hended => (Bool.false_ne_true hended).elim, fun _ => rfl⟩
    · rw [Function.update_of_ne hnew]
      exact h.clients k (Nat.lt_of_le_of_ne (Nat.le_of_lt_succ hk) hnew)

/-- A call of `handle_data` for a client that has not ended. -/
theorem History.handle (hB : B.Serial step) {hw : H} {m : Main H} {history : List Call}
    (h : History B step hw m history)
    {fd : Nat} (hknown : m.who fd < m.accepted) (hopen : (m.client fd).ended = false) {e : Env} (he : e.Succeeds)
    {calls : Nat} {d : Conn H} {ret : Int}
    (hret : Returns B.shifting e ⟨(m.client fd).rest, (m.client fd).written, calls, m.hw⟩ d ret) :
    ∃ now, History B step hw (m.handle fd d ret) (history ++ [(m.who fd, now)]) := by
  obtain ⟨later, tail, hclient⟩ := h.clients _ hknown
  obtain ⟨now, later, d', ret', rfl, hd, hserved, hwritten, hend⟩ := returns_block hB he later hclient.broken
    ⟨(m.client fd).rest, (m.client fd).written, calls, m.hw⟩ (hclient.rest hopen)
  obtain ⟨rfl, rfl⟩ := hd.unique hret
  have hended : ∀ k, k ≠ m.who fd → (m.handle fd d' ret').peer k = m.peer k := fun k hk => Function.update_of_ne hk _ _
  have hself : (m.handle fd d' ret').peer (m.who fd) =
      ⟨(m.client fd).sent, d'.rest, d'.written, decide (ret' ≠ 0)⟩ := Function.update_self _ _ _
  refine ⟨now, ?_, fun x hx => ?_, ?_, fun k hk => ?_⟩
  · rw [List.flatMap_append, List.flatMap_singleton]
    exact h.served.append hserved
  · refine (List.mem_append.mp hx).elim (fun hx => ?_) fun hx => ?_
    · obtain ⟨hlt, hblock⟩ := h.blocks x hx
      refine ⟨hlt, ?_⟩
      by_cases hk : x.1 = m.who fd
      · -- The client had not ended.
        refine hblock.imp id fun ⟨_, hfin⟩ => ?_
        rw [hk] at hfin
        exact (Bool.false_ne_true (hopen.symm.trans hfin)).elim
      · rw [hended _ hk]
        exact hblock
    · rw [List.mem_singleton.mp hx]
      refine ⟨hknown, ?_⟩
      rw [hself]
      exact hend.imp (fun hb => hb.2.1) fun ⟨hr, hs, _⟩ => ⟨hs, by rw [hr]; rfl⟩
  · show _ = (Jtag.calls (m.log ++ [.handle fd ret'])).length
    rw [calls_append, List.length_append, List.length_append, h.number]
    rfl
  · rw [servedTo_append]
    by_cases hk' : k = m.who fd
    · subst hk'
      rw [hself, servedTo_self]
      refine ⟨later, tail, hclient.broken, ?_, ?_, fun hret => ?_, fun hret => ?_⟩
      · rw [List.map_append, List.append_assoc]
        exact hclient.sent
      · rw [List.flatMap_append, ← hclient.written]
        exact hwritten
      · refine hend.elim (fun hb => ?_) fun hb => hb.2.2
        exact absurd hb.1 (of_decide_eq_true hret)
      · refine hend.elim (fun hb => hb.2.2) fun hb => ?_
        exact absurd (of_decide_eq_false hret) fun hne => hne (by rw [hb.1]; decide)
    · rw [hended k hk', servedTo_other (fun heq => hk' heq.symm), List.append_nil]
      exact h.clients k hk

theorem known_start (s : Nat) (hw : H) : (Main.start s hw).Known s where
  accepted _ hfd hs := absurd (Finset.mem_singleton.mp hfd) hs
  live _ hfd hs := absurd (Finset.mem_singleton.mp hfd) hs
  inj _ hfd _ _ hs _ _ := absurd (Finset.mem_singleton.mp hfd) hs

/-- The clients are as they were. -/
theorem Main.Known.still {m n : Main H} (h : m.Known s) (hconn : n.conn ⊆ m.conn) (hpeer : n.peer = m.peer)
    (hwho : n.who = m.who) (haccepted : n.accepted = m.accepted) : n.Known s where
  accepted fd hfd hs := by
    rw [hwho, haccepted]
    exact h.accepted fd (hconn hfd) hs
  live fd hfd hs := by
    rw [Main.client, hpeer, hwho]
    exact h.live fd (hconn hfd) hs
  inj fd hfd fd' hfd' := by
    rw [hwho]
    exact h.inj fd (hconn hfd) fd' (hconn hfd')

theorem Main.Known.accept {m : Main H} (h : m.Known s) {newfd : Nat} (hnew : newfd ∉ m.conn) (l : List UInt8) :
    (m.accept newfd l).Known s := by
  have hself : (m.accept newfd l).who newfd = m.accepted := Function.update_self _ _ _
  have hother : ∀ fd ∈ m.conn, (m.accept newfd l).who fd = m.who fd := by
    intro fd hfd
    have hne : fd ≠ newfd := fun heq => hnew (by rw [← heq]; exact hfd)
    exact Function.update_of_ne hne _ _
  refine ⟨fun fd hfd hs => ?_, fun fd hfd hs => ?_, fun fd hfd fd' hfd' hs hs' heq => ?_⟩
  · show (m.accept newfd l).who fd < m.accepted + 1
    rcases Finset.mem_insert.mp hfd with rfl | hfd
    · rw [hself]
      exact Nat.lt_succ_self _
    · rw [hother fd hfd]
      exact Nat.lt_succ_of_lt (h.accepted fd hfd hs)
  · show (Function.update m.peer m.accepted _ ((m.accept newfd l).who fd)).ended = false
    rcases Finset.mem_insert.mp hfd with rfl | hfd
    · rw [hself, Function.update_self]
    · rw [hother fd hfd, Function.update_of_ne (Nat.ne_of_lt (h.accepted fd hfd hs))]
      exact h.live fd hfd hs
  · rcases Finset.mem_insert.mp hfd with hx | hx <;> rcases Finset.mem_insert.mp hfd' with hy | hy
    · rw [hx, hy]
    · have := h.accepted fd' hy hs'
      rw [hx, hself, hother fd' hy] at heq
      omega
    · have := h.accepted fd hx hs
      rw [hy, hself, hother fd hx] at heq
      omega
    · rw [hother fd hx, hother fd' hy] at heq
      exact h.inj fd hx fd' hy hs hs' heq

/-- After a call for `fd`, of the descriptors `conn'` that stay open. -/
theorem Main.Known.handle {m n : Main H} (h : m.Known s) {fd : Nat} (hfd : fd ∈ m.conn) (hs : fd ≠ s) (d : Conn H)
    (ret : Int) (hpeer : n.peer = (m.handle fd d ret).peer) (hwho : n.who = m.who) (haccepted : n.accepted = m.accepted)
    (hconn : n.conn ⊆ m.conn) (hclosed : ret ≠ 0 → fd ∉ n.conn) : n.Known s := by
  refine ⟨fun x hx hxs => ?_, fun x hx hxs => ?_, fun x hx y hy => ?_⟩
  · rw [hwho, haccepted]
    exact h.accepted x (hconn hx) hxs
  · rw [Main.client, hpeer, hwho]
    show (Function.update m.peer (m.who fd) _ (m.who x)).ended = false
    by_cases heq : m.who x = m.who fd
    · obtain rfl := h.inj x (hconn hx) fd hfd hxs hs heq
      rw [Function.update_self]
      exact decide_eq_false fun hne => hclosed hne hx
    · rw [Function.update_of_ne heq]
      exact h.live x (hconn hx) hxs
  · rw [hwho]
    exact h.inj x (hconn hx) y (hconn hy)

/-- **A step.** -/
theorem Main.Step.history (hB : B.Serial step) {hw : H} {m n : Main H}
    (hstep : Main.Step B.shifting Env.Succeeds (Sends B) s m n) (hshape : m.Shaped s) (hknown : m.Known s)
    {history : List Call} (h : History B step hw m history) : n.Known s ∧ ∃ history, History B step hw n history := by
  have hcalls : ∀ e : Event, e.called = none → calls (m.log ++ [e]) = calls m.log := fun e he => by
    rw [calls_append, calls, calls, List.filterMap_cons_none he]
    exact List.append_nil _
  cases hstep with
  | select read except hplace hread hexcept =>
    exact ⟨hknown.still (fun _ hx => hx) rfl rfl rfl, history, h.still rfl rfl rfl (hcalls _ rfl)⟩
  | selectFailed hplace => exact ⟨hknown.still (fun _ hx => hx) rfl rfl rfl, history, h.still rfl rfl rfl rfl⟩
  | swept hplace hfd => exact ⟨hknown.still (fun _ hx => hx) rfl rfl rfl, history, h.still rfl rfl rfl rfl⟩
  | accept hplace hfd hread hs newfd hnew l hl =>
    exact ⟨(hknown.accept hnew l).still (fun _ hx => hx) rfl rfl rfl, history,
      (h.accept newfd hl).still rfl rfl rfl rfl⟩
  | acceptFailed hplace hfd hread hs =>
    exact ⟨hknown.still (fun _ hx => hx) rfl rfl rfl, history, h.still rfl rfl rfl rfl⟩
  | @handled read except fd hplace hfd hread hs e he calls d hret =>
    have hopen := hshape.opened hplace (.inl hread)
    obtain ⟨now, hnow⟩ := h.handle hB (hknown.accepted _ hopen hs) (hknown.live _ hopen hs) he hret
    exact ⟨hknown.handle hopen hs d 0 rfl rfl rfl (fun _ hx => hx) fun hne => absurd rfl hne, _,
      hnow.still rfl rfl rfl rfl⟩
  | @closed read except fd hplace hfd hread hs e he calls d ret hret hne =>
    have hopen := hshape.opened hplace (.inl hread)
    obtain ⟨now, hnow⟩ := h.handle hB (hknown.accepted _ hopen hs) (hknown.live _ hopen hs) he hret
    refine ⟨hknown.handle hopen hs d ret rfl rfl rfl (Finset.erase_subset _ _) fun _ =>
      Finset.notMem_erase _ _, _, hnow.still rfl rfl rfl ?_⟩
    show Jtag.calls (m.log ++ [.handle fd ret] ++ [.close fd]) = Jtag.calls (m.log ++ [.handle fd ret])
    rw [calls_append _ [.close fd]]
    exact List.append_nil _
  | aborted hplace hfd hread hexcept hs =>
    exact ⟨hknown.still (Finset.erase_subset _ _) rfl rfl rfl, history, h.still rfl rfl rfl (hcalls _ rfl)⟩
  | listener hplace hfd hread hexcept hs =>
    exact ⟨hknown.still (Finset.erase_subset _ _) rfl rfl rfl, history, h.still rfl rfl rfl (hcalls _ rfl)⟩
  | idle hplace hfd hread hexcept =>
    exact ⟨hknown.still (fun _ hx => hx) rfl rfl rfl, history, h.still rfl rfl rfl rfl⟩

/-- **The clients**, of each build, with any device that takes one bit a clock and is in time, and when nothing fails.
In any run of `main`, with any clients that come and go and whatever `select` reports: the messages of each client are
answered in order; all of them are one run of the device, in the order of the calls; and the shifts of a client up to
its next message that is none are not interrupted. -/
theorem clients_serial {dev : ZynqMP.Device S} (ht : dev.InTime) (hs : dev.Serial step) {polls : Nat}
    (hpolls : 100 ≤ polls) (t : Target) {hw : t.Hw S} {m : Main (t.Hw S)}
    (hrun : Relation.ReflTransGen
      (Main.Step (t.build dev polls).shifting Env.Succeeds (Sends (t.build dev polls)) s) (.start s hw) m) :
    ∃ history, History (t.build dev polls) step hw m history := by
  have hB := build_serial ht hs hpolls t
  have hkeep : m.Known s ∧ ∃ history, History (t.build dev polls) step hw m history := by
    induction hrun with
    | refl =>
      exact ⟨known_start s hw, [], served_nil hw, fun _ hx => (List.not_mem_nil hx).elim, rfl,
        fun k hk => absurd hk (Nat.not_lt_zero k)⟩
    | tail hrun hstep ih =>
      obtain ⟨hknown, history, h⟩ := ih
      exact hstep.history hB (select_loop hrun).2 hknown h
  exact hkeep.2

/-- Two clients. The shift of the second comes between those of the first, where its `getinfo:` is. -/
theorem clients_serial_parted :
    ∃ m : Main (Ip Nat), calls m.log = [1, 2, 1] ∧ m.accepted = 2 ∧
      (m.peer 0).sent = parted.flatMap Msg.enc ∧ (m.peer 0).ended = true ∧
      (m.peer 1).sent = (parted.take 1).flatMap Msg.enc ∧ (m.peer 1).ended = true ∧
      ∃ history, History (Target.build countingDevice 100 .zynq7000) Zynq7000.counting ⟨0, []⟩ m history := by
  have hB := build_serial countingDevice_inTime (BitSerial.Engine.of_serial Zynq7000.counting)
    (Nat.le_refl 100) .zynq7000
  have hsucceeds : bytewise.Succeeds := ⟨fun _ => rfl, fun _ => calmKernel_succeeds⟩
  have htail : Broken (Target.build countingDevice 100 .zynq7000) [] := .command Nat.zero_lt_two
  obtain ⟨m, hrun, hcalls, haccepted, hended, hended', hsent, hsent'⟩ := visits hB Env.Succeeds
    (Sends (Target.build countingDevice 100 .zynq7000)) hsucceeds hsucceeds (parted.take 1) .getinfo (parted.drop 2)
    (parted.take 1) (by decide) rfl (by decide) (by decide) htail htail
    ⟨parted, [], htail, rfl⟩ ⟨parted.take 1, [], htail, rfl⟩ ⟨0, []⟩
  refine ⟨m, hcalls, haccepted, hsent, hended, hsent', hended', ?_⟩
  exact clients_serial countingDevice_inTime (BitSerial.Engine.of_serial Zynq7000.counting)
    (Nat.le_refl 100) .zynq7000 hrun

end Jtag
end Xvc
