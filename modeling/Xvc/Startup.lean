import Xvc.Lifecycle
import Xvc.Server.Url

/-!
# `xvcserver_start`, from the address to the end

Around the accept loop `xvcserver_start` reads the address, opens a socket for it, and prints the address for the
clients. It returns when `accept` fails, or before that when there is nothing to listen at.

* `openLoop`, `openServer`: the socket is that of the first address on which a server can listen.
* `xvcserverStart`: what is acquired and released, and the code that is returned.
* `start_returns`: of what it acquires only the loop may leave something behind.
-/

namespace Xvc

open Ledger Machine

variable {σ τ R : Type}

/-! ## `open_server` -/

/-- What the calls for an address of `getaddrinfo` return. -/
structure Attempt where
  socket : Option Nat
  setsockopt : Bool
  bind : Bool
  listen : Bool

/-- What `xvcserver_start` acquires. -/
inductive Held where
  /-- The copy of the address. -/
  | url
  /-- The list of `getaddrinfo`. -/
  | addrinfo
  | of (r : Daemon.Resource)
  deriving DecidableEq

/-- A descriptor. -/
abbrev Held.fd (sock : Nat) : Held := .of (.fd sock)

/-- The loop of `open_server`: a socket on which the server cannot listen is closed. -/
def openLoop : List Attempt → List (Op Held) × Option Nat
  | [] => ([], none)
  | a :: rest =>
    match a.socket with
    | none => openLoop rest
    | some sock =>
      if a.setsockopt && a.bind && a.listen then ([.acquire (.fd sock)], some sock)
      else
        let r := openLoop rest
        (.acquire (.fd sock) :: .release (.fd sock) :: r.1, r.2)

/-- `open_server`; `none` if `getaddrinfo` fails. -/
def openServer : Option (List Attempt) → List (Op Held) × Option Nat
  | none => ([], none)
  | some attempts =>
    let r := openLoop attempts
    (.acquire .addrinfo :: r.1 ++ [.release .addrinfo], r.2)

/-! ## `xvcserver_start` -/

def errorSocketCreation : Int := 5
def errorGethostnameFailed : Int := 6

/-- What surrounds `xvcserver_start`: the addresses of a host and a port, and the name of this host. -/
structure Network where
  getaddrinfo : (host port : List UInt8) → Option (List Attempt)
  gethostname : Option (List UInt8)

/-- From the fields of the address on; `loop` is the log of the accept loop. -/
def serveUrl (net : Network) (loop : List StartEvent) (u : Url) : List (Op Held) × Int :=
  let r := openServer (net.getaddrinfo u.host u.port)
  match r.2 with
  | none => (r.1, errorSocketCreation)
  | some sock =>
    if u.host = [] ∧ net.gethostname = none then (r.1 ++ [.release (.fd sock)], errorGethostnameFailed)
    else (r.1 ++ (Daemon.ledger loop).map (Op.map .of) ++ [.release (.fd sock)], 0)

/-- `xvcserver_start`. -/
def xvcserverStart (net : Network) (loop : List StartEvent) (url : CString) : List (Op Held) × Int :=
  let r :=
    match urlOf url with
    | .error e => ([], e)
    | .ok u => serveUrl net loop u
  (.acquire .url :: r.1 ++ [.release .url], r.2)

/-! ## The socket -/

/-- The server can listen on the address. -/
def Attempt.Listens (a : Attempt) (sock : Nat) : Prop :=
  a.socket = some sock ∧ (a.setsockopt && a.bind && a.listen) = true

/-- The first address on which the server can listen has this socket. -/
def Opens (attempts : List Attempt) (sock : Nat) : Prop :=
  ∃ before a later, attempts = before ++ a :: later ∧ a.Listens sock ∧ ∀ x ∈ before, ∀ s, ¬ x.Listens s

theorem opens_cons_of_listens {a : Attempt} {rest : List Attempt} {sock : Nat} (h : a.Listens sock) (s : Nat) :
    Opens (a :: rest) s ↔ sock = s := by
  constructor
  · rintro ⟨_ | ⟨b, before⟩, x, later, heq, hx, hall⟩
    · obtain ⟨rfl, -⟩ := List.cons.inj heq
      exact Option.some.inj (h.1.symm.trans hx.1)
    · obtain ⟨rfl, -⟩ := List.cons.inj heq
      exact absurd h (hall a List.mem_cons_self sock)
  · rintro rfl
    exact ⟨[], a, rest, rfl, h, fun x hx => absurd hx List.not_mem_nil⟩

theorem opens_cons_of_not_listens {a : Attempt} {rest : List Attempt} (h : ∀ s, ¬ a.Listens s) (sock : Nat) :
    Opens (a :: rest) sock ↔ Opens rest sock := by
  constructor
  · rintro ⟨_ | ⟨b, before⟩, x, later, heq, hx, hall⟩
    · obtain ⟨rfl, -⟩ := List.cons.inj heq
      exact absurd hx (h sock)
    · obtain ⟨-, rfl⟩ := List.cons.inj heq
      exact ⟨before, x, later, rfl, hx, fun y hy => hall y (List.mem_cons_of_mem b hy)⟩
  · rintro ⟨before, x, later, rfl, hx, hall⟩
    exact ⟨a :: before, x, later, rfl, hx, List.forall_mem_cons.mpr ⟨h, hall⟩⟩

theorem not_opens_nil (sock : Nat) : ¬ Opens [] sock := by
  rintro ⟨before, a, later, heq, -⟩
  simp at heq

/-- **The loop of `open_server`** returns the socket of the first address that works, and has closed the others. -/
theorem openLoop_spec (attempts : List Attempt) :
    (∀ sock, (openLoop attempts).2 = some sock ↔ Opens attempts sock) ∧ Sound (openLoop attempts).1 ∧
      ∀ r, balance (openLoop attempts).1 r = if (openLoop attempts).2.map Held.fd = some r then 1 else 0 := by
  induction attempts with
  | nil =>
    have hopens : ∀ sock, (openLoop []).2 = some sock ↔ Opens [] sock := fun sock =>
      ⟨fun h => absurd h.symm (Option.some_ne_none sock), fun h => absurd h (not_opens_nil sock)⟩
    exact ⟨hopens, sound_nil, fun _ => rfl⟩
  | cons a rest ih =>
    obtain ⟨hopens, hsound, hbalance⟩ := ih
    unfold openLoop
    cases hs : a.socket with
    | none =>
      have hno : ∀ s, ¬ a.Listens s := fun s h => Option.some_ne_none s (h.1.symm.trans hs)
      exact ⟨fun sock => (hopens sock).trans (opens_cons_of_not_listens hno sock).symm, hsound, hbalance⟩
    | some sock =>
      simp only
      split
      · next hok =>
        have hlistens : a.Listens sock := ⟨hs, hok⟩
        refine ⟨fun s => ?_, sound_nil.acquire _, fun r => ?_⟩
        · rw [opens_cons_of_listens hlistens, Option.some.injEq]
        · simp [balance]
      · next hok =>
        have hno : ∀ s, ¬ a.Listens s := fun s h => hok h.2
        have hpair : ∀ r, balance [.acquire (Held.fd sock), .release (Held.fd sock)] r = 0 := balance_bracket [] _
        have hlist : Op.acquire (Held.fd sock) :: .release (Held.fd sock) :: (openLoop rest).1 =
            [.acquire (Held.fd sock), .release (Held.fd sock)] ++ (openLoop rest).1 := rfl
        refine ⟨fun s => (hopens s).trans (opens_cons_of_not_listens hno s).symm, ?_, fun r => ?_⟩
        · rw [hlist]
          exact (sound_nil.bracket (fun _ => Int.le_refl 0) _).append (fun r => (hpair r).ge) hsound
        · rw [hlist, balance_append, hpair, Int.zero_add, hbalance]

/-- **`open_server`.** -/
theorem openServer_spec (addresses : Option (List Attempt)) :
    (∀ sock, (openServer addresses).2 = some sock ↔
        ∃ attempts, addresses = some attempts ∧ Opens attempts sock) ∧
      Sound (openServer addresses).1 ∧
      ∀ r, balance (openServer addresses).1 r = if (openServer addresses).2.map Held.fd = some r then 1 else 0 := by
  cases addresses with
  | none => exact ⟨fun sock => ⟨nofun, nofun⟩, sound_nil, fun _ => rfl⟩
  | some attempts =>
    obtain ⟨hopens, hsound, hbalance⟩ := openLoop_spec attempts
    have hpos : ∀ r, 0 ≤ balance (openLoop attempts).1 r := fun r => by
      rw [hbalance]
      split <;> simp
    have hsome : ∀ sock, Opens attempts sock ↔ ∃ l, some attempts = some l ∧ Opens l sock :=
      fun sock => ⟨fun h => ⟨attempts, rfl, h⟩, fun ⟨_, heq, h⟩ => Option.some.inj heq ▸ h⟩
    exact ⟨fun sock => (hopens sock).trans (hsome sock), hsound.bracket hpos _,
      fun r => (balance_bracket _ _ r).trans (hbalance r)⟩

/-! ## The whole function -/

/-- The code that is returned. -/
inductive Code (net : Network) (url : List UInt8) : Int → Prop
  | malformed {e : Int} (h : Malformed url e) : Code net url e
  | noSocket {u : Url} (h : Denotes url u)
      (hs : ∀ attempts sock, net.getaddrinfo u.host u.port = some attempts → ¬ Opens attempts sock) :
      Code net url errorSocketCreation
  | noName {u : Url} {attempts : List Attempt} {sock : Nat} (h : Denotes url u)
      (ha : net.getaddrinfo u.host u.port = some attempts) (hs : Opens attempts sock) (hu : u.host = [])
      (hn : net.gethostname = none) : Code net url errorGethostnameFailed
  /-- The accept loop has run. -/
  | served {u : Url} {attempts : List Attempt} {sock : Nat} (h : Denotes url u)
      (ha : net.getaddrinfo u.host u.port = some attempts) (hs : Opens attempts sock)
      (hn : u.host = [] → net.gethostname ≠ none) : Code net url 0

/-- What has not been given back, when the loop has left `left` behind. -/
def remains (ret : Int) (left : List Daemon.Resource) (r : Held) : Int :=
  if ret = 0 then (left.map Held.of).count r else 0

theorem of_inj (r r' : Daemon.Resource) (h : Held.of r = .of r') : r = r' := Held.of.inj h

theorem balance_loop {loop : List StartEvent} {left : List Daemon.Resource}
    (hleft : ∀ r, balance (Daemon.ledger loop) r = left.count r) (r : Held) :
    balance ((Daemon.ledger loop).map (Op.map .of)) r = (left.map Held.of).count r := by
  cases r with
  | of r =>
    rw [balance_map of_inj, hleft, List.count_map_of_injective _ _ of_inj]
  | url =>
    rw [balance_map_of_ne _ nofun, List.count_eq_zero_of_not_mem (by simp)]
    rfl
  | addrinfo =>
    rw [balance_map_of_ne _ nofun, List.count_eq_zero_of_not_mem (by simp)]
    rfl

/-- From the fields of the address on. -/
theorem serveUrl_spec (net : Network) {loop : List StartEvent} {left : List Daemon.Resource} {url : List UInt8}
    {u : Url} (hu : Denotes url u) (hleft : ∀ r, balance (Daemon.ledger loop) r = left.count r) :
    Code net url (serveUrl net loop u).2 ∧
      (∀ r, balance (serveUrl net loop u).1 r = remains (serveUrl net loop u).2 left r) ∧
      (((serveUrl net loop u).2 = 0 → Sound (Daemon.ledger loop)) → Sound (serveUrl net loop u).1) := by
  have hspec := openServer_spec (net.getaddrinfo u.host u.port)
  unfold serveUrl
  generalize openServer (net.getaddrinfo u.host u.port) = r at hspec ⊢
  obtain ⟨ops, opened⟩ := r
  obtain ⟨hopens, hsound, hbalance⟩ := hspec
  cases opened with
  | none =>
    refine ⟨.noSocket hu fun attempts sock ha ho => ?_, fun r => hbalance r, fun _ => hsound⟩
    exact nomatch (hopens sock).mpr ⟨attempts, ha, ho⟩
  | some sock =>
    obtain ⟨attempts, ha, ho⟩ := (hopens sock).mp rfl
    have hsock : ∀ r, balance ops r = if Held.fd sock = r then 1 else 0 := by
      intro r
      rw [hbalance]
      simp only [Option.map_some, Option.some.injEq]
    have hpos : ∀ r, 0 ≤ balance ops r := fun r => by
      rw [hsock]
      split <;> simp
    simp only
    split
    · next hn =>
      refine ⟨.noName hu ha ho hn.1 hn.2, fun r => ?_, fun _ => hsound.release (by rw [hsock, if_pos rfl]; decide)⟩
      rw [balance_release, hsock, Int.sub_self]
      rfl
    · next hn =>
      have hloop := balance_loop hleft
      refine ⟨.served hu ha ho fun hu hnone => hn ⟨hu, hnone⟩, fun r => ?_, fun h => ?_⟩
      · rw [balance_release, balance_append, hsock, hloop]
        show _ = ((left.map Held.of).count r : Int)
        omega
      · refine (hsound.append hpos ((h rfl).map of_inj)).release ?_
        rw [balance_append, hsock, if_pos rfl, hloop]
        omega

/-- The whole of `xvcserver_start`, when the loop has left `left` behind. -/
theorem start_spec (net : Network) {loop : List StartEvent} {left : List Daemon.Resource} (url : CString)
    (hleft : ∀ r, balance (Daemon.ledger loop) r = left.count r) :
    Code net url.bytes (xvcserverStart net loop url).2 ∧
      (∀ r, balance (xvcserverStart net loop url).1 r = remains (xvcserverStart net loop url).2 left r) ∧
      (((xvcserverStart net loop url).2 = 0 → Sound (Daemon.ledger loop)) →
        Sound (xvcserverStart net loop url).1) := by
  have hbody : ∀ r : List (Op Held) × Int, Code net url.bytes r.2 ∧ (∀ x, balance r.1 x = remains r.2 left x) ∧
      ((r.2 = 0 → Sound (Daemon.ledger loop)) → Sound r.1) →
      Code net url.bytes r.2 ∧ (∀ x, balance (.acquire .url :: r.1 ++ [.release .url]) x = remains r.2 left x) ∧
        ((r.2 = 0 → Sound (Daemon.ledger loop)) → Sound (.acquire .url :: r.1 ++ [.release .url])) := by
    rintro r ⟨hcode, hbalance, hsound⟩
    refine ⟨hcode, fun x => (balance_bracket _ _ x).trans (hbalance x), fun h => (hsound h).bracket (fun x => ?_) _⟩
    rw [hbalance, remains]
    split <;> simp
  unfold xvcserverStart
  cases hurl : urlOf url with
  | error e =>
    have he : Malformed url.bytes e := parseUrl_eq_error.mp ((urlOf_eq url).symm.trans hurl)
    exact hbody ([], e) ⟨.malformed he, fun x => (if_neg he.ne_zero).symm, fun _ => sound_nil⟩
  | ok u =>
    have hu : Denotes url.bytes u := parseUrl_eq_ok.mp ((urlOf_eq url).symm.trans hurl)
    exact hbody _ (serveUrl_spec net hu hleft)

/-- No other code is returned. -/
theorem Code.eq {net : Network} {loop : List StartEvent} {url : CString} {e : Int} (h : Code net url.bytes e) :
    (xvcserverStart net loop url).2 = e := by
  have hok : ∀ {u : Url}, Denotes url.bytes u → (xvcserverStart net loop url).2 = (serveUrl net loop u).2 := by
    intro u hu
    unfold xvcserverStart
    rw [urlOf_eq, parseUrl_of_denotes hu]
  have hsome : ∀ {u : Url} {attempts sock}, net.getaddrinfo u.host u.port = some attempts → Opens attempts sock →
      (openServer (net.getaddrinfo u.host u.port)).2 = some sock := fun ha hs =>
    ((openServer_spec _).1 _).mpr ⟨_, ha, hs⟩
  cases h with
  | malformed he =>
    unfold xvcserverStart
    rw [urlOf_eq, parseUrl_of_malformed he]
  | @noSocket u hu hs =>
    have hnone : (openServer (net.getaddrinfo u.host u.port)).2 = none := by
      refine Option.eq_none_iff_forall_ne_some.mpr fun sock hsock => ?_
      obtain ⟨attempts, ha, ho⟩ := ((openServer_spec _).1 sock).mp hsock
      exact hs attempts sock ha ho
    rw [hok hu]
    unfold serveUrl
    simp only [hnone]
  | noName hu ha hs hhost hn =>
    rw [hok hu]
    unfold serveUrl
    simp only [hsome ha hs]
    rw [if_pos ⟨hhost, hn⟩]
  | served hu ha hs hn =>
    rw [hok hu]
    unfold serveUrl
    simp only [hsome ha hs]
    rw [if_neg fun h => hn h.1 h.2]

/-- The accept loop, whose log is `log`, has run with the socket of the first address of `url` on which the server can
listen: before the loop this socket is all that is held but the copy of the address, and it is closed behind it. -/
def ServesFirst (net : Network) (url : List UInt8) (log : List StartEvent) (ops : List (Op Held)) : Prop :=
  ∃ u attempts sock opening, Denotes url u ∧ net.getaddrinfo u.host u.port = some attempts ∧ Opens attempts sock ∧
    (∀ r, balance opening r = if Held.fd sock = r then 1 else 0) ∧
    ops = .acquire .url :: (opening ++ (Daemon.ledger log).map (Op.map .of) ++ [.release (.fd sock)]) ++ [.release .url]

/-- The loop is only reached with the socket of the first address that works. -/
theorem serveUrl_serves {net : Network} {loop : List StartEvent} {url : List UInt8} {u : Url} (hu : Denotes url u)
    (hret : (serveUrl net loop u).2 = 0) :
    ServesFirst net url loop (.acquire .url :: (serveUrl net loop u).1 ++ [.release .url]) := by
  have hspec := openServer_spec (net.getaddrinfo u.host u.port)
  unfold serveUrl at hret ⊢
  generalize openServer (net.getaddrinfo u.host u.port) = r at hspec hret ⊢
  obtain ⟨ops, opened⟩ := r
  obtain ⟨hopens, -, hbalance⟩ := hspec
  cases opened with
  | none => exact absurd hret (show errorSocketCreation ≠ 0 by decide)
  | some sock =>
    obtain ⟨attempts, ha, ho⟩ := (hopens sock).mp rfl
    simp only at hret ⊢
    split at hret
    · exact absurd hret (show errorGethostnameFailed ≠ 0 by decide)
    · next hn =>
      rw [if_neg hn]
      refine ⟨u, attempts, sock, ops, hu, ha, ho, fun r => ?_, rfl⟩
      rw [hbalance]
      simp only [Option.map_some, Option.some.injEq]

theorem start_serves {net : Network} {loop : List StartEvent} {url : CString}
    (hret : (xvcserverStart net loop url).2 = 0) :
    ServesFirst net url.bytes loop (xvcserverStart net loop url).1 := by
  unfold xvcserverStart at hret ⊢
  cases hurl : urlOf url with
  | error e =>
    have he : Malformed url.bytes e := parseUrl_eq_error.mp ((urlOf_eq url).symm.trans hurl)
    rw [hurl] at hret
    exact absurd hret he.ne_zero
  | ok u =>
    have hu : Denotes url.bytes u := parseUrl_eq_ok.mp ((urlOf_eq url).symm.trans hurl)
    rw [hurl] at hret
    exact serveUrl_serves hu hret

/-- How a call of `xvcserver_start` comes out: the code; the socket it has served; and whether everything has been given
back, each thing once and after it was taken. -/
def Returns (net : Network) (url : CString) (log : List StartEvent) (outcomes : List Daemon.Returned) : Prop :=
  let r := xvcserverStart net log url
  (∀ e, r.2 = e ↔ Code net url.bytes e) ∧ (r.2 = 0 → ServesFirst net url.bytes log r.1) ∧
    ((Sound r.1 ∧ ∀ x, balance r.1 x = 0) ↔ (r.2 = 0 → Daemon.PeersKnown outcomes))

variable {P : Protocol σ} {D : Dispatch σ R} {ports : Ports σ} {data : σ} {replyBuf : ByteMem} {m : Daemon σ}
  {outcomes : List Daemon.Returned}

theorem returns_of_run (hkeep : D.KeepsBuffer) (hP : P.iter = D.iter)
    (hrun : Run (Daemon.Turn P ports) (.start data replyBuf) outcomes m) (hdone : m.stage = .done) (net : Network)
    (url : CString) : Returns net url m.log outcomes := by
  have hbooks := Daemon.books_nil.run hkeep hP hrun
  rw [hdone, List.nil_append] at hbooks
  have hleft : ∀ r, balance (Daemon.ledger m.log) r = (Daemon.leaked outcomes).count r := fun r => by
    rw [hbooks.balance]
    exact Int.zero_add _
  obtain ⟨hcode, hbalance, hsound⟩ := start_spec net url hleft
  refine ⟨fun e => ⟨fun he => he ▸ hcode, Code.eq⟩, start_serves, ?_⟩
  rw [← Daemon.leaked_eq_nil_iff]
  constructor
  · rintro ⟨-, hzero⟩ hret
    by_contra hne
    obtain ⟨r, hr⟩ := List.exists_mem_of_ne_nil _ hne
    have hcount := hzero (.of r)
    rw [hbalance, remains, if_pos hret] at hcount
    have hpos := List.count_pos_iff.mpr (List.mem_map_of_mem (f := Held.of) hr)
    omega
  · intro hnone
    refine ⟨hsound fun hret => (hbooks.once (hnone hret)).sound, fun x => ?_⟩
    rw [hbalance, remains]
    split
    · next hret => rw [hnone hret]; rfl
    · rfl

/-- **`xvcserver_start`.** For either server, any address, any results of the calls around the accept loop, and any run
of the loop up to a failed `accept`: the code that is returned is the one of `Code`; the loop has run with the socket of
the first address that works; and when the function returns it has given back everything, unless `getpeername` has
failed in the loop. -/
theorem start_returns (h : Versal.XvcServerHandlers σ) (h' : Dpc.XvcServerHandlers τ) (ports : Ports σ)
    (ports' : Ports τ) (data : σ) (data' : τ) (replyBuf : ByteMem) (net : Network) (url : CString) :
    (∀ outcomes m, Run (Daemon.Turn (Versal.protocol h) ports) (.start data replyBuf) outcomes m →
      m.stage = .done → Returns net url m.log outcomes) ∧
    ∀ outcomes m, Run (Daemon.Turn (Dpc.protocol h') ports') (.start data' replyBuf) outcomes m →
      m.stage = .done → Returns net url m.log outcomes :=
  ⟨fun _ _ hrun hdone => returns_of_run (Versal.keepsBuffer h) rfl hrun hdone net url,
    fun _ _ hrun hdone => returns_of_run (Dpc.keepsBuffer h') rfl hrun hdone net url⟩

/-- A host with two addresses, on the second of which the server can listen. -/
def boardNetwork : Network where
  getaddrinfo _ _ := some [⟨some 3, true, false, true⟩, ⟨some 3, true, true, true⟩]
  gethostname := some (ascii "board")

/-- Two clients that connect and leave, before `accept` fails. -/
theorem start_returns_visited :
    (xvcserverStart boardNetwork visited.log ⟨ascii "tcp::2542", by decide⟩).2 = 0 ∧
      ServesFirst boardNetwork (ascii "tcp::2542") visited.log
        (xvcserverStart boardNetwork visited.log ⟨ascii "tcp::2542", by decide⟩).1 ∧
      ∀ x, balance (xvcserverStart boardNetwork visited.log ⟨ascii "tcp::2542", by decide⟩).1 x = 0 := by
  have hrun : Run (Daemon.Turn hubProtocol hubPorts) (.start Versal.zeroHub Versal.zeroHub)
      (visitOutcomes ++ visitOutcomes ++ [.accept none])
      { visited with stage := .done } := visited_run.append (.cons ⟨.acceptFailed rfl, rfl, rfl⟩ <| .nil _)
  obtain ⟨hcode, hserves, hreleased⟩ :=
    (start_returns (Versal.handlers Versal.defaultHub) Dpc.idleHandlers hubPorts plainPorts
    Versal.zeroHub () Versal.zeroHub boardNetwork ⟨ascii "tcp::2542", by decide⟩).1 _ _ hrun rfl
  have hserved : Code boardNetwork (ascii "tcp::2542") 0 :=
    .served (.port (t := ascii "tcp") (h := []) (p := ascii "2542") (by decide) (by decide) (by decide)) rfl
      ⟨[⟨some 3, true, false, true⟩], ⟨some 3, true, true, true⟩, [], rfl, ⟨rfl, rfl⟩, fun x hx s hs => by
        rw [List.mem_singleton.mp hx] at hs
        exact absurd hs.2 (by decide)⟩ fun _ => nofun
  have hret := (hcode 0).mpr hserved
  refine ⟨hret, hserves hret, (hreleased.mpr fun _ fd opt peer hmem => ?_).2⟩
  simp [visitOutcomes] at hmem
  omega

end Xvc
