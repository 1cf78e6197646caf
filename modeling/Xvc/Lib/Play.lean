import Xvc.Lib.Program

/-!
# A program with given answers

A `Program` as a function of its state, for a caller that is not a program itself: its calls are answered from a `Tape`.

* `Program.play`: the result, and the state then.
* `play_finishes`: it is a run if the answers were possible ones. `Always.play` carries a rule over.
* `Program.passes`: a test of all answers, which can be computed.
* `Program.walk`: the first steps.
-/

namespace Program

variable {σ κ : Type} {ρ : κ → Type} {α : Type}

/-- The answers, by their number. -/
abbrev Tape (σ κ : Type) (ρ : κ → Type) : Type := (n : Nat) → (c : κ) → σ → ρ c

/-- The state, the number of answers up to it, and whether all of them were possible. -/
structure Played (σ : Type) where
  state : σ
  turn : Nat
  lawful : Prop

/-- `p` with the answers of `tape`. -/
def play (w : World σ κ ρ) (tape : Tape σ κ ρ) : Program σ κ ρ α → Played σ → α × Played σ
  | done a, x => (a, x)
  | get k, x => (k x.state).play w tape x
  | set f k, x => k.play w tape { x with state := f x.state }
  | call c k, x =>
    let r := tape x.turn c x.state
    (k r).play w tape ⟨w.effect c r x.state, x.turn + 1, x.lawful ∧ w.answers c r x.state⟩

variable {w : World σ κ ρ} {tape : Tape σ κ ρ} {I : σ → Prop} {Q : α → σ → Prop}

/-- The calls, with their answers. -/
def answered (w : World σ κ ρ) (tape : Tape σ κ ρ) : Program σ κ ρ α → Played σ → List (Σ c, ρ c)
  | done _, _ => []
  | get k, x => (k x.state).answered w tape x
  | set f k, x => k.answered w tape { x with state := f x.state }
  | call c k, x =>
    let r := tape x.turn c x.state
    ⟨c, r⟩ :: (k r).answered w tape ⟨w.effect c r x.state, x.turn + 1, x.lawful ∧ w.answers c r x.state⟩

theorem play_finishes (p : Program σ κ ρ α) {x : Played σ} (h : (p.play w tape x).2.lawful) :
    x.lawful ∧ p.Finishes w x.state (p.answered w tape x) (p.play w tape x).1 (p.play w tape x).2.state := by
  induction p generalizing x with
  | done a => exact ⟨h, .done a x.state⟩
  | get k ih =>
    obtain ⟨hx, hrun⟩ := ih _ h
    exact ⟨hx, .get hrun⟩
  | set f k ih =>
    obtain ⟨hx, hrun⟩ := ih h
    exact ⟨hx, .set hrun⟩
  | call c k ih =>
    obtain ⟨⟨hx, hr⟩, hrun⟩ := ih _ h
    exact ⟨hx, .call _ hr hrun⟩

/-- The test of the answers to `p`. -/
def passes (w : World σ κ ρ) (tape : Tape σ κ ρ) (test : (c : κ) → ρ c → σ → Bool) : Program σ κ ρ α → Played σ → Bool
  | done _, _ => true
  | get k, x => (k x.state).passes w tape test x
  | set f k, x => k.passes w tape test { x with state := f x.state }
  | call c k, x =>
    let r := tape x.turn c x.state
    test c r x.state && (k r).passes w tape test ⟨w.effect c r x.state, x.turn + 1, x.lawful ∧ w.answers c r x.state⟩

/-- When the tape gives possible answers only. -/
theorem play_lawful (htape : ∀ n c s, w.answers c (tape n c s) s) (p : Program σ κ ρ α) {x : Played σ}
    (hx : x.lawful) : (p.play w tape x).2.lawful := by
  induction p generalizing x with
  | done a => exact hx
  | get k ih => exact ih _ hx
  | set f k ih => exact ih (x := { x with state := f x.state }) hx
  | call c k ih =>
    exact ih _ (x := ⟨w.effect c (tape x.turn c x.state) x.state, x.turn + 1, x.lawful ∧ w.answers c _ x.state⟩)
      ⟨hx, htape _ _ _⟩

/-- When the answers that pass are possible, and all pass. -/
theorem lawful_of_passes {test : (c : κ) → ρ c → σ → Bool}
    (htest : ∀ n c s, test c (tape n c s) s = true → w.answers c (tape n c s) s) {p : Program σ κ ρ α} {x : Played σ}
    (hx : x.lawful) (h : p.passes w tape test x = true) : (p.play w tape x).2.lawful := by
  induction p generalizing x with
  | done a => exact hx
  | get k ih => exact ih _ hx h
  | set f k ih => exact ih (x := { x with state := f x.state }) hx h
  | call c k ih =>
    obtain ⟨hc, hk⟩ := Bool.and_eq_true_iff.mp h
    exact ih _ (x := ⟨w.effect c (tape x.turn c x.state) x.state, x.turn + 1, x.lawful ∧ w.answers c _ x.state⟩)
      ⟨hx, htest _ _ _ hc⟩ hk

/-- The first `n` steps of `p`: what is left of it, and the state then. -/
def walk (w : World σ κ ρ) (tape : Tape σ κ ρ) : Nat → Program σ κ ρ α → Played σ → Program σ κ ρ α × Played σ
  | 0, p, x => (p, x)
  | _ + 1, done a, x => (done a, x)
  | n + 1, get k, x => (k x.state).walk w tape n x
  | n + 1, set f k, x => k.walk w tape n { x with state := f x.state }
  | n + 1, call c k, x =>
    let r := tape x.turn c x.state
    (k r).walk w tape n ⟨w.effect c r x.state, x.turn + 1, x.lawful ∧ w.answers c r x.state⟩

/-- The call that `p` is about to make. -/
def awaits : Program σ κ ρ α → Option κ
  | call c _ => some c
  | _ => none

theorem exists_call {p : Program σ κ ρ α} {c : κ} (h : p.awaits = some c) : ∃ k, p = .call c k := by
  cases p with
  | call c' k =>
    obtain rfl : c' = c := Option.some.inj h
    exact ⟨k, rfl⟩
  | _ => cases h

theorem walk_steps (htape : ∀ n c s, w.answers c (tape n c s) s) (n : Nat) (p : Program σ κ ρ α) (x : Played σ) :
    Relation.ReflTransGen (Step w) (x.state, p) ((p.walk w tape n x).2.state, (p.walk w tape n x).1) := by
  induction n generalizing p x with
  | zero => exact .refl
  | succ n ih =>
    cases p with
    | done a => exact .refl
    | get k => exact .head .get (ih _ x)
    | set f k => exact .head .set (ih k { x with state := f x.state })
    | call c k => exact .head (.call _ (htape x.turn c x.state)) (ih _ ⟨_, x.turn + 1, _⟩)

theorem Always.play {p : Program σ κ ρ α} {x : Played σ} (hp : p.Always w I Q x.state)
    (h : (p.play w tape x).2.lawful) : Q (p.play w tape x).1 (p.play w tape x).2.state := by
  obtain ⟨-, hrun⟩ := play_finishes p h
  exact hp.at_end hrun

/-- What holds whatever the answers are. -/
theorem Always.play_any {p : Program σ κ ρ α} {x : Played σ} (hp : p.Always ⟨fun _ _ _ => True, w.effect⟩ I Q x.state) :
    Q (p.play w tape x).1 (p.play w tape x).2.state := by
  induction p generalizing x with
  | done a => exact hp
  | get k ih => exact ih _ hp
  | set f k ih => exact ih (x := { x with state := f x.state }) hp.2
  | call c k ih =>
    exact ih _ (x := ⟨w.effect c (tape x.turn c x.state) x.state, x.turn + 1, x.lawful ∧ w.answers c _ x.state⟩)
      (hp (tape x.turn c x.state) trivial).2

theorem always_true (p : Program σ κ ρ α) (s : σ) : p.Always w (fun _ => True) (fun _ _ => True) s := by
  induction p generalizing s with
  | done a => trivial
  | get k ih => exact ih s s
  | set f k ih => exact ⟨trivial, ih _⟩
  | call c k ih => exact fun r _ => ⟨trivial, ih r _⟩

end Program

/-- A session whose program is played to its end. -/
theorem Session.Reaches.plays {σ κ : Type} {ρ : κ → Type} {S : Session σ κ ρ} {tape : Program.Tape σ κ ρ} {s : σ}
    {x : Program.Played σ} {j : S.Job} (h : S.Reaches s (x.state, .done ())) (hmay : S.may x.state j)
    (hlawful : ((S.body j).play S.world tape x).2.lawful) :
    S.Reaches s (((S.body j).play S.world tape x).2.state, .done ()) := by
  obtain ⟨-, hrun⟩ := Program.play_finishes _ hlawful
  exact (Session.Reaches.starts h hmay).runs hrun.steps
