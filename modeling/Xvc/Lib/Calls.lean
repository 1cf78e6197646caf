import Mathlib.Data.List.Induction
import Mathlib.Logic.Function.Basic
import Xvc.Lib.Program

/-!
# Calls under locks

Parties make calls. A call takes its lock, runs a program on its cell and gives the lock back; between any two of its
steps any other party may take one of its own.

* `Calls`: the lock, the cell and the program of each call. `Step`: a step of a party.
* `InTurn`: calls one after the other.
* `Calls.Inv`: the lock is its holder's, and a cell is what the finished calls have made of it in turn, up to the steps
  of the call in progress.
* `in_turn`: so it is throughout every run, if calls on one cell have one lock.
-/

/-- Calls `Q` with results `α`, on cells `B` that hold a `σ`, under locks `L`. -/
structure Calls (Q L B σ κ : Type) (ρ : κ → Type) (α : Type) where
  world : World σ κ ρ
  lock : Q → L
  cell : Q → B
  body : Q → Program σ κ ρ α

namespace Calls

variable {ι Q L B σ κ α : Type} {ρ : κ → Type}

/-- Where a party is. -/
inductive Phase (Q σ κ : Type) (ρ : κ → Type) (α : Type) where
  | out
  | waits (q : Q)
  | holds (q : Q) (p : Program σ κ ρ α)

/-- A finished call. -/
structure Entry (ι Q α : Type) where
  party : ι
  call : Q
  result : α

/-- `done` has the finished calls, in the order in which they gave their locks back. -/
structure State (ι Q L B σ κ : Type) (ρ : κ → Type) (α : Type) where
  cells : B → σ
  owner : L → Option ι
  party : ι → Phase Q σ κ ρ α
  done : List (Entry ι Q α)

/-- No party has called yet. -/
def State.start (cells : B → σ) : State ι Q L B σ κ ρ α := ⟨cells, fun _ => none, fun _ => .out, []⟩

/-- A step of party `i`. -/
inductive Step [DecidableEq ι] [DecidableEq L] [DecidableEq B] (C : Calls Q L B σ κ ρ α) :
    State ι Q L B σ κ ρ α → State ι Q L B σ κ ρ α → Prop
  | call {s : State ι Q L B σ κ ρ α} (i : ι) (q : Q) (h : s.party i = .out) :
      Step C s { s with party := Function.update s.party i (.waits q) }
  | acquire {s : State ι Q L B σ κ ρ α} (i : ι) (q : Q) (h : s.party i = .waits q) (hfree : s.owner (C.lock q) = none) :
      Step C s { s with
        party := Function.update s.party i (.holds q (C.body q))
        owner := Function.update s.owner (C.lock q) (some i) }
  | access {s : State ι Q L B σ κ ρ α} (i : ι) (q : Q) (p p' : Program σ κ ρ α) (x : σ) (h : s.party i = .holds q p)
      (hstep : Program.Step C.world (s.cells (C.cell q), p) (x, p')) :
      Step C s { s with
        party := Function.update s.party i (.holds q p')
        cells := Function.update s.cells (C.cell q) x }
  | release {s : State ι Q L B σ κ ρ α} (i : ι) (q : Q) (a : α) (h : s.party i = .holds q (.done a)) :
      Step C s { s with
        party := Function.update s.party i .out
        owner := Function.update s.owner (C.lock q) none
        done := s.done ++ [⟨i, q, a⟩] }

/-- The calls run one after the other on one cell, to their results. -/
inductive InTurn (C : Calls Q L B σ κ ρ α) : σ → List (Entry ι Q α) → σ → Prop
  | nil (x : σ) : InTurn C x [] x
  | snoc {x y z : σ} {l : List (Entry ι Q α)} {e : Entry ι Q α} {log : List (Σ c, ρ c)} (h : InTurn C x l y)
      (hrun : (C.body e.call).Finishes C.world y log e.result z) : InTurn C x (l ++ [e]) z

/-- The finished calls on a cell. -/
def State.on [DecidableEq B] (C : Calls Q L B σ κ ρ α) (s : State ι Q L B σ κ ρ α) (b : B) : List (Entry ι Q α) :=
  s.done.filter fun e => C.cell e.call = b

/-- No call is at work on the cell. -/
def State.Free (C : Calls Q L B σ κ ρ α) (s : State ι Q L B σ κ ρ α) (b : B) : Prop :=
  ∀ i q p, s.party i = .holds q p → C.cell q ≠ b

/-- What holds of one cell, when the finished calls have left `x` in it. -/
structure CellInv (C : Calls Q L B σ κ ρ α) (s : State ι Q L B σ κ ρ α) (b : B) (x : σ) : Prop where
  free : s.Free C b → s.cells b = x
  busy : ∀ i q p, s.party i = .holds q p → C.cell q = b →
    Relation.ReflTransGen (Program.Step C.world) (x, C.body q) (s.cells b, p)

structure Inv [DecidableEq B] (C : Calls Q L B σ κ ρ α) (cells : B → σ) (s : State ι Q L B σ κ ρ α) : Prop where
  owner : ∀ i q p, s.party i = .holds q p → s.owner (C.lock q) = some i
  cell : ∀ b, ∃ x, C.InTurn (cells b) (s.on C b) x ∧ CellInv C s b x

variable {C : Calls Q L B σ κ ρ α} {cells : B → σ} {s t : State ι Q L B σ κ ρ α}

theorem finishes_of_steps {w : World σ κ ρ} {p : Program σ κ ρ α} {x y : σ} {a : α}
    (h : Relation.ReflTransGen (Program.Step w) (x, p) (y, .done a)) : ∃ log, p.Finishes w x log a y := by
  generalize hd : ((y, .done a) : σ × Program σ κ ρ α) = d at h
  generalize hc : ((x, p) : σ × Program σ κ ρ α) = c at h
  induction h using Relation.ReflTransGen.head_induction_on generalizing x p with
  | refl =>
    cases hc.trans hd.symm
    exact ⟨[], .done a y⟩
  | head hstep _ ih =>
    cases hc
    cases hstep with
    | get =>
      obtain ⟨log, hrun⟩ := ih rfl
      exact ⟨log, .get hrun⟩
    | set =>
      obtain ⟨log, hrun⟩ := ih rfl
      exact ⟨log, .set hrun⟩
    | call r hr =>
      obtain ⟨log, hrun⟩ := ih rfl
      exact ⟨_, .call r hr hrun⟩

/-- The party of an update that holds a lock. -/
theorem holds_update [DecidableEq ι] {f : ι → Phase Q σ κ ρ α} {i j : ι} {ph : Phase Q σ κ ρ α} {q : Q}
    {p : Program σ κ ρ α} (h : Function.update f i ph j = .holds q p) :
    j = i ∧ ph = .holds q p ∨ j ≠ i ∧ f j = .holds q p := by
  by_cases hj : j = i
  · subst hj
    rw [Function.update_self] at h
    exact .inl ⟨rfl, h⟩
  · rw [Function.update_of_ne hj] at h
    exact .inr ⟨hj, h⟩

/-- The cell of the only call on it. -/
theorem CellInv.of_only {x : σ} {i : ι} {q : Q} {p : Program σ κ ρ α} (hi : t.party i = .holds q p)
    (hsteps : Relation.ReflTransGen (Program.Step C.world) (x, C.body q) (t.cells (C.cell q), p))
    (honly : ∀ j r p', t.party j = .holds r p' → C.cell r = C.cell q → j = i) : CellInv C t (C.cell q) x where
  free hfree := absurd rfl (hfree i q p hi)
  busy j r p' hj hr := by
    obtain rfl := honly j r p' hj hr
    cases hi.symm.trans hj
    exact hsteps

/-- A cell that a step has nothing to do with. -/
theorem CellInv.frame [DecidableEq ι] {b : B} {x : σ} {i : ι} {ph : Phase Q σ κ ρ α}
    (h : CellInv C s b x) (hcells : t.cells b = s.cells b) (hparty : t.party = Function.update s.party i ph)
    (hbefore : ∀ q p, s.party i = .holds q p → C.cell q ≠ b) (hafter : ∀ q p, ph = .holds q p → C.cell q ≠ b) :
    CellInv C t b x where
  free hfree := by
    rw [hcells]
    refine h.free fun j q p hj hq => ?_
    by_cases hji : j = i
    · subst hji
      exact hbefore q p hj hq
    · exact hfree j q p (by rw [hparty, Function.update_of_ne hji, hj]) hq
  busy j q p hj hq := by
    rw [hparty] at hj
    rw [hcells]
    rcases holds_update hj with ⟨-, hph⟩ | ⟨-, hj⟩
    · exact absurd hq (hafter q p hph)
    · exact h.busy j q p hj hq

section Step

variable [DecidableEq B]

/-- Two parties do not hold one lock. -/
theorem Inv.exclusive (h : Inv C cells s) {i j : ι} {q r : Q} {p p' : Program σ κ ρ α} (hi : s.party i = .holds q p)
    (hj : s.party j = .holds r p') (hlock : C.lock q = C.lock r) : i = j := by
  have howner := h.owner i q p hi
  rw [hlock, h.owner j r p' hj] at howner
  exact (Option.some.inj howner).symm

theorem inv_start : Inv C cells (State.start cells : State ι Q L B σ κ ρ α) :=
  ⟨nofun, fun b => ⟨cells b, .nil _, fun _ => rfl, nofun⟩⟩

variable [DecidableEq ι] [DecidableEq L]

/-- **One step.** -/
theorem Inv.step (hlock : ∀ q r, C.cell q = C.cell r → C.lock q = C.lock r) (h : Inv C cells s) (hstep : Step C s t) :
    Inv C cells t := by
  cases hstep with
  | call i q hi =>
    refine ⟨fun j r p' hj => ?_, fun b => ?_⟩
    · rcases holds_update hj with ⟨-, hph⟩ | ⟨-, hj⟩
      · cases hph
      · exact h.owner j r p' hj
    · obtain ⟨x, hturn, hcell⟩ := h.cell b
      exact ⟨x, hturn, hcell.frame rfl rfl (by simp [hi]) nofun⟩
  | acquire i q hi hfree =>
    -- Whoever was at work on the cell would have the lock.
    have hnone : s.Free C (C.cell q) := fun j r p' hj hr => by
      rw [← hlock r q hr, h.owner j r p' hj] at hfree
      cases hfree
    refine ⟨fun j r p' hj => ?_, fun b => ?_⟩
    · rcases holds_update hj with ⟨rfl, hph⟩ | ⟨-, hj⟩
      · cases hph
        exact Function.update_self ..
      · have howner := h.owner j r p' hj
        have hne : C.lock r ≠ C.lock q := fun heq => by
          rw [heq, hfree] at howner
          cases howner
        exact (Function.update_of_ne hne ..).trans howner
    · obtain ⟨x, hturn, hcell⟩ := h.cell b
      refine ⟨x, hturn, ?_⟩
      by_cases hb : C.cell q = b
      · subst hb
        refine .of_only (i := i) (Function.update_self ..) ?_ fun j r p' hj hr => ?_
        · show Relation.ReflTransGen _ _ (s.cells (C.cell q), _)
          rw [hcell.free hnone]
        · rcases holds_update hj with ⟨hji, -⟩ | ⟨-, hj⟩
          · exact hji
          · exact absurd hr (hnone j r p' hj)
      · refine hcell.frame rfl rfl (by simp [hi]) ?_
        rintro r p' ⟨⟩
        exact hb
  | access i q p p' x' hi hstep =>
    refine ⟨fun j r p'' hj => ?_, fun b => ?_⟩
    · rcases holds_update hj with ⟨rfl, hph⟩ | ⟨-, hj⟩
      · cases hph
        exact h.owner j q p hi
      · exact h.owner j r p'' hj
    · obtain ⟨x, hturn, hcell⟩ := h.cell b
      refine ⟨x, hturn, ?_⟩
      by_cases hb : C.cell q = b
      · subst hb
        refine .of_only (i := i) (Function.update_self ..) ?_ fun j r p'' hj hr => ?_
        · have hcells : Function.update s.cells (C.cell q) x' (C.cell q) = x' := Function.update_self ..
          show Relation.ReflTransGen _ _ (Function.update s.cells (C.cell q) x' (C.cell q), _)
          rw [hcells]
          exact (hcell.busy i q p hi rfl).tail hstep
        · rcases holds_update hj with ⟨hji, -⟩ | ⟨-, hj⟩
          · exact hji
          · exact h.exclusive hj hi (hlock r q hr)
      · refine hcell.frame (Function.update_of_ne (Ne.symm hb) ..) rfl ?_ ?_
        · intro r p'' hr
          cases hi.symm.trans hr
          exact hb
        · rintro r p'' ⟨⟩
          exact hb
  | release i q a hi =>
    refine ⟨fun j r p' hj => ?_, fun b => ?_⟩
    · rcases holds_update hj with ⟨-, hph⟩ | ⟨hji, hj⟩
      · cases hph
      · have hne : C.lock r ≠ C.lock q := fun heq => hji (h.exclusive hj hi heq)
        exact (Function.update_of_ne hne ..).trans (h.owner j r p' hj)
    · obtain ⟨x, hturn, hcell⟩ := h.cell b
      by_cases hb : C.cell q = b
      · subst hb
        obtain ⟨log, hrun⟩ := finishes_of_steps (hcell.busy i q _ hi rfl)
        refine ⟨s.cells (C.cell q), ?_, fun _ => rfl, fun j r p' hj hr => ?_⟩
        · have hon : State.on C { s with
              party := Function.update s.party i .out
              owner := Function.update s.owner (C.lock q) none
              done := s.done ++ [⟨i, q, a⟩] } (C.cell q) = s.on C (C.cell q) ++ [⟨i, q, a⟩] := by
            simp [State.on]
          rw [hon]
          exact hturn.snoc hrun
        · rcases holds_update hj with ⟨-, hph⟩ | ⟨hji, hj⟩
          · cases hph
          · exact absurd (h.exclusive hj hi (hlock r q hr)) hji
      · refine ⟨x, ?_, hcell.frame rfl rfl ?_ nofun⟩
        · simpa [State.on, hb] using hturn
        · intro r p' hr
          cases hi.symm.trans hr
          exact hb

/-- A party that finds its lock free can make a call, to its end. -/
theorem run_call {i : ι} {q : Q} {log : List (Σ c, ρ c)} {a : α} {x : σ} (hi : s.party i = .out)
    (hfree : s.owner (C.lock q) = none) (hrun : (C.body q).Finishes C.world (s.cells (C.cell q)) log a x) :
    Relation.ReflTransGen (Step C) s
      { s with cells := Function.update s.cells (C.cell q) x, done := s.done ++ [⟨i, q, a⟩] } := by
  -- The state inside the lock, with `p` left to run.
  let inside (y : σ) (p : Program σ κ ρ α) : State ι Q L B σ κ ρ α :=
    ⟨Function.update s.cells (C.cell q) y, Function.update s.owner (C.lock q) (some i),
      Function.update s.party i (.holds q p), s.done⟩
  have hsteps : ∀ {p : Program σ κ ρ α} {y z : σ} {log : List (Σ c, ρ c)} {a : α}, p.Finishes C.world y log a z →
      Relation.ReflTransGen (Step C) (inside y p) (inside z (.done a)) := by
    intro p y z log a h
    have hone : ∀ {y z : σ} {p p' : Program σ κ ρ α}, Program.Step C.world (y, p) (z, p') →
        Step C (inside y p) (inside z p') := by
      intro y z p p' h
      have hcell : (inside y p).cells (C.cell q) = y := Function.update_self ..
      have hstep := Step.access (C := C) (s := inside y p) i q p p' z (Function.update_self ..) (by rwa [hcell])
      simpa only [inside, Function.update_idem] using hstep
    induction h with
    | done => exact .refl
    | get _ ih => exact .head (hone .get) ih
    | set _ ih => exact .head (hone .set) ih
    | call r hr _ ih => exact .head (hone (.call r hr)) ih
  have hcall := Step.call (C := C) i q hi
  have hacquire := Step.acquire (C := C) (s := { s with party := Function.update s.party i (.waits q) }) i q
    (Function.update_self ..) hfree
  simp only [Function.update_idem] at hacquire
  have hfirst : Step C { s with party := Function.update s.party i (.waits q) }
      (inside (s.cells (C.cell q)) (C.body q)) := by
    simpa only [inside, Function.update_eq_self] using hacquire
  have hrelease := Step.release (C := C) (s := inside x (.done a)) i q a (Function.update_self ..)
  have hparty : Function.update s.party i .out = s.party := by rw [← hi, Function.update_eq_self]
  have howner : Function.update s.owner (C.lock q) none = s.owner := by rw [← hfree, Function.update_eq_self]
  simp only [inside, Function.update_idem, hparty, howner] at hrelease
  exact ((Relation.ReflTransGen.single hcall).tail hfirst).trans ((hsteps hrun).tail hrelease)

/-- Where every access is answered, any calls can be made, one after the other. -/
theorem exists_run (hlive : ∀ c x, ∃ r, C.world.answers c r x) (l : List (ι × Q)) (cells : B → σ) :
    ∃ s : State ι Q L B σ κ ρ α, Relation.ReflTransGen (Step C) (.start cells) s ∧ (∀ i, s.party i = .out) ∧
      (∀ k, s.owner k = none) ∧ s.done.map (fun e => (e.party, e.call)) = l := by
  induction l using List.reverseRecOn with
  | nil => exact ⟨.start cells, .refl, fun _ => rfl, fun _ => rfl, rfl⟩
  | append_singleton l c ih =>
    obtain ⟨s, hrun, hout, hfree, hdone⟩ := ih
    obtain ⟨_, a, x, hcall⟩ := Program.exists_finishes hlive (C.body c.2) (s.cells (C.cell c.2))
    refine ⟨_, hrun.trans (run_call (hout c.1) (hfree _) hcall), hout, hfree, ?_⟩
    rw [List.map_append, hdone]
    rfl

/-- **Every run.** -/
theorem inv_of_run (hlock : ∀ q r, C.cell q = C.cell r → C.lock q = C.lock r)
    (hrun : Relation.ReflTransGen (Step C) (.start cells) s) : Inv C cells s := by
  induction hrun with
  | refl => exact inv_start
  | tail _ hstep ih => exact ih.step hlock hstep

end Step

end Calls
