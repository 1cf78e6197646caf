import Mathlib.Logic.Relation

/-!
# Programs that call an environment

A `Program` reads and writes a state and makes calls, whose answers the environment chooses. A `Session`
runs one program after the other; between any two steps its state can be observed.

* `World`: what a call may be answered, and what it then does to the state.
* `Program.Always w I Q`: through every run the state satisfies `I` after each step, and `Q` at the end.
  `Always.bind` and `Always.mono` are its rules.
* `Program.Finishes`: a run to the end, with the answers that it was given. `Always.at_end` and `always_of_finishes`
  turn the one view into the other.
* `Session.invariant`: what the programs of a session keep holds in all its runs.
-/

/-- A program with calls `κ`, which are answered by `ρ`. -/
inductive Program (σ κ : Type) (ρ : κ → Type) (α : Type) where
  | done (a : α)
  | get (k : σ → Program σ κ ρ α)
  | set (f : σ → σ) (k : Program σ κ ρ α)
  | call (c : κ) (k : ρ c → Program σ κ ρ α)

/-- The environment: the answers a call may get, and its effect. -/
structure World (σ κ : Type) (ρ : κ → Type) where
  answers : (c : κ) → ρ c → σ → Prop
  effect : (c : κ) → ρ c → σ → σ

variable {σ κ : Type} {ρ : κ → Type} {α β : Type}

namespace Program

def bind : Program σ κ ρ α → (α → Program σ κ ρ β) → Program σ κ ρ β
  | done a, f => f a
  | get k, f => get fun s => (k s).bind f
  | set g k, f => set g (k.bind f)
  | call c k, f => call c fun r => (k r).bind f

instance : Monad (Program σ κ ρ) where
  pure := done
  bind := bind

/-- The state. -/
def read : Program σ κ ρ σ := get done

def modify (f : σ → σ) : Program σ κ ρ Unit := set f (done ())

/-- The answer to a call. -/
def ask (c : κ) : Program σ κ ρ (ρ c) := call c done

/-- A step of a program. -/
inductive Step (w : World σ κ ρ) : σ × Program σ κ ρ α → σ × Program σ κ ρ α → Prop
  | get {s : σ} {k : σ → Program σ κ ρ α} : Step w (s, .get k) (s, k s)
  | set {s : σ} {f : σ → σ} {k : Program σ κ ρ α} : Step w (s, .set f k) (f s, k)
  | call {s : σ} {c : κ} {k : ρ c → Program σ κ ρ α} (r : ρ c) (h : w.answers c r s) :
      Step w (s, .call c k) (w.effect c r s, k r)

/-- After every step the state satisfies `I`, and at the end it satisfies `Q` with the result. -/
def Always (w : World σ κ ρ) (I : σ → Prop) (Q : α → σ → Prop) : Program σ κ ρ α → σ → Prop
  | done a, s => Q a s
  | get k, s => (k s).Always w I Q s
  | set f k, s => I (f s) ∧ k.Always w I Q (f s)
  | call c k, s => ∀ r, w.answers c r s → I (w.effect c r s) ∧ (k r).Always w I Q (w.effect c r s)

variable {w : World σ κ ρ} {I : σ → Prop} {Q Q' : α → σ → Prop} {s : σ}

/-! The rules of the constructs, for proofs that follow a program. -/

@[simp] theorem always_pure (a : α) : (pure a : Program σ κ ρ α).Always w I Q s ↔ Q a s := Iff.rfl

@[simp] theorem always_read_bind (f : σ → Program σ κ ρ α) :
    (read >>= f).Always w I Q s ↔ (f s).Always w I Q s := Iff.rfl

@[simp] theorem always_modify_bind (g : σ → σ) (f : Unit → Program σ κ ρ α) :
    (modify g >>= f).Always w I Q s ↔ I (g s) ∧ (f ()).Always w I Q (g s) := Iff.rfl

@[simp] theorem always_modify (g : σ → σ) {Q : Unit → σ → Prop} :
    (modify g : Program σ κ ρ Unit).Always w I Q s ↔ I (g s) ∧ Q () (g s) := Iff.rfl

@[simp] theorem always_ask_bind (c : κ) (f : ρ c → Program σ κ ρ α) :
    (ask c >>= f).Always w I Q s ↔
      ∀ r, w.answers c r s → I (w.effect c r s) ∧ (f r).Always w I Q (w.effect c r s) := Iff.rfl

@[simp] theorem always_ask (c : κ) {Q : ρ c → σ → Prop} :
    (ask c : Program σ κ ρ (ρ c)).Always w I Q s ↔
      ∀ r, w.answers c r s → I (w.effect c r s) ∧ Q r (w.effect c r s) := Iff.rfl

/-- Consequence. -/
theorem Always.mono {p : Program σ κ ρ α} (h : p.Always w I Q s) (hq : ∀ a s, Q a s → Q' a s) :
    p.Always w I Q' s := by
  induction p generalizing s with
  | done a => exact hq _ _ h
  | get k ih => exact ih _ h
  | set f k ih => exact ⟨h.1, ih h.2⟩
  | call c k ih => exact fun r hr => ⟨(h r hr).1, ih r (h r hr).2⟩

/-- A weaker condition on the steps. -/
theorem Always.weaken {I' : σ → Prop} {p : Program σ κ ρ α} (h : p.Always w I Q s) (hI : ∀ s, I s → I' s) :
    p.Always w I' Q s := by
  induction p generalizing s with
  | done a => exact h
  | get k ih => exact ih _ h
  | set f k ih => exact ⟨hI _ h.1, ih h.2⟩
  | call c k ih => exact fun r hr => ⟨hI _ (h r hr).1, ih r (h r hr).2⟩

/-- A world that answers less. -/
theorem Always.narrow {w' : World σ κ ρ} {p : Program σ κ ρ α} (h : p.Always w I Q s)
    (hanswers : ∀ c r s, w'.answers c r s → w.answers c r s) (heffect : w'.effect = w.effect) : p.Always w' I Q s := by
  induction p generalizing s with
  | done a => exact h
  | get k ih => exact ih _ h
  | set f k ih => exact ⟨h.1, ih h.2⟩
  | call c k ih =>
    intro r hr
    rw [heffect]
    have hstep := h r (hanswers c r s hr)
    exact ⟨hstep.1, ih r hstep.2⟩

/-- Conjunction. -/
theorem Always.and {I' : σ → Prop} {p : Program σ κ ρ α} (h : p.Always w I Q s) (h' : p.Always w I' Q' s) :
    p.Always w I (fun a s => Q a s ∧ Q' a s) s := by
  induction p generalizing s with
  | done a => exact ⟨h, h'⟩
  | get k ih => exact ih _ h h'
  | set f k ih => exact ⟨h.1, ih h.2 h'.2⟩
  | call c k ih => exact fun r hr => ⟨(h r hr).1, ih r (h r hr).2 (h' r hr).2⟩

/-- Composition. -/
theorem always_bind {p : Program σ κ ρ α} {f : α → Program σ κ ρ β} {Q : β → σ → Prop} :
    (p >>= f).Always w I Q s ↔ p.Always w I (fun a s => (f a).Always w I Q s) s := by
  induction p generalizing s with
  | done a => exact Iff.rfl
  | get k ih => exact ih _
  | set g k ih => exact and_congr_right fun _ => ih
  | call c k ih => exact forall₂_congr fun r _ => and_congr_right fun _ => ih r

theorem Always.bind {p : Program σ κ ρ α} {f : α → Program σ κ ρ β} {Q : β → σ → Prop}
    (h : p.Always w I (fun a s => (f a).Always w I Q s) s) : (p >>= f).Always w I Q s := always_bind.mpr h

theorem Always.of_bind {p : Program σ κ ρ α} {f : α → Program σ κ ρ β} {Q : β → σ → Prop}
    (h : (p >>= f).Always w I Q s) : p.Always w I (fun a s => (f a).Always w I Q s) s := always_bind.mp h

/-- Composition, with what holds in between. -/
theorem Always.seq {p : Program σ κ ρ α} {f : α → Program σ κ ρ β} {J : α → σ → Prop} {Q : β → σ → Prop}
    (h : p.Always w I J s) (hf : ∀ a t, J a t → (f a).Always w I Q t) : (p >>= f).Always w I Q s :=
  (h.mono hf).bind

/-- One step of a program that always does. -/
theorem Always.step {p p' : Program σ κ ρ α} {s s' : σ} (h : p.Always w I Q s) (hI : I s)
    (hstep : Step w (s, p) (s', p')) : I s' ∧ p'.Always w I Q s' := by
  cases hstep with
  | get => exact ⟨hI, h⟩
  | set => exact h
  | call r hr => exact h r hr

/-! ## Runs to the end -/

/-- A run to the end: the calls with their answers, the result, and the state then. -/
inductive Finishes (w : World σ κ ρ) : Program σ κ ρ α → σ → List (Σ c, ρ c) → α → σ → Prop
  | done (a : α) (s : σ) : Finishes w (.done a) s [] a s
  | get {k : σ → Program σ κ ρ α} {s t : σ} {log : List (Σ c, ρ c)} {a : α} (h : Finishes w (k s) s log a t) :
      Finishes w (.get k) s log a t
  | set {f : σ → σ} {k : Program σ κ ρ α} {s t : σ} {log : List (Σ c, ρ c)} {a : α} (h : Finishes w k (f s) log a t) :
      Finishes w (.set f k) s log a t
  | call {c : κ} {k : ρ c → Program σ κ ρ α} {s t : σ} {log : List (Σ c, ρ c)} {a : α} (r : ρ c)
      (hr : w.answers c r s) (h : Finishes w (k r) (w.effect c r s) log a t) :
      Finishes w (.call c k) s (⟨c, r⟩ :: log) a t

section Finishes

variable {log : List (Σ c, ρ c)} {a b : α} {t : σ}

theorem finishes_pure : (pure a : Program σ κ ρ α).Finishes w s log b t ↔ log = [] ∧ b = a ∧ t = s := by
  constructor
  · intro h
    cases h with
    | done => exact ⟨rfl, rfl, rfl⟩
  · rintro ⟨rfl, rfl, rfl⟩
    exact .done b t

theorem finishes_read_bind {f : σ → Program σ κ ρ α} :
    (read >>= f).Finishes w s log a t ↔ (f s).Finishes w s log a t := by
  constructor
  · intro h
    cases h with
    | get h => exact h
  · exact .get

theorem finishes_modify_bind {g : σ → σ} {f : Unit → Program σ κ ρ α} :
    (modify g >>= f).Finishes w s log a t ↔ (f ()).Finishes w (g s) log a t := by
  constructor
  · intro h
    cases h with
    | set h => exact h
  · exact .set

theorem finishes_ask_bind {c : κ} {f : ρ c → Program σ κ ρ α} :
    (ask c >>= f).Finishes w s log a t ↔
      ∃ r log', w.answers c r s ∧ log = ⟨c, r⟩ :: log' ∧ (f r).Finishes w (w.effect c r s) log' a t := by
  constructor
  · intro h
    cases h with
    | call r hr h => exact ⟨r, _, hr, rfl, h⟩
  · rintro ⟨r, log', hr, rfl, h⟩
    exact .call r hr h

theorem finishes_ask {c : κ} {r : ρ c} :
    (ask c : Program σ κ ρ (ρ c)).Finishes w s log r t ↔ w.answers c r s ∧ log = [⟨c, r⟩] ∧ t = w.effect c r s := by
  constructor
  · intro h
    cases h with
    | call r hr h =>
      cases h with
      | done => exact ⟨hr, rfl, rfl⟩
  · rintro ⟨hr, rfl, rfl⟩
    exact .call r hr (.done r _)

theorem Finishes.bind {p : Program σ κ ρ α} {f : α → Program σ κ ρ β} {u : σ} {log' : List (Σ c, ρ c)} {c : β}
    (h : p.Finishes w s log a t) (h' : (f a).Finishes w t log' c u) : (p >>= f).Finishes w s (log ++ log') c u := by
  induction h with
  | done a s => exact h'
  | get _ ih => exact .get (ih h')
  | set _ ih => exact .set (ih h')
  | call r hr _ ih => exact .call r hr (ih h')

/-- The run of a composition is one of each part. -/
theorem Finishes.of_bind {p : Program σ κ ρ α} {f : α → Program σ κ ρ β} {c : β}
    (h : (p >>= f).Finishes w s log c t) :
    ∃ l a u l', p.Finishes w s l a u ∧ (f a).Finishes w u l' c t ∧ log = l ++ l' := by
  induction p generalizing s log with
  | done a => exact ⟨[], a, s, log, .done a s, h, rfl⟩
  | get k ih =>
    cases h with
    | get h =>
      obtain ⟨l, a, u, l', h1, h2, rfl⟩ := ih _ h
      exact ⟨l, a, u, l', .get h1, h2, rfl⟩
  | set g k ih =>
    cases h with
    | set h =>
      obtain ⟨l, a, u, l', h1, h2, rfl⟩ := ih h
      exact ⟨l, a, u, l', .set h1, h2, rfl⟩
  | call c k ih =>
    cases h with
    | call r hr h =>
      obtain ⟨l, a, u, l', h1, h2, rfl⟩ := ih r h
      exact ⟨_, a, u, l', .call r hr h1, h2, rfl⟩

/-- It is a run of steps. -/
theorem Finishes.steps {p : Program σ κ ρ α} (h : p.Finishes w s log a t) :
    Relation.ReflTransGen (Step w) (s, p) (t, .done a) := by
  induction h with
  | done a s => exact .refl
  | get _ ih => exact .head .get ih
  | set _ ih => exact .head .set ih
  | call r hr _ ih => exact .head (.call r hr) ih

/-- What always holds at the end holds at the end of every run. -/
theorem Always.at_end {p : Program σ κ ρ α} (h : p.Always w I Q s) (hrun : p.Finishes w s log a t) : Q a t := by
  induction hrun with
  | done => exact h
  | get _ ih => exact ih h
  | set _ ih => exact ih h.2
  | call r hr _ ih => exact ih (h r hr).2

/-- Where every call is answered, a program comes to its end. -/
theorem exists_finishes (hlive : ∀ c s, ∃ r, w.answers c r s) (p : Program σ κ ρ α) (s : σ) :
    ∃ log a t, p.Finishes w s log a t := by
  induction p generalizing s with
  | done a => exact ⟨[], a, s, .done a s⟩
  | get k ih =>
    obtain ⟨log, a, t, h⟩ := ih s s
    exact ⟨log, a, t, .get h⟩
  | set g k ih =>
    obtain ⟨log, a, t, h⟩ := ih (g s)
    exact ⟨log, a, t, .set h⟩
  | call c k ih =>
    obtain ⟨r, hr⟩ := hlive c s
    obtain ⟨log, a, t, h⟩ := ih r (w.effect c r s)
    exact ⟨_, a, t, .call r hr h⟩

end Finishes

end Program

/-! ## Sessions -/

/-- Programs that may be run, one at a time: `may s j` when `j` can be started in `s`. -/
structure Session (σ κ : Type) (ρ : κ → Type) where
  world : World σ κ ρ
  Job : Type
  may : σ → Job → Prop
  body : Job → Program σ κ ρ Unit

namespace Session

/-- A step: a program is started when none is running, or the running one takes a step. -/
inductive Step (S : Session σ κ ρ) : σ × Program σ κ ρ Unit → σ × Program σ κ ρ Unit → Prop
  | start {s : σ} (j : S.Job) (h : S.may s j) : Step S (s, .done ()) (s, S.body j)
  | run {c d : σ × Program σ κ ρ Unit} (h : Program.Step S.world c d) : Step S c d

/-- A run, from where no program is running. -/
def Reaches (S : Session σ κ ρ) (s : σ) (c : σ × Program σ κ ρ Unit) : Prop :=
  Relation.ReflTransGen S.Step (s, .done ()) c

/-- The program that is running goes on. -/
theorem Reaches.runs {S : Session σ κ ρ} {s : σ} {c d : σ × Program σ κ ρ Unit} (h : S.Reaches s c)
    (hrun : Relation.ReflTransGen (Program.Step S.world) c d) : S.Reaches s d :=
  h.trans (hrun.lift id fun _ _ hstep => .run hstep)

/-- A program is started. -/
theorem Reaches.starts {S : Session σ κ ρ} {s t : σ} {j : S.Job} (h : S.Reaches s (t, .done ())) (hmay : S.may t j) :
    S.Reaches s (t, S.body j) := h.tail (.start j hmay)

/-- Some run from `c` comes to where `P` holds. -/
def Leads (S : Session σ κ ρ) (c : σ × Program σ κ ρ Unit) (P : σ × Program σ κ ρ Unit → Prop) : Prop :=
  ∃ d, Relation.ReflTransGen S.Step c d ∧ P d

theorem Leads.here {S : Session σ κ ρ} {c : σ × Program σ κ ρ Unit} {P : σ × Program σ κ ρ Unit → Prop} (h : P c) :
    S.Leads c P := ⟨c, .refl, h⟩

theorem Leads.step {S : Session σ κ ρ} {c d : σ × Program σ κ ρ Unit} {P : σ × Program σ κ ρ Unit → Prop}
    (hstep : S.Step c d) (h : S.Leads d P) : S.Leads c P := by
  obtain ⟨e, hrun, he⟩ := h
  exact ⟨e, .head hstep hrun, he⟩

/-- The runs whose calls are answered as `ok` says, and whose programs are started as `okStart` says. -/
def under (S : Session σ κ ρ) (ok : (c : κ) → ρ c → σ → Prop) (okStart : σ → S.Job → Prop) : Session σ κ ρ where
  world := { S.world with answers := fun c r s => S.world.answers c r s ∧ ok c r s }
  Job := S.Job
  may s j := S.may s j ∧ okStart s j
  body := S.body

/-- What holds throughout the runs from where `p` is about to run holds at each of its steps. -/
theorem always_of_runs {S : Session σ κ ρ} {I : σ → Prop} {s : σ} {p : Program σ κ ρ Unit}
    (h : ∀ d, Relation.ReflTransGen S.Step (s, p) d → I d.1) : p.Always S.world I (fun _ _ => True) s := by
  induction p generalizing s with
  | done a => trivial
  | get k ih => exact ih _ fun d hd => h d (.head (.run .get) hd)
  | set f k ih => exact ⟨h _ (.single (.run .set)), ih fun d hd => h d (.head (.run .set) hd)⟩
  | call c k ih =>
    exact fun r hr => ⟨h _ (.single (.run (.call r hr))), ih r fun d hd => h d (.head (.run (.call r hr)) hd)⟩

/-- If every program keeps `J`, and `I` at each of its steps, then `I` holds throughout. -/
theorem invariant {S : Session σ κ ρ} {I J : σ → Prop} (hJ : ∀ s, J s → I s)
    (keep : ∀ s j, J s → S.may s j → (S.body j).Always S.world I (fun _ => J) s) {s : σ} (h0 : J s)
    {c : σ × Program σ κ ρ Unit} (h : S.Reaches s c) :
    I c.1 ∧ c.2.Always S.world I (fun _ => J) c.1 := by
  induction h with
  | refl => exact ⟨hJ s h0, h0⟩
  | tail _ hstep ih =>
    obtain ⟨hI, halways⟩ := ih
    cases hstep with
    | start j hmay => exact ⟨hI, keep _ j halways hmay⟩
    | run hrun => exact halways.step hI hrun

end Session
