import Mathlib.Logic.Function.Iterate
import Mathlib.Logic.Relation

/-!
# Deterministic machines and guarded runs

A machine is a step function on states; a state it maps to itself is one where it waits.

* `Settles f s t`: from `s` the machine comes to wait in `t`. There is at most one such `t`
  (`Settles.unique`), and steps compose with it (`Settles.of_iterate`).
* `Guarded step ok`: the steps taken from states that satisfy `ok`; `Guarded.invariant` is the
  induction over runs of such steps.
* `Run step s ls t`: a run of labelled steps. `Run.simulates`: a machine that can follow every step can
  follow a run; `Run.unique`: with steps that their labels decide, there is one way to do so.
-/

namespace Machine

variable {S : Type}

/-- The machine `f` started in `s` comes to wait in `t`. -/
def Settles (f : S → S) (s t : S) : Prop := (∃ n, f^[n] s = t) ∧ f t = t

theorem iterate_fixed {f : S → S} {t : S} (h : f t = t) (n : Nat) : f^[n] t = t :=
  Function.iterate_fixed h n

theorem Settles.refl {f : S → S} {t : S} (h : f t = t) : Settles f t t := ⟨⟨0, rfl⟩, h⟩

theorem Settles.of_iterate {f : S → S} {s s' t : S} {n : Nat} (hs : f^[n] s = s')
    (h : Settles f s' t) : Settles f s t := by
  obtain ⟨⟨m, hm⟩, ht⟩ := h
  exact ⟨⟨m + n, by rw [Function.iterate_add_apply, hs, hm]⟩, ht⟩

theorem Settles.of_step {f : S → S} {s t : S} (h : Settles f (f s) t) : Settles f s t :=
  h.of_iterate (n := 1) rfl

theorem Settles.unique {f : S → S} {s t t' : S} (h : Settles f s t) (h' : Settles f s t') :
    t = t' := by
  obtain ⟨⟨n, hn⟩, ht⟩ := h
  obtain ⟨⟨m, hm⟩, ht'⟩ := h'
  rcases Nat.le_total n m with hle | hle
  · obtain ⟨k, rfl⟩ := Nat.exists_eq_add_of_le hle
    rw [Nat.add_comm, Function.iterate_add_apply, hn, iterate_fixed ht] at hm
    exact hm
  · obtain ⟨k, rfl⟩ := Nat.exists_eq_add_of_le hle
    rw [Nat.add_comm, Function.iterate_add_apply, hm, iterate_fixed ht'] at hn
    exact hn.symm

/-- A machine that takes steps of `r`, started any number of times. -/
theorem iterate_steps {r : S → S → Prop} {f : S → S} (hf : ∀ s, Relation.ReflTransGen r s (f s)) (n : Nat) (s : S) :
    Relation.ReflTransGen r s (f^[n] s) := by
  induction n generalizing s with
  | zero => exact .refl
  | succ n ih =>
    rw [Function.iterate_succ_apply]
    exact (hf s).trans (ih (f s))

/-- A step taken from a state that satisfies `ok`. -/
def Guarded (step : S → S → Prop) (ok : S → Prop) (s t : S) : Prop := step s t ∧ ok s

/-- What holds at the start and is kept by every guarded step holds along a guarded run. -/
theorem Guarded.invariant {step : S → S → Prop} {ok I : S → Prop} {s t : S}
    (keep : ∀ s t, step s t → ok s → I s → I t) (h0 : I s)
    (h : Relation.ReflTransGen (Guarded step ok) s t) : I t := by
  induction h with
  | refl => exact h0
  | tail _ hst ih => exact keep _ _ hst.1 hst.2 ih

/-- A guarded run is a run. -/
theorem Guarded.run {step : S → S → Prop} {ok : S → Prop} {s t : S}
    (h : Relation.ReflTransGen (Guarded step ok) s t) : Relation.ReflTransGen step s t := by
  induction h with
  | refl => exact .refl
  | tail _ hst ih => exact .tail ih hst.1

/-! ## Labelled runs -/

section Labelled

variable {L T : Type} {step : L → S → S → Prop} {step' : L → T → T → Prop}

/-- A run of steps with the labels `ls`. -/
inductive Run (step : L → S → S → Prop) : S → List L → S → Prop
  | nil (s : S) : Run step s [] s
  | cons {s t u : S} {l : L} {ls : List L} (hstep : step l s t) (hrest : Run step t ls u) : Run step s (l :: ls) u

/-- Runs in a row. -/
theorem Run.append {s t u : S} {ls ls' : List L} (h : Run step s ls t) (h' : Run step t ls' u) :
    Run step s (ls ++ ls') u := by
  induction h with
  | nil => exact h'
  | cons hstep _ ih => exact .cons hstep (ih h')

/-- When every guarded step has one with its label on the other side, so has every guarded run. -/
theorem Run.simulates {ok : S → Prop} {I : S → T → Prop} {s u : S} {ls : List L} {t : T}
    (sim : ∀ l s s' t, step l s s' → ok s → I s t → ∃ t', step' l t t' ∧ I s' t')
    (h : Run (fun l => Guarded (step l) ok) s ls u) (h0 : I s t) : ∃ v, Run step' t ls v ∧ I u v := by
  induction h generalizing t with
  | nil s => exact ⟨t, .nil t, h0⟩
  | cons hst _ ih =>
    obtain ⟨t', ht, hI⟩ := sim _ _ _ _ hst.1 hst.2 h0
    obtain ⟨v, hv, hIv⟩ := ih hI
    exact ⟨v, .cons ht hv, hIv⟩

/-- What holds at the start and is kept by every guarded step holds at the end of a guarded run. -/
theorem Run.invariant {ok I : S → Prop} {s t : S} {ls : List L} (keep : ∀ l s t, step l s t → ok s → I s → I t)
    (h : Run (fun l => Guarded (step l) ok) s ls t) (h0 : I s) : I t := by
  induction h with
  | nil s => exact h0
  | cons hst _ ih => exact ih (keep _ _ _ hst.1 hst.2 h0)

/-- A run is decided by its labels when the steps are. -/
theorem Run.unique (hstep : ∀ l s t t', step l s t → step l s t' → t = t') {s t t' : S} {ls : List L}
    (h : Run step s ls t) (h' : Run step s ls t') : t = t' := by
  induction h with
  | nil s => cases h'; rfl
  | cons hst _ ih =>
    cases h' with
    | cons hst' hrest' =>
      rw [← hstep _ _ _ _ hst hst'] at hrest'
      exact ih hrest'

end Labelled

end Machine
