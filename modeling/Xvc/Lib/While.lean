import Mathlib.Data.Option.Basic
import Mathlib.Order.Basic

/-!
# `while` loops

`run c f n s` is `while (c) f` from `s`, for at most `n` rounds; it ends in one state for every bound that is
large enough.

* `Ends c f s t`: the loop ends, in `t`. One equation for each outcome of the test, and `Ends.induct`.
* `Ends.invariant`: what each round keeps holds at the end, where the test fails.
* `exists_ends`: a loop whose rounds make a measure smaller ends.
* `not_ends`: a loop that stays where its test holds does not.
-/

namespace While

variable {S : Type} {c : S → Bool} {f : S → S} {s t t' : S} {I : S → Prop}

/-- `while (c) f`, for at most as many rounds as the number says. -/
def run (c : S → Bool) (f : S → S) : Nat → S → Option S
  | 0, s => if c s then none else some s
  | n + 1, s => if c s then run c f n (f s) else some s

theorem run_mono {n m : Nat} (hle : n ≤ m) (h : run c f n s = some t) : run c f m s = some t := by
  induction n generalizing s m with
  | zero =>
    rw [run] at h
    split at h
    · cases h
    · next hc => cases m <;> rw [run, if_neg hc, h]
  | succ n ih =>
    obtain ⟨k, rfl⟩ := Nat.exists_eq_add_of_le' hle
    rw [run] at h
    rw [← Nat.add_assoc, run]
    split at h
    · next hc => rw [if_pos hc, ih (Nat.le_add_left n k) h]
    · next hc => rw [if_neg hc, h]

/-- The loop from `s` ends in `t`. -/
def Ends (c : S → Bool) (f : S → S) (s t : S) : Prop := ∃ n, run c f n s = some t

theorem run_of_false (h : c s = false) (n : Nat) : run c f n s = some s := by
  cases n with
  | zero => exact if_neg (by simp [h])
  | succ n => exact if_neg (by simp [h])

theorem run_of_true (h : c s = true) (n : Nat) : run c f (n + 1) s = run c f n (f s) := if_pos h

theorem ends_of_false (h : c s = false) : Ends c f s t ↔ t = s := by
  constructor
  · rintro ⟨n, hn⟩
    rw [run_of_false h] at hn
    exact (Option.some.inj hn).symm
  · rintro rfl
    exact ⟨0, run_of_false h 0⟩

theorem ends_of_true (h : c s = true) : Ends c f s t ↔ Ends c f (f s) t := by
  constructor
  · rintro ⟨n, hn⟩
    cases n with
    | zero =>
      rw [run, if_pos h] at hn
      cases hn
    | succ n =>
      rw [run_of_true h] at hn
      exact ⟨n, hn⟩
  · rintro ⟨n, hn⟩
    exact ⟨n + 1, by rw [run_of_true h, hn]⟩

/-- The induction on the rounds of a loop that ends in `t`, from the last one back. -/
theorem Ends.induct {P : S → Prop} (h : Ends c f s t) (stop : c t = false → P t)
    (round : ∀ s, c s = true → P (f s) → P s) : P s := by
  obtain ⟨n, hn⟩ := h
  induction n generalizing s with
  | zero =>
    rw [run] at hn
    split at hn
    · cases hn
    · next hc =>
      obtain rfl := Option.some.inj hn
      exact stop (Bool.eq_false_iff.mpr hc)
  | succ n ih =>
    rw [run] at hn
    split at hn
    · next hc => exact round s hc (ih hn)
    · next hc =>
      obtain rfl := Option.some.inj hn
      exact stop (Bool.eq_false_iff.mpr hc)

/-- What every round keeps. -/
theorem Ends.invariant (h : Ends c f s t) (h0 : I s) (keep : ∀ s, I s → c s = true → I (f s)) :
    I t ∧ c t = false :=
  h.induct (P := fun s => I s → I t ∧ c t = false) (fun hc h0 => ⟨h0, hc⟩) (fun s hc ih h0 => ih (keep s h0 hc)) h0

theorem Ends.unique (h : Ends c f s t) (h' : Ends c f s t') : t = t' :=
  h.induct (P := fun s => Ends c f s t' → t = t') (fun hc h' => ((ends_of_false hc).mp h').symm)
    (fun _ hc ih h' => ih ((ends_of_true hc).mp h')) h'

/-- The measure bounds the rounds. -/
theorem exists_ends (measure : S → Nat) (h0 : I s)
    (keep : ∀ s, I s → c s = true → I (f s) ∧ measure (f s) < measure s) : ∃ t, Ends c f s t := by
  induction hm : measure s using Nat.strongRecOn generalizing s with
  | ind m ih =>
    cases hc : c s with
    | false => exact ⟨s, (ends_of_false hc).mpr rfl⟩
    | true =>
      obtain ⟨hI, hlt⟩ := keep s h0 hc
      obtain ⟨t, ht⟩ := ih (measure (f s)) (hm ▸ hlt) hI rfl
      exact ⟨t, (ends_of_true hc).mpr ht⟩

/-- The test never fails. -/
theorem not_ends (h0 : I s) (keep : ∀ s, I s → c s = true ∧ I (f s)) : ¬ Ends c f s t := by
  intro h
  obtain ⟨hI, hc⟩ := h.invariant h0 fun s hs _ => (keep s hs).2
  rw [(keep t hI).1] at hc
  cases hc

end While
