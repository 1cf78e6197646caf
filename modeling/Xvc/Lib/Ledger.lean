import Mathlib.Algebra.Ring.Int.Defs
import Mathlib.Data.List.Infix

/-!
# Ledgers of resources

What a program acquires and releases, in order.

* `balance l r`: how often `r` was acquired more than released.
* `Sound l`: a resource is only released while it is held, so at most once for each time it was acquired.
* `Exclusive l`: it is also only acquired while it is not held: acquiring and releasing alternate.
* `Sound.append`, `Sound.bracket`, `Sound.map`: ledgers behind, around and inside each other.
-/

namespace Ledger

/-- A resource is acquired or released. -/
inductive Op (R : Type) where
  | acquire (r : R)
  | release (r : R)
  deriving DecidableEq

variable {R : Type} [DecidableEq R]

def balance : List (Op R) → R → Int
  | [], _ => 0
  | .acquire r' :: l, r => balance l r + if r' = r then 1 else 0
  | .release r' :: l, r => balance l r - if r' = r then 1 else 0

def Sound (l : List (Op R)) : Prop := ∀ l' r, l' ++ [.release r] <+: l → 0 < balance l' r

def Exclusive (l : List (Op R)) : Prop := ∀ l' r, l' <+: l → 0 ≤ balance l' r ∧ balance l' r ≤ 1

@[simp] theorem balance_nil (r : R) : balance [] r = 0 := rfl

theorem balance_append (l l' : List (Op R)) (r : R) : balance (l ++ l') r = balance l r + balance l' r := by
  induction l with
  | nil => simp
  | cons o l ih => cases o <;> simp only [List.cons_append, balance, ih] <;> omega

@[simp] theorem balance_acquire (l : List (Op R)) (r r' : R) :
    balance (l ++ [.acquire r']) r = balance l r + if r' = r then 1 else 0 := by
  rw [balance_append]; simp [balance]

@[simp] theorem balance_release (l : List (Op R)) (r r' : R) :
    balance (l ++ [.release r']) r = balance l r - if r' = r then 1 else 0 := by
  rw [balance_append]; simp [balance]; omega

theorem sound_nil : Sound ([] : List (Op R)) := fun l' r h => by simp at h

variable {l : List (Op R)}

theorem Sound.acquire (h : Sound l) (r : R) : Sound (l ++ [.acquire r]) := by
  intro l' r' hp
  rcases List.prefix_concat_iff.mp hp with he | hp
  · obtain ⟨-, hop⟩ := List.append_inj' he rfl
    simp at hop
  · exact h l' r' hp

theorem Sound.release (h : Sound l) {r : R} (hr : 0 < balance l r) : Sound (l ++ [.release r]) := by
  intro l' r' hp
  rcases List.prefix_concat_iff.mp hp with he | hp
  · obtain ⟨rfl, hop⟩ := List.append_inj' he rfl
    cases hop
    exact hr
  · exact h l' r' hp

/-- Several resources are released, each as often as it is in the list. -/
theorem balance_releases (l : List (Op R)) (rs : List R) (r : R) :
    balance (l ++ rs.map .release) r = balance l r - rs.count r := by
  induction rs generalizing l with
  | nil => simp
  | cons x rs ih =>
    rw [List.map_cons, List.append_cons, ih, balance_release, List.count_cons]
    by_cases hx : x = r <;> simp [hx]
    omega

theorem Sound.releases (h : Sound l) {rs : List R} (hr : ∀ r ∈ rs, rs.count r ≤ balance l r) :
    Sound (l ++ rs.map .release) := by
  induction rs generalizing l with
  | nil => simpa using h
  | cons x rs ih =>
    have hx := hr x List.mem_cons_self
    rw [List.count_cons_self] at hx
    rw [List.map_cons, List.append_cons]
    refine ih (h.release (by omega)) fun r hmem => ?_
    have hcount := hr r (List.mem_cons_of_mem _ hmem)
    rw [List.count_cons] at hcount
    rw [balance_release]
    by_cases hxr : x = r <;> simp [hxr] at hcount ⊢ <;> omega

/-- A release of what is not held. -/
theorem not_sound_release {r : R} (hr : balance l r ≤ 0) : ¬ Sound (l ++ [.release r]) := fun h => by
  have hpos := h l r (List.prefix_rfl)
  omega

/-! ## Exclusive resources -/

theorem exclusive_nil : Exclusive ([] : List (Op R)) := by
  intro l' r h
  rw [List.prefix_nil.mp h, balance_nil]
  exact ⟨Int.le_refl 0, Int.zero_le_ofNat 1⟩

theorem Exclusive.concat (h : Exclusive l) {o : Op R}
    (ho : ∀ r, 0 ≤ balance (l ++ [o]) r ∧ balance (l ++ [o]) r ≤ 1) : Exclusive (l ++ [o]) := by
  intro l' r hp
  rcases List.prefix_concat_iff.mp hp with rfl | hp
  · exact ho r
  · exact h l' r hp

theorem Exclusive.acquire (h : Exclusive l) {r : R} (hr : balance l r = 0) : Exclusive (l ++ [.acquire r]) := by
  refine h.concat fun r' => ?_
  have hl := h l r' List.prefix_rfl
  rw [balance_acquire]
  by_cases hrr : r = r'
  · simp [← hrr, hr]
  · simpa [hrr] using hl

theorem Exclusive.release (h : Exclusive l) {r : R} (hr : balance l r = 1) : Exclusive (l ++ [.release r]) := by
  refine h.concat fun r' => ?_
  have hl := h l r' List.prefix_rfl
  rw [balance_release]
  by_cases hrr : r = r'
  · simp [← hrr, hr]
  · simpa [hrr] using hl

/-! ## Putting ledgers together -/

theorem Exclusive.sound (h : Exclusive l) : Sound l := by
  intro l' r hp
  have hpos := (h _ r hp).1
  rw [balance_release, if_pos rfl] at hpos
  omega

theorem Sound.append {l' : List (Op R)} (h : Sound l) (hl : ∀ r, 0 ≤ balance l r) (h' : Sound l') :
    Sound (l ++ l') := by
  intro k r hp
  rcases List.prefix_or_prefix_of_prefix hp (List.prefix_append l l') with hk | ⟨t, ht⟩
  · exact h k r hk
  · rw [← ht] at hp
    have ht' := (List.prefix_append_right_inj l).mp hp
    rcases List.eq_nil_or_concat t with rfl | ⟨t, o, rfl⟩
    · rw [List.append_nil] at ht
      exact h k r (by rw [ht])
    · rw [List.concat_eq_append] at ht ht'
      rw [← List.append_assoc] at ht
      obtain ⟨rfl, ho⟩ := List.append_inj' ht rfl
      rw [ho] at ht'
      have hpos := h' t r ht'
      have := hl r
      rw [balance_append]
      omega

/-- A resource that is held around `l`. -/
theorem balance_bracket (l : List (Op R)) (r r' : R) : balance (.acquire r :: l ++ [.release r]) r' = balance l r' := by
  rw [balance_release, balance]
  omega

theorem Sound.bracket (h : Sound l) (hl : ∀ r, 0 ≤ balance l r) (r : R) :
    Sound (.acquire r :: l ++ [.release r]) := by
  have hone : Sound [.acquire r] := sound_nil.acquire r
  have hpos : ∀ r', 0 ≤ balance [.acquire r] r' := fun r' => by simp only [balance]; split <;> simp
  refine (hone.append hpos h).release ?_
  have := hl r
  rw [balance_append, balance, if_pos rfl, balance_nil]
  omega

section Map

variable {S : Type} [DecidableEq S] {f : R → S}

def Op.map (f : R → S) : Op R → Op S
  | .acquire r => .acquire (f r)
  | .release r => .release (f r)

theorem balance_map (hf : ∀ r r', f r = f r' → r = r') (l : List (Op R)) (r : R) :
    balance (l.map (Op.map f)) (f r) = balance l r := by
  have hif : ∀ r', (if f r' = f r then (1 : Int) else 0) = if r' = r then 1 else 0 := fun r' => by
    by_cases hr : r' = r
    · rw [hr, if_pos rfl, if_pos rfl]
    · rw [if_neg hr, if_neg fun h => hr (hf _ _ h)]
  induction l with
  | nil => rfl
  | cons o l ih => cases o <;> simp only [List.map_cons, Op.map, balance, ih, hif]

omit [DecidableEq R] in
/-- What `f` does not reach is not touched. -/
theorem balance_map_of_ne (l : List (Op R)) {s : S} (hs : ∀ r, f r ≠ s) : balance (l.map (Op.map f)) s = 0 := by
  induction l with
  | nil => rfl
  | cons o l ih => cases o <;> simp [Op.map, balance, ih, hs]

theorem Sound.map (hf : ∀ r r', f r = f r' → r = r') (h : Sound l) : Sound (l.map (Op.map f)) := by
  rintro k s ⟨t, ht⟩
  obtain ⟨l₁, l₂, rfl, hl₁, -⟩ := List.map_eq_append_iff.mp ht.symm
  obtain ⟨l₁, l₃, rfl, rfl, hl₃⟩ := List.map_eq_append_iff.mp hl₁
  obtain ⟨o, rfl, ho⟩ := List.map_eq_singleton_iff.mp hl₃
  cases o with
  | acquire r => cases ho
  | release r =>
    cases ho
    rw [balance_map hf]
    exact h l₁ r (List.prefix_append _ _)

end Map

end Ledger
