import Mathlib.Data.Nat.ModEq
import Mathlib.Logic.Function.Iterate

/-!
# Rings

Items are numbered from 0 and go round a ring of `n` entries: item `k` is in entry `k % n`. At any time the ring
holds the items from `lo` up to `hi`, at most `n` of them.

* `mod_inj`: two of them are in different entries.
* `Holds`: the entries that they are in; `holds_pop` and `holds_push` follow it when the first item leaves and
  when another comes.
* `OneCycle`: a function that goes from each entry to the next, and from the last to the first.
* `prefix_snoc`: a beginning of the items, and the next one.
-/

namespace Ring

variable {n lo hi i j k : Nat}

theorem mod_inj (h : j % n = k % n) (hle : j ≤ k) (hlt : k < j + n) : j = k := by
  have hzero : (k - j) % n = 0 := Nat.sub_mod_eq_zero_of_mod_eq h.symm
  rw [Nat.mod_eq_of_lt (by omega)] at hzero
  omega

/-- The entry behind that of item `k`. -/
theorem succ_mod (hn : 0 < n) (k : Nat) : (k + 1) % n = if k % n + 1 < n then k % n + 1 else 0 := by
  have hlt := Nat.mod_lt k hn
  rw [← Nat.mod_add_mod]
  split
  · next h => exact Nat.mod_eq_of_lt h
  · rw [show k % n + 1 = n by omega, Nat.mod_self]

/-- Entry `i` holds an item. -/
def Holds (n lo hi i : Nat) : Prop := ∃ k, lo ≤ k ∧ k < hi ∧ k % n = i

theorem Holds.mono (h : Holds n lo hi i) {lo' hi' : Nat} (hlo : lo' ≤ lo) (hhi : hi ≤ hi') : Holds n lo' hi' i := by
  obtain ⟨k, h1, h2, h3⟩ := h
  exact ⟨k, by omega, by omega, h3⟩

theorem holds_of_mem (h1 : lo ≤ k) (h2 : k < hi) : Holds n lo hi (k % n) := ⟨k, h1, h2, rfl⟩

/-- The entry for the next item is free, unless the ring is full. -/
theorem not_holds_next (hroom : hi < lo + n) : ¬ Holds n lo hi (hi % n) := by
  rintro ⟨k, h1, h2, h3⟩
  have := mod_inj h3 (by omega) (by omega)
  omega

/-- The ring is full when that entry is not free. -/
theorem lt_of_not_holds_next (hfull : hi ≤ lo + n) (hn : 0 < n) (h : ¬ Holds n lo hi (hi % n)) :
    hi < lo + n := by
  rcases Nat.lt_or_eq_of_le hfull with hlt | heq
  · exact hlt
  · refine absurd ⟨lo, Nat.le_refl lo, by omega, ?_⟩ h
    rw [heq, Nat.add_mod_right]

/-- The first item leaves. -/
theorem holds_pop (hfull : hi ≤ lo + n) : Holds n (lo + 1) hi i ↔ Holds n lo hi i ∧ i ≠ lo % n := by
  constructor
  · rintro ⟨k, h1, h2, rfl⟩
    refine ⟨⟨k, by omega, h2, rfl⟩, fun heq => ?_⟩
    have := mod_inj heq.symm (by omega) (by omega)
    omega
  · rintro ⟨⟨k, h1, h2, rfl⟩, hne⟩
    have hk : k ≠ lo := fun heq => hne (by rw [heq])
    exact ⟨k, by omega, h2, rfl⟩

/-- Another item comes. -/
theorem holds_push (hle : lo ≤ hi) : Holds n lo (hi + 1) i ↔ Holds n lo hi i ∨ i = hi % n := by
  constructor
  · rintro ⟨k, h1, h2, rfl⟩
    rcases Nat.lt_or_eq_of_le (Nat.le_of_lt_succ h2) with hlt | rfl
    · exact .inl ⟨k, h1, hlt, rfl⟩
    · exact .inr rfl
  · rintro (h | rfl)
    · exact h.mono (Nat.le_refl lo) (Nat.le_succ hi)
    · exact ⟨hi, hle, Nat.lt_succ_self hi, rfl⟩

/-! Entries that are linked. -/

section Linked

variable {β : Type} {f : β → β} {e : Nat → β}

/-- From `e 0`, `f` goes through all of `e 0` to `e (n - 1)`, which differ, and then is back. -/
structure OneCycle (f : β → β) (e : Nat → β) (n : Nat) : Prop where
  visits : ∀ i, i < n → f^[i] (e 0) = e i
  closes : f^[n] (e 0) = e 0
  distinct : ∀ i j, i < n → j < n → e i = e j → i = j

theorem iterate_linked (hn : 0 < n) (hf : ∀ i, i < n → f (e i) = e ((i + 1) % n)) (k : Nat) :
    f^[k] (e 0) = e (k % n) := by
  induction k with
  | zero => rw [Nat.zero_mod, Function.iterate_zero_apply]
  | succ k ih => rw [Function.iterate_succ_apply', ih, hf _ (Nat.mod_lt k hn), Nat.mod_add_mod]

theorem oneCycle_of_linked (hn : 0 < n) (hf : ∀ i, i < n → f (e i) = e ((i + 1) % n))
    (he : ∀ i j, i < n → j < n → e i = e j → i = j) : OneCycle f e n where
  visits i hi := by rw [iterate_linked hn hf, Nat.mod_eq_of_lt hi]
  closes := by rw [iterate_linked hn hf, Nat.mod_self]
  distinct := he

end Linked

/-! Lists of items. -/

variable {α : Type} {l m : List α} {a : α}

theorem prefix_snoc (h : l <+: m) (ha : m[l.length]? = some a) : l ++ [a] <+: m := by
  obtain ⟨t, rfl⟩ := h
  rw [List.getElem?_append_right (Nat.le_refl _), Nat.sub_self] at ha
  cases t with
  | nil => cases ha
  | cons x t =>
    obtain rfl : x = a := by simpa using ha
    exact ⟨t, by rw [List.append_assoc, List.singleton_append]⟩

theorem prefix_getElem? (h : l <+: m) (ha : l[k]? = some a) : m[k]? = some a := by
  obtain ⟨t, rfl⟩ := h
  exact (List.getElem?_append_left (List.getElem?_eq_some_iff.mp ha).1).trans ha

end Ring
