import Mathlib.Data.List.Infix

/-!
# Streams of messages

Messages with an encoding `enc : M → List α` are sent one after the other, and arrive in pieces that
need not respect their bounds.

* `Proper q l`: `q` is a prefix of `l`, but not all of it. `Proper.append_cases` follows it into an
  appended list.
* `Rest enc q ms`: `q` is what has arrived of the messages `ms` when none of them is complete.
* `Batched`: the chunks that arrive complete the messages batch by batch (`Rest.batched`).
* `split`: whatever has arrived of a stream is some whole messages and such a rest.
-/

namespace Stream

variable {α M : Type}

/-- `q` is a prefix of `l`, but not all of it. -/
def Proper (q l : List α) : Prop := q <+: l ∧ q ≠ l

variable {q l a b : List α}

theorem Proper.length_lt (h : Proper q l) : q.length < l.length := by
  obtain ⟨⟨r, rfl⟩, hne⟩ := h
  have : r ≠ [] := fun hr => hne (by simp [hr])
  have := List.length_pos_iff.mpr this
  simp only [List.length_append]
  omega

theorem not_proper_nil : ¬ Proper q ([] : List α) := fun h => h.2 (List.prefix_nil.mp h.1)

theorem proper_nil (h : l ≠ []) : Proper [] l := ⟨List.nil_prefix, h.symm⟩

/-- A proper prefix of an appended list ends in the first part, or behind it. -/
theorem Proper.append_cases (h : Proper q (a ++ b)) :
    Proper q a ∨ ∃ q', q = a ++ q' ∧ Proper q' b := by
  rcases List.prefix_or_prefix_of_prefix h.1 (List.prefix_append a b) with hq | ⟨q', rfl⟩
  · by_cases he : q = a
    · subst he
      refine .inr ⟨[], by simp, proper_nil fun hb => h.2 (by simp [hb])⟩
    · exact .inl ⟨hq, he⟩
  · exact .inr ⟨q', rfl, (List.prefix_append_right_inj a).mp h.1, fun hb => h.2 (by rw [hb])⟩

variable {enc : M → List α} {ms : List M}

/-- What has arrived of `ms` when none of these messages is complete. -/
inductive Rest (enc : M → List α) : List α → List M → Prop
  | done : Rest enc [] []
  | next {q : List α} {m : M} (ms : List M) (h : Proper q (enc m)) : Rest enc q (m :: ms)

/-- What has arrived of a stream is whole messages and a rest. -/
theorem split (henc : ∀ m ∈ ms, enc m ≠ []) (h : b <+: ms.flatMap enc) :
    ∃ ms₁ ms₂ q, ms = ms₁ ++ ms₂ ∧ b = ms₁.flatMap enc ++ q ∧ Rest enc q ms₂ := by
  induction ms generalizing b with
  | nil => exact ⟨[], [], [], rfl, by simpa using h, .done⟩
  | cons m ms ih =>
    by_cases hall : b = (m :: ms).flatMap enc
    · exact ⟨m :: ms, [], [], by simp, by simpa using hall, .done⟩
    rw [List.flatMap_cons] at h hall
    rcases Proper.append_cases ⟨h, hall⟩ with hq | ⟨q', rfl, hq'⟩
    · exact ⟨[], m :: ms, b, rfl, by simp, .next ms hq⟩
    · obtain ⟨ms₁, ms₂, q, rfl, rfl, hr⟩ := ih (fun x hx => henc x (by simp [hx])) hq'.1
      exact ⟨m :: ms₁, ms₂, q, rfl, by simp, hr⟩

/-- What has arrived is a rest of `ms` or of another message that satisfies `ok`. -/
def Tail (enc : M → List α) (ok : M → Prop) (q : List α) : Prop := q = [] ∨ ∃ m, ok m ∧ Proper q (enc m)

theorem Rest.tail {ok : M → Prop} (h : Rest enc q ms) (hok : ∀ m ∈ ms, ok m) : Tail enc ok q := by
  cases h with
  | done => exact .inl rfl
  | next ms hp => exact .inr ⟨_, hok _ (by simp), hp⟩

/-- With `q` there already, each chunk completes the messages of one batch and leaves a rest, the
last one `q'`. -/
inductive Batched (enc : M → List α) (ok : M → Prop) :
    List α → List (List α) → List (List M) → List α → Prop
  | nil (q : List α) : Batched enc ok q [] [] q
  | cons {q q₁ q₂ chunk : List α} {chunks : List (List α)} {ms : List M} {mss : List (List M)}
      (h : q ++ chunk = ms.flatMap enc ++ q₁) (htail : Tail enc ok q₁)
      (hrest : Batched enc ok q₁ chunks mss q₂) : Batched enc ok q (chunk :: chunks) (ms :: mss) q₂

theorem Tail.mono {ok ok' : M → Prop} (hok : ∀ m, ok m → ok' m) (h : Tail enc ok q) : Tail enc ok' q :=
  h.imp id fun ⟨m, hm, hp⟩ => ⟨m, hok m hm, hp⟩

theorem Batched.mono {ok ok' : M → Prop} {q' : List α} {chunks : List (List α)} {mss : List (List M)}
    (hok : ∀ m, ok m → ok' m) (h : Batched enc ok q chunks mss q') : Batched enc ok' q chunks mss q' := by
  induction h with
  | nil q => exact .nil q
  | cons hchunk htail _ ih => exact .cons hchunk (htail.mono hok) ih

/-- However a stream is cut into chunks, they complete its messages in batches. -/
theorem Rest.batched {ok : M → Prop} {chunks : List (List α)} (henc : ∀ m ∈ ms, enc m ≠ [])
    (hok : ∀ m ∈ ms, ok m) (hq : Rest enc q ms) (h : q ++ chunks.flatten <+: ms.flatMap enc) :
    ∃ mss rest q', ms = mss.flatten ++ rest ∧ Batched enc ok q chunks mss q' ∧ Rest enc q' rest ∧
      q ++ chunks.flatten = mss.flatten.flatMap enc ++ q' := by
  induction chunks generalizing q ms with
  | nil => exact ⟨[], ms, q, by simp, .nil q, hq, by simp⟩
  | cons chunk chunks ih =>
    rw [List.flatten_cons, ← List.append_assoc] at h
    obtain ⟨ms₁, ms₂, q₁, rfl, hsplit, hq₁⟩ := split henc ((List.prefix_append _ _).trans h)
    have henc₂ : ∀ m ∈ ms₂, enc m ≠ [] := fun m hm => henc m (by simp [hm])
    have hok₂ : ∀ m ∈ ms₂, ok m := fun m hm => hok m (by simp [hm])
    have hcont : q₁ ++ chunks.flatten <+: ms₂.flatMap enc := by
      rw [hsplit, List.flatMap_append, List.append_assoc] at h
      exact (List.prefix_append_right_inj _).mp h
    obtain ⟨mss, rest, q', rfl, hb, hr, heq⟩ := ih henc₂ hok₂ hq₁ hcont
    refine ⟨ms₁ :: mss, rest, q', by simp, .cons hsplit (hq₁.tail hok₂) hb, hr, ?_⟩
    rw [List.flatten_cons, ← List.append_assoc, hsplit, List.append_assoc, heq]
    simp

/-- A stream that has arrived whole is all its messages. -/
theorem Rest.whole {ms₁ ms₂ : List M} (hq : Rest enc q ms₂)
    (h : ms₁.flatMap enc ++ q = (ms₁ ++ ms₂).flatMap enc) : ms₂ = [] ∧ q = [] := by
  rw [List.flatMap_append] at h
  have h := List.append_cancel_left h
  cases hq with
  | done => exact ⟨rfl, rfl⟩
  | next ms hp =>
    have h1 := hp.length_lt
    have h2 := congrArg List.length h
    simp only [List.flatMap_cons, List.length_append] at h2
    omega

end Stream
