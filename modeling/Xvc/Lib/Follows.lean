import Xvc.Lib.Program

/-!
# Programs that follow each other

The same program over two states, one of which shows a part of the other. What is known of the one holds of the other,
when its environment can be followed.

* `Program.Follows R ok A P p q`: `p` and `q` make the same calls, all of them `ok`, and come to the same results, which
  are in `P`, as long as their states are related by `R` and the answers by `A`.
* `Follows.always`: a rule of `q` holds of `p`, through `R`.
-/

namespace Program

variable {σ τ κ : Type} {ρ ρ' : κ → Type} {α β : Type}

/-- `p` does on `σ` what `q` does on `τ`. -/
inductive Follows (R : σ → τ → Prop) (ok : κ → Prop) (A : (c : κ) → ρ c → ρ' c → Prop) (P : α → Prop) :
    Program σ κ ρ α → Program τ κ ρ' α → Prop
  | done {a : α} (h : P a) : Follows R ok A P (.done a) (.done a)
  | get {k : σ → Program σ κ ρ α} {k' : τ → Program τ κ ρ' α} (h : ∀ s t, R s t → Follows R ok A P (k s) (k' t)) :
      Follows R ok A P (.get k) (.get k')
  | set {f : σ → σ} {g : τ → τ} {k : Program σ κ ρ α} {k' : Program τ κ ρ' α} (hset : ∀ s t, R s t → R (f s) (g t))
      (h : Follows R ok A P k k') : Follows R ok A P (.set f k) (.set g k')
  | call {c : κ} {k : ρ c → Program σ κ ρ α} {k' : ρ' c → Program τ κ ρ' α} (hc : ok c)
      (h : ∀ r r', A c r r' → Follows R ok A P (k r) (k' r')) : Follows R ok A P (.call c k) (.call c k')

variable {R : σ → τ → Prop} {ok : κ → Prop} {A : (c : κ) → ρ c → ρ' c → Prop} {P : α → Prop} {P' : β → Prop}

theorem follows_pure {a : α} (h : P a) : (pure a : Program σ κ ρ α).Follows R ok A P (pure a : Program τ κ ρ' α) :=
  .done h

theorem follows_pure_of_eq {a b : α} (heq : a = b) (h : P b) :
    (pure a : Program σ κ ρ α).Follows R ok A P (pure b : Program τ κ ρ' α) := by
  subst heq
  exact .done h

theorem Follows.bind {p : Program σ κ ρ α} {q : Program τ κ ρ' α} {f : α → Program σ κ ρ β} {g : α → Program τ κ ρ' β}
    (h : p.Follows R ok A P q) (hf : ∀ a, P a → (f a).Follows R ok A P' (g a)) :
    (p >>= f).Follows R ok A P' (q >>= g) := by
  induction h with
  | done h => exact hf _ h
  | get _ ih => exact .get ih
  | set hset _ ih => exact .set hset ih
  | call hc _ ih => exact .call hc ih

theorem follows_read_bind {f : σ → Program σ κ ρ α} {g : τ → Program τ κ ρ' α}
    (h : ∀ s t, R s t → (f s).Follows R ok A P (g t)) : (read >>= f).Follows R ok A P (read >>= g) := .get h

theorem follows_modify {f : σ → σ} {g : τ → τ} (h : ∀ s t, R s t → R (f s) (g t)) :
    (modify f : Program σ κ ρ Unit).Follows R ok A (fun _ => True) (modify g : Program τ κ ρ' Unit) :=
    .set h (.done trivial)

theorem follows_ask {c : κ} (hc : ok c) {f : ρ c → α} {g : ρ' c → α} (h : ∀ r r', A c r r' → f r = g r' ∧ P (g r')) :
    (ask c >>= fun r => pure (f r)).Follows R ok A P (ask c >>= fun r' => pure (g r')) :=
  .call hc fun r r' hr => follows_pure_of_eq (h r r' hr).1 (h r r' hr).2

/-- The environment of `p` can be followed by that of `q`, where `I` holds. -/
def CanFollow (w : World σ κ ρ) (w' : World τ κ ρ') (R : σ → τ → Prop) (ok : κ → Prop) (A : (c : κ) → ρ c → ρ' c → Prop)
    (I : τ → Prop) : Prop :=
  ∀ c r s t, ok c → R s t → I t → w.answers c r s → ∃ r', w'.answers c r' t ∧ A c r r' ∧
    R (w.effect c r s) (w'.effect c r' t)

/-- **A rule carries over.** -/
theorem Follows.always {w : World σ κ ρ} {w' : World τ κ ρ'} {I : τ → Prop} (hw : CanFollow w w' R ok A I)
    {p : Program σ κ ρ α} {q : Program τ κ ρ' α} (h : p.Follows R ok A P q) {Q : α → τ → Prop} {s : σ} {t : τ}
    (hR : R s t)
    (hI : I t) (hq : q.Always w' I Q t) :
    p.Always w (fun s => ∃ t, R s t ∧ I t) (fun a s => ∃ t, R s t ∧ Q a t) s := by
  induction h generalizing s t with
  | done _ => exact ⟨t, hR, hq⟩
  | get _ ih => exact ih s t hR hR hI hq
  | set hset _ ih => exact ⟨⟨_, hset s t hR, hq.1⟩, ih (hset s t hR) hq.1 hq.2⟩
  | call hc _ ih =>
    intro r hr
    obtain ⟨r', hr', hA, hR'⟩ := hw _ r s t hc hR hI hr
    obtain ⟨hI', hq'⟩ := hq r' hr'
    exact ⟨⟨_, hR', hI'⟩, ih r r' hA hR' hI' hq'⟩

end Program
