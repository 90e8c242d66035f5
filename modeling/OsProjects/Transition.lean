import Mathlib.Data.List.Basic

/-! # Runs of a labelled transition function

A transition function `step : σ → α → Option σ` gives the successor of a state under a
label, or `none` where the label is not enabled.  `Reach step ok s₀ s` says that `s` is
reached from `s₀` by a run each of whose steps is taken in a state and under a label that
meet `ok`; with `ok` always true these are all runs.

* `Reach.invariant` — a predicate that holds initially and is kept by every step that meets
  `ok` holds in every state reached.
* `Reach.map` — a refinement mapping, which sends every step to a run of another system, sends
  runs to runs.
* `exec` runs a given list of labels; `reach_of_exec` turns such a run into `Reach`, and
  `exec_simulation` carries it over to a machine that matches every step.
* `Along` — every step of a list of labels meets a condition; if not, `Reach.split_of_not_along`
  gives the step that breaks it. -/

namespace OsProjects.Transition

variable {σ τ α β : Type*}

/-- `Reach step ok s₀ s`: a run from `s₀` to `s` all of whose steps meet `ok`. -/
inductive Reach (step : σ → α → Option σ) (ok : σ → α → Prop) (s₀ : σ) : σ → Prop
  | refl : Reach step ok s₀ s₀
  | step {s s' : σ} {a : α} :
      Reach step ok s₀ s → ok s a → step s a = some s' → Reach step ok s₀ s'

/-- The step condition that every step meets. -/
def Any (_ : σ) (_ : α) : Prop := True

/-- `I` is kept by every step that meets `ok`. -/
def Preserved (step : σ → α → Option σ) (ok : σ → α → Prop) (I : σ → Prop) : Prop :=
  ∀ s a s', I s → ok s a → step s a = some s' → I s'

variable {step : σ → α → Option σ} {ok ok' : σ → α → Prop} {s₀ s s' s'' : σ}

/-- **Invariant rule.** -/
theorem Reach.invariant {I : σ → Prop} (h : Reach step ok s₀ s) (h₀ : I s₀)
    (hI : Preserved step ok I) : I s := by
  induction h with
  | refl => exact h₀
  | step _ ha hs ih => exact hI _ _ _ ih ha hs

theorem Reach.imp (h : Reach step ok s₀ s)
    (hok : ∀ s a, Reach step ok s₀ s → ok s a → ok' s a) : Reach step ok' s₀ s := by
  induction h with
  | refl => exact .refl
  | step hr ha hs ih => exact ih.step (hok _ _ hr ha) hs

theorem Reach.strengthen (h : Reach step ok s₀ s) (hok : ∀ s a, Reach step ok s₀ s → ok' s a) :
    Reach step ok' s₀ s :=
  h.imp fun s a hr _ => hok s a hr

theorem Reach.trans (h : Reach step ok s₀ s) (h' : Reach step ok s s') : Reach step ok s₀ s' := by
  induction h' with
  | refl => exact h
  | step _ ha hs ih => exact ih.step ha hs

theorem Reach.single {a : α} (ha : ok s a) (hs : step s a = some s') : Reach step ok s s' :=
  Reach.refl.step ha hs

/-- A predicate kept by the steps that meet `ok` in states that satisfy another invariant `J`. -/
theorem Reach.invariant_of {I J : σ → Prop} (h : Reach step ok s₀ s)
    (hJ : ∀ s, Reach step ok s₀ s → J s) (h₀ : I s₀)
    (hI : ∀ s a s', J s → I s → ok s a → step s a = some s' → I s') : I s := by
  induction h with
  | refl => exact h₀
  | step hr ha hs ih => exact hI _ _ _ (hJ _ hr) ih ha hs

/-- **Refinement mapping**: if `f` sends every step to a run of `step'`, it sends runs to runs. -/
theorem Reach.map {step' : τ → β → Option τ} {ok₂ : τ → β → Prop} (f : σ → τ)
    (h : Reach step ok s₀ s)
    (hf : ∀ s a s', Reach step ok s₀ s → ok s a → step s a = some s' →
      Reach step' ok₂ (f s) (f s')) :
    Reach step' ok₂ (f s₀) (f s) := by
  induction h with
  | refl => exact .refl
  | step hr ha hs ih => exact ih.trans (hf _ _ _ hr ha hs)

/-! ### Executing a list of labels -/

/-- Take the steps of a list of labels in order. -/
def exec (step : σ → α → Option σ) : σ → List α → Option σ
  | s, [] => some s
  | s, a :: as => (step s a).bind fun s' => exec step s' as

theorem reach_of_exec (as : List α) (h : exec step s as = some s') : Reach step Any s s' := by
  induction as generalizing s with
  | nil =>
      obtain rfl := Option.some.inj h
      exact .refl
  | cons a as ih =>
      obtain ⟨s₁, hs, h'⟩ := Option.bind_eq_some_iff.mp h
      exact (Reach.single trivial hs).trans (ih h')

theorem exec_of_isSome (as : List α) (h : (exec step s as).isSome = true) :
    exec step s as = some ((exec step s as).getD s) := by
  obtain ⟨s', hs'⟩ := Option.isSome_iff_exists.mp h
  rw [hs', Option.getD_some]

theorem reach_of_isSome (as : List α) (h : (exec step s as).isSome = true) :
    Reach step Any s ((exec step s as).getD s) :=
  reach_of_exec as (exec_of_isSome as h)

/-- **Simulation**: if every step is matched by one of `step'` under the same label, so is every
list of labels. -/
theorem exec_simulation {step' : τ → α → Option τ} {R : σ → τ → Prop} {t : τ}
    (hR : ∀ s t a s', R s t → step s a = some s' → ∃ t', step' t a = some t' ∧ R s' t')
    (as : List α) (h : exec step s as = some s') (hst : R s t) :
    ∃ t', exec step' t as = some t' ∧ R s' t' := by
  induction as generalizing s t with
  | nil =>
      obtain rfl := Option.some.inj h
      exact ⟨t, rfl, hst⟩
  | cons a as ih =>
      obtain ⟨s₁, hs, h'⟩ := Option.bind_eq_some_iff.mp h
      obtain ⟨t₁, ht, hst₁⟩ := hR s t a s₁ hst hs
      obtain ⟨t', ht', hst'⟩ := ih h' hst₁
      exact ⟨t', Option.bind_eq_some_iff.mpr ⟨t₁, ht, ht'⟩, hst'⟩

/-- `exec` that also checks a decidable step condition. -/
def execOk (step : σ → α → Option σ) (ok : σ → α → Prop) [∀ s a, Decidable (ok s a)] :
    σ → List α → Option σ :=
  exec fun s a => if ok s a then step s a else none

theorem reach_of_execOk [∀ s a, Decidable (ok s a)] (as : List α)
    (h : execOk step ok s as = some s') : Reach step ok s s' := by
  induction as generalizing s with
  | nil =>
      obtain rfl := Option.some.inj h
      exact .refl
  | cons a as ih =>
      obtain ⟨s₁, hs, h'⟩ := Option.bind_eq_some_iff.mp h
      obtain ⟨ha, hs⟩ := Option.ite_none_right_eq_some.mp hs
      exact (Reach.single ha hs).trans (ih h')

theorem reach_of_isSome_execOk [∀ s a, Decidable (ok s a)] (as : List α)
    (h : (execOk step ok s as).isSome = true) : Reach step ok s ((execOk step ok s as).getD s) :=
  reach_of_execOk as (exec_of_isSome as h)

/-! ### Conditions along a list of labels -/

/-- Every step that the list of labels takes from `s` meets `ok`. -/
def Along (step : σ → α → Option σ) (ok : σ → α → Prop) : σ → List α → Prop
  | _, [] => True
  | s, a :: as => ok s a ∧ ∀ s' ∈ step s a, Along step ok s' as

theorem reach_of_along (as : List α) (h : exec step s as = some s') (hok : Along step ok s as) :
    Reach step ok s s' := by
  induction as generalizing s with
  | nil =>
      obtain rfl := Option.some.inj h
      exact .refl
  | cons a as ih =>
      obtain ⟨s₁, hs, h'⟩ := Option.bind_eq_some_iff.mp h
      exact (Reach.single hok.1 hs).trans (ih h' (hok.2 s₁ hs))

/-- A run that does not meet the condition has a step that breaks it. -/
theorem Reach.split_of_not_along (as : List α) (hr : Reach step Any s₀ s)
    (h : exec step s as = some s') (hok : ¬Along step ok s as) :
    ∃ t a t', Reach step Any s₀ t ∧ ¬ok t a ∧ step t a = some t' ∧ Reach step Any t' s' := by
  induction as generalizing s with
  | nil => exact absurd trivial hok
  | cons a as ih =>
      obtain ⟨s₁, hs, h'⟩ := Option.bind_eq_some_iff.mp h
      by_cases ha : ok s a
      · refine ih (hr.step trivial hs) h' fun halong => hok ⟨ha, fun s₂ hs₂ => ?_⟩
        obtain rfl := Option.some.inj (hs.symm.trans hs₂)
        exact halong
      · exact ⟨s, a, s₁, hr, ha, hs, reach_of_exec as h'⟩

end OsProjects.Transition
