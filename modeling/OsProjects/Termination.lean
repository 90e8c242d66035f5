import OsProjects.Transition
import Mathlib.Algebra.Order.BigOperators.Group.Finset
import Mathlib.Algebra.Order.Ring.Nat

/-! # Runs that end

A measure that every step lowers bounds the length of the runs, and a run that cannot be continued
is reached from every state.

* `Lowers` — every step of a run from `s₀` that meets `ok` makes the measure smaller.
* `Stuck` — no step that meets `ok` can be taken.
* `Lowers.length_le`, `Lowers.exists_stuck` — the bound, and the run to a stuck state.
* `Spends` — every step makes the measure smaller by exactly one; then all runs that end in a
  state with nothing left have the same length (`Spends.length_eq`).
* `Pays` — where steps bring new work, what the state has been credited with bounds the runs
  (`Pays.length_le`); steps that bring none lower the measure (`Pays.lowers`). -/

namespace OsProjects.Transition

variable {σ α : Type*} {step : σ → α → Option σ} {ok : σ → α → Prop} {μ : σ → ℕ} {s₀ s s' : σ}

/-- No step that meets `ok` is enabled. -/
def Stuck (step : σ → α → Option σ) (ok : σ → α → Prop) (s : σ) : Prop :=
  ∀ a, ok s a → step s a = none

/-- Every step of the runs from `s₀` makes `μ` smaller. -/
def Lowers (step : σ → α → Option σ) (ok : σ → α → Prop) (s₀ : σ) (μ : σ → ℕ) : Prop :=
  ∀ s a s', Reach step ok s₀ s → ok s a → step s a = some s' → μ s' < μ s

/-- Every step of the runs from `s₀` makes `μ` smaller by one. -/
def Spends (step : σ → α → Option σ) (ok : σ → α → Prop) (s₀ : σ) (μ : σ → ℕ) : Prop :=
  ∀ s a s', Reach step ok s₀ s → ok s a → step s a = some s' → μ s = μ s' + 1

theorem Spends.lowers (h : Spends step ok s₀ μ) : Lowers step ok s₀ μ := by
  intro s a s' hr ha hs
  rw [h s a s' hr ha hs]
  exact Nat.lt_succ_self _

theorem along_any (s : σ) (as : List α) : Along step Any s as := by
  induction as generalizing s with
  | nil => trivial
  | cons a as ih => exact ⟨trivial, fun s' _ => ih s'⟩

theorem Along.imp {ok' : σ → α → Prop} {as : List α} (h : Along step ok s as)
    (hok : ∀ s a, ok s a → ok' s a) : Along step ok' s as := by
  induction as generalizing s with
  | nil => trivial
  | cons a as ih => exact ⟨hok s a h.1, fun s' hs => ih (h.2 s' hs)⟩

theorem forall_of_along {P : α → Prop} (as : List α) (h : exec step s as = some s')
    (hok : Along step (fun _ a => P a) s as) : ∀ a ∈ as, P a := by
  induction as generalizing s with
  | nil => exact List.forall_mem_nil _
  | cons a as ih =>
      obtain ⟨s₁, hs, h'⟩ := Option.bind_eq_some_iff.mp h
      exact List.forall_mem_cons.mpr ⟨hok.1, ih h' (hok.2 s₁ hs)⟩

theorem along_of_execOk [∀ s a, Decidable (ok s a)] (as : List α)
    (h : (execOk step ok s as).isSome = true) : Along step ok s as := by
  induction as generalizing s with
  | nil => trivial
  | cons a as ih =>
      obtain ⟨t, ht⟩ := Option.isSome_iff_exists.mp h
      obtain ⟨s₁, hs, h'⟩ := Option.bind_eq_some_iff.mp ht
      obtain ⟨ha, hs⟩ := Option.ite_none_right_eq_some.mp hs
      refine ⟨ha, fun s₂ hs₂ => ?_⟩
      obtain rfl := Option.some.inj (hs.symm.trans hs₂)
      exact ih (Option.isSome_iff_exists.mpr ⟨t, h'⟩)

/-- **Bounded runs**: the measure pays for every step. -/
theorem Lowers.length_le (hμ : Lowers step ok s₀ μ) (hr : Reach step ok s₀ s) (as : List α)
    (h : exec step s as = some s') (hok : Along step ok s as) : as.length + μ s' ≤ μ s := by
  induction as generalizing s with
  | nil =>
      obtain rfl := Option.some.inj h
      exact Nat.le_of_eq (Nat.zero_add _)
  | cons a as ih =>
      obtain ⟨s₁, hs, h'⟩ := Option.bind_eq_some_iff.mp h
      have hlt := hμ s a s₁ hr hok.1 hs
      have hle := ih (hr.step hok.1 hs) h' (hok.2 s₁ hs)
      rw [List.length_cons]
      omega

/-- Where every step costs one, the measure counts the steps. -/
theorem Spends.length_eq (hμ : Spends step ok s₀ μ) (hr : Reach step ok s₀ s) (as : List α)
    (h : exec step s as = some s') (hok : Along step ok s as) : as.length + μ s' = μ s := by
  induction as generalizing s with
  | nil =>
      obtain rfl := Option.some.inj h
      exact Nat.zero_add _
  | cons a as ih =>
      obtain ⟨s₁, hs, h'⟩ := Option.bind_eq_some_iff.mp h
      have hone := hμ s a s₁ hr hok.1 hs
      have heq := ih (hr.step hok.1 hs) h' (hok.2 s₁ hs)
      rw [List.length_cons]
      omega

/-- **Every run can be completed**: by strong induction on the measure. -/
theorem Lowers.exists_stuck (hμ : Lowers step ok s₀ μ) (hr : Reach step ok s₀ s) :
    ∃ as s', exec step s as = some s' ∧ Along step ok s as ∧ Stuck step ok s' := by
  induction hn : μ s using Nat.strongRecOn generalizing s with
  | ind n ih =>
      by_cases hstuck : Stuck step ok s
      · exact ⟨[], s, rfl, trivial, hstuck⟩
      · unfold Stuck at hstuck
        push Not at hstuck
        obtain ⟨a, ha, hne⟩ := hstuck
        obtain ⟨s₁, hs⟩ := Option.ne_none_iff_exists'.mp hne
        have hlt := hμ s a s₁ hr ha hs
        obtain ⟨as, s', h, hok, hstuck⟩ := ih (μ s₁) (hn ▸ hlt) (hr.step ha hs) rfl
        refine ⟨a :: as, s', Option.bind_eq_some_iff.mpr ⟨s₁, hs, h⟩, ⟨ha, ?_⟩, hstuck⟩
        intro s₂ hs₂
        obtain rfl := Option.some.inj (hs.symm.trans hs₂)
        exact hok

/-! ### Runs that bring new work -/

section pays
variable {ok' : σ → α → Prop} {s₁ : σ} {γ : σ → ℕ} {p : α → ℕ}

/-- Every step of the runs from `s₀` is paid for: out of the measure `μ`, by a credit that the state
records in `γ`, or by the credit `p` of its label. -/
def Pays (step : σ → α → Option σ) (ok : σ → α → Prop) (s₀ : σ) (μ γ : σ → ℕ) (p : α → ℕ) : Prop :=
  ∀ s a s', Reach step ok s₀ s → ok s a → step s a = some s' → μ s' + γ s + 1 ≤ μ s + γ s' + p a

/-- **Amortised runs**: the credits pay for the run and for what is left. -/
theorem Pays.length_le (hμ : Pays step ok s₀ μ γ p) (hr : Reach step ok s₀ s) (as : List α)
    (h : exec step s as = some s') (hok : Along step ok s as) :
    as.length + μ s' + γ s ≤ μ s + γ s' + (as.map p).sum := by
  induction as generalizing s with
  | nil =>
      obtain rfl := Option.some.inj h
      rw [List.length_nil, Nat.zero_add]
      exact Nat.le_refl _
  | cons a as ih =>
      obtain ⟨s₁, hs, h'⟩ := Option.bind_eq_some_iff.mp h
      have hpay := hμ s a s₁ hr hok.1 hs
      have hle := ih (hr.step hok.1 hs) h' (hok.2 s₁ hs)
      rw [List.length_cons, List.map_cons, List.sum_cons]
      omega

/-- Steps without credit lower the measure. -/
theorem Pays.lowers (hμ : Pays step ok s₀ μ γ p) (hr : Reach step ok s₀ s₁)
    (himp : ∀ s a, ok' s a → ok s a ∧ p a = 0)
    (hγ : ∀ s a s', ok' s a → step s a = some s' → γ s' = γ s) : Lowers step ok' s₁ μ := by
  intro s a s' hs ha hstep
  have hreach : Reach step ok s₀ s := hr.trans (hs.imp fun t b _ hb => (himp t b hb).1)
  have hpay := hμ s a s' hreach (himp s a ha).1 hstep
  rw [hγ s a s' ha hstep, (himp s a ha).2] at hpay
  omega

end pays

theorem sum_step {ω : Type*} [Fintype ω] [DecidableEq ω] {f g : ω → ℕ} (w : ω)
    (h : ∀ v ≠ w, f v = g v) : ∑ v, f v + g w = ∑ v, g v + f w := by
  have hrest : ∑ v ∈ Finset.univ.erase w, f v = ∑ v ∈ Finset.univ.erase w, g v :=
    Finset.sum_congr rfl fun v hv => h v (Finset.ne_of_mem_erase hv)
  rw [← Finset.add_sum_erase _ f (Finset.mem_univ w), ← Finset.add_sum_erase _ g (Finset.mem_univ w),
    hrest]
  omega

theorem sum_step_le {ω : Type*} [Fintype ω] [DecidableEq ω] {f g : ω → ℕ} (w : ω) (d : ℕ)
    (h : ∀ v ≠ w, f v ≤ g v + d) :
    ∑ v, f v + g w ≤ ∑ v, g v + f w + Fintype.card ω * d := by
  have hrest : ∑ v ∈ Finset.univ.erase w, f v ≤ ∑ v ∈ Finset.univ.erase w, (g v + d) :=
    Finset.sum_le_sum fun v hv => h v (Finset.ne_of_mem_erase hv)
  have hcard : (Finset.univ.erase w).card * d ≤ Fintype.card ω * d :=
    Nat.mul_le_mul_right d (Finset.card_le_card (Finset.erase_subset w Finset.univ))
  rw [Finset.sum_add_distrib, Finset.sum_const_nat fun _ _ => rfl] at hrest
  rw [← Finset.add_sum_erase _ f (Finset.mem_univ w), ← Finset.add_sum_erase _ g (Finset.mem_univ w)]
  omega

end OsProjects.Transition
