import JoinOrder.Proofs.Refusal

/-!
# Reliable collaborators

A search fails only where its estimator or its cost model fails, or where its ranking panics. If the
collaborators never fail, a search either succeeds or panics (`Search.Reliable.solve_or_panic`), whatever
the costs are.
-/

namespace JoinOrder

/-- The step never fails. -/
def Action.Total {σ α : Type} (x : Action σ α) : Prop := ∀ a, ∃ r b, x a = .ok r b

namespace Action.Total
variable {σ α : Type}

theorem pure (r : α) : Total (Pure.pure r : Action σ α) := fun a => ⟨r, a, rfl⟩

theorem not_error {x : Action σ α} (h : Total x) {a b : σ} {f : Failure} : x a ≠ .error f b := by
  obtain ⟨r, u, hr⟩ := h a
  rw [hr]
  exact nofun

end Action.Total

/-- Neither the estimator nor the cost model of the search ever fails. -/
structure Search.Reliable {ν σ : Type} (s : Search ν σ) : Prop where
  estimator : ∀ n inputs, Action.Total (s.estimator n inputs)
  base : ∀ n, Action.Total (s.model.base s.estimator n)
  join : ∀ n l r, Action.Total (s.model.join s.estimator n l r)

namespace Search.Reliable
variable {ν σ : Type} {s : Search ν σ} (h : s.Reliable)
include h

theorem not_refused {f : Failure} {e : Estimates ν σ} : ¬ Refused s.estimator s.model f e := by
  intro hr
  cases hr with
  | estimator hf => exact (h.estimator _ _).not_error hf
  | base hf => exact (h.base _).not_error hf
  | join hf => exact (h.join _ _ _).not_error hf

variable [CostScale ν]

/-- A search with reliable collaborators succeeds, unless its ranking panics. -/
theorem solve_or_panic (members : List Node) (residuals : List Expr) (a : Session ν σ) :
    (∃ found b, s.solve members residuals a = .ok found b) ∨
      ∃ b, s.solve members residuals a = .error .disorder b ∧
        RankingPanics s.estimator s.model members := by
  cases hs : s.solve members residuals a with
  | ok found b => exact .inl ⟨found, b, rfl⟩
  | error f b =>
    rcases refused_of_solve hs with hr | ⟨rfl, hp⟩
    · exact absurd hr h.not_refused
    · exact .inr ⟨b, rfl, hp⟩

end Search.Reliable

end JoinOrder
