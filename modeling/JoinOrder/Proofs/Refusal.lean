import JoinOrder.Proofs.Run
import JoinOrder.Proofs.Steps

/-!
# Refusals

Collaborators are *watched* if the failures of their calls are written down. A watched run does what
it does unwatched. If some call has failed, that was the only one, and the run fails for the same
reason. Otherwise the run succeeds, unless a ranking panics (`of_ends_watched`), which takes more than
a few members whose costs do not all compare (`RankingPanics.incomparable`).
-/

namespace JoinOrder

section Watching
variable {ν σ α : Type}

/-- The step, with its failure written down. -/
def Action.watched (x : Action σ α) : Action (σ × List Failure) α := fun s =>
  match x s.1 with
  | .ok r t => .ok r (t, s.2)
  | .error f t => .error f (t, s.2 ++ [f])

def Estimates.watched {κ : Type} (e : Estimates ν σ) (written : κ) : Estimates ν (σ × κ) :=
  ⟨e.memo, (e.env, written)⟩

def Estimating.watched (x : Estimating ν σ α) : Estimating ν (σ × List Failure) α := fun e =>
  match x ⟨e.memo, e.env.1⟩ with
  | .ok r e' => .ok r (e'.watched e.env.2)
  | .error f e' => .error f (e'.watched (e.env.2 ++ [f]))

def Estimator.watched (estimator : Estimator ν σ) : Estimator ν (σ × List Failure) :=
  fun n inputs => (estimator n inputs).watched

/-- The cost model, watched while it asks the given estimator. -/
def CostModel.watched (model : CostModel ν σ) (estimator : Estimator ν σ) :
    CostModel ν (σ × List Failure) :=
  ⟨fun _ n => (model.base estimator n).watched, fun _ n l r => (model.join estimator n l r).watched⟩

def Search.watched (s : Search ν σ) : Search ν (σ × List Failure) :=
  ⟨s.estimator.watched, s.model.watched s.estimator, s.edges⟩

/-- The session, with what has been written down so far. -/
def Session.watched {κ : Type} (a : Session ν σ) (written : κ) : Session ν (σ × κ) :=
  ⟨a.supply, a.estimates.watched written⟩

end Watching

/-- A call to the estimator or to the cost model has just failed, and has left these estimates. -/
inductive Refused {ν σ : Type} (estimator : Estimator ν σ) (model : CostModel ν σ) (f : Failure)
    (e : Estimates ν σ) : Prop
  | estimator {n : Node} {inputs : List (Statistics ν)} {env : σ}
      (h : estimator n inputs env = .error f e.env)
  | base {n : Node} {e₀ : Estimates ν σ} (h : model.base estimator n e₀ = .error f e)
  | join {n : Node} {left right : ν} {e₀ : Estimates ν σ}
      (h : model.join estimator n left right e₀ = .error f e)

/-- Only a ranking of more than a few members, of which two have costs that do not compare, panics. -/
theorem RankingPanics.incomparable {ν σ : Type} [CostScale ν] {estimator : Estimator ν σ}
    {model : CostModel ν σ} {members : List Node} (h : RankingPanics estimator model members) :
    Ranking.insertionLimit < members.length ∧
      ∃ m ∈ members, ∃ n ∈ members, ∃ c d e e' u u', model.base estimator m e = .ok c e' ∧
        model.base estimator n u = .ok d u' ∧ CostScale.compare? c d = none := by
  obtain ⟨a, b, trees, htrees, hr⟩ := h
  have hplans := Search.map_plan_of_appraise htrees
  have hmem : ∀ t ∈ trees, t.plan ∈ members := fun t ht => hplans ▸ List.mem_map_of_mem ht
  have hlong : Ranking.insertionLimit < trees.length := by
    by_contra hshort
    rw [ranked_of_length_le (Nat.not_lt.1 hshort)] at hr
    cases hr
  have hsome : comparable trees = false := by
    by_contra hall
    rw [ranked_of_comparable (Bool.of_not_eq_false hall)] at hr
    cases hr
  unfold comparable at hsome
  rw [List.all_eq_false] at hsome
  obtain ⟨t, ht, hsome⟩ := hsome
  rw [Bool.not_eq_true, List.all_eq_false] at hsome
  obtain ⟨u, hu, hnone⟩ := hsome
  obtain ⟨e, e', hbase⟩ := Search.base_of_mem_appraise htrees t ht
  obtain ⟨d, d', hbase'⟩ := Search.base_of_mem_appraise htrees u hu
  refine ⟨?_, t.plan, hmem t ht, u.plan, hmem u hu, t.cost, u.cost, e, e', d, d', hbase, hbase',
    by simpa using hnone⟩
  rwa [← hplans, List.length_map]

section Estimates
variable {ν σ α : Type} (estimator : Estimator ν σ) (model : CostModel ν σ)

/-- Estimates beside watched ones: nothing is written down until a call fails. -/
def watching : Correspondence Unit (Estimates ν σ) (Estimates ν (σ × List Failure)) where
  holds _ e e' := e' = e.watched []
  fails _ f e e' := e' = e.watched [f] ∧ Refused estimator model f e

def watchingSession (panics : Prop) :
    Correspondence Unit (Session ν σ) (Session ν (σ × List Failure)) :=
  .sessions (fun _ => Eq) (fun _ => watching estimator model) panics

variable {estimator model} {u : Unit} {panics : Prop}

/-- What two runs side by side have come to. -/
theorem of_ends_watched {x : EStateM.Result Failure (Session ν σ) α}
    {y : EStateM.Result Failure (Session ν (σ × List Failure)) α}
    (h : (watchingSession estimator model panics).Ends u (fun _ r s => r = s) x y) :
    (∃ r b, x = .ok r b ∧ y = .ok r (b.watched [])) ∨
      (∃ f b, x = .error f b ∧ y = .error f (b.watched [f]) ∧
        Refused estimator model f b.estimates) ∨
      ∃ b, x = .error .disorder b ∧ y = .error .disorder (b.watched []) ∧ panics := by
  cases h with
  | @ok _ r _ a b _ h hq =>
    obtain ⟨supply, estimates⟩ := b
    obtain ⟨rfl, rfl⟩ := h
    exact .inl ⟨r, a, rfl, by rw [hq]; rfl⟩
  | @error _ f a b _ h =>
    obtain ⟨supply, estimates⟩ := b
    obtain ⟨rfl, rfl, hr⟩ := h
    exact .inr (.inl ⟨f, a, rfl, rfl, hr⟩)
  | @panic _ a b hp _ h =>
    obtain ⟨supply, estimates⟩ := b
    obtain ⟨rfl, rfl⟩ := h
    exact .inr (.inr ⟨a, rfl, rfl, hp⟩)
  | alone h => exact h.elim fun _ => False.elim

theorem relates_watched {x : Estimating ν σ α}
    (h : ∀ e f e', x e = .error f e' → Refused estimator model f e') :
    (watching estimator model).Relates u x x.watched fun _ r s => r = s := by
  rintro e _ rfl
  unfold Estimating.watched Estimates.watched
  dsimp only
  cases hx : x e with
  | ok r e' => exact .ok (v := ()) trivial rfl rfl
  | error f e' => exact .error (v := ()) trivial ⟨rfl, h e f e' hx⟩

theorem relates_ofEnv (n : Node) (inputs : List (Statistics ν)) :
    (watching estimator model).Relates u (Estimating.ofEnv (estimator n inputs))
      (Estimating.ofEnv (estimator.watched n inputs)) fun _ s t => s = t := by
  have hsame : (Estimating.ofEnv (estimator.watched n inputs) : Estimating ν _ _) =
      (Estimating.ofEnv (estimator n inputs)).watched := by
    funext e
    unfold Estimating.ofEnv Action.onPart Estimating.watched Estimator.watched Action.watched
    dsimp only
    cases estimator n inputs e.env.1 <;> rfl
  rw [hsame]
  refine relates_watched fun e f e' hf => ?_
  obtain ⟨env, hx, rfl⟩ := Action.onPart_eq_error.1 hf
  exact .estimator hx

theorem relates_estimate (n : Node) :
    (watching estimator model).Relates u (Estimating.estimate estimator n)
      (Estimating.estimate estimator.watched n) fun _ s t => s = t := by
  have hmemo : (watching estimator model).SameMemo :=
    ⟨fun h => congrArg Estimates.memo h, fun c s h => by rw [h]; rfl⟩
  exact hmemo.estimate relates_ofEnv n

theorem relates_build_watched {x : Building α} (hx : ∀ s, ∃ r t, x s = .ok r t) :
    (watchingSession estimator model panics).Relates u (Planning.build x) (Planning.build x)
      fun _ r s => r = s := by
  have hstep : ∀ s t : Supply, s = t → ∃ r s' r' t', ∃ w' : Unit, x s = .ok r s' ∧
      x t = .ok r' t' ∧ World.Grows u w' ∧ s' = t' ∧ r = r' := by
    rintro s _ rfl
    obtain ⟨r, t, hr⟩ := hx s
    exact ⟨r, t, r, t, (), hr, hr, trivial, rfl, rfl⟩
  exact relates_build hstep fun _ he => he

end Estimates

namespace Search
variable {ν σ : Type}

theorem simulates_watched (s : Search ν σ) (panics : Prop) :
    Steps.Simulates (watchingSession s.estimator s.model panics) (fun _ => Eq) s.steps
      s.watched.steps := by
  refine Search.simulates (fun _ => id) (fun _ h => h) (fun h => ?_) ?_ ?_ ?_ ?_
  · rw [h]
    exact fun _ => rfl
  · rintro _ m _ n _ j rfl rfl
    exact relates_build_watched (x := Action.ofState (Building.join j m n)) fun _ => ⟨_, _, rfl⟩
  · rintro _ m _ rfl
    exact (relates_estimate m).imp fun _ _ _ _ _ => trivial
  · rintro _ m _ rfl
    exact relates_watched fun e f e' hf => .base hf
  · rintro _ m _ l r rfl
    exact relates_watched fun e f e' hf => .join hf

/-- A search that fails has just been refused an answer, and fails for that reason, or its ranking
has panicked. -/
theorem refused_of_solve [CostScale ν] {s : Search ν σ} {members : List Node} {residuals : List Expr}
    {a b : Session ν σ} {f : Failure} (h : s.solve members residuals a = .error f b) :
    Refused s.estimator s.model f b.estimates ∨
      f = .disorder ∧ RankingPanics s.estimator s.model members := by
  have hsame : List.Forall₂ (fun m n : Node => m = n) members members :=
    List.forall₂_same.2 fun _ _ => rfl
  have hrun := (s.simulates_watched (RankingPanics s.estimator s.model members)).solve (w := ())
    s.edges id hsame residuals
  have hend := hrun a (a.watched []) ⟨rfl, rfl⟩
  rw [steps_solve, h] at hend
  generalize s.watched.steps.solve s.edges members residuals (a.watched []) = right at hend
  cases hend with
  | error _ h => exact .inl h.2.2
  | panic hp => exact .inr ⟨rfl, hp⟩
  | alone h => exact h.elim fun _ => False.elim

end Search

end JoinOrder
