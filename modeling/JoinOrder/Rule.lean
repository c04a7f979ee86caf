import JoinOrder.Plan.Shape
import JoinOrder.Planning

/-!
# Rewrite rules

A rule turns a plan into another one. Rules are applied over and over until a whole pass leaves
the plan as it was, or the allowed number of passes is used up.
-/

namespace JoinOrder

/-- How join groups are treated. -/
structure Config where
  enabled : Bool := true
  /-- A larger group keeps its order. -/
  maxGroupSize : Nat := 64
  /-- A group that comes out with its columns in another order gets a projection on top. -/
  restoreColumnOrder : Bool := true

/-- A group of this size may be reordered. -/
def Config.admits (c : Config) (size : Nat) : Bool := c.enabled && size ≤ c.maxGroupSize

/-- What rules share. -/
structure Context (ν σ : Type) where
  estimator : Estimator ν σ
  model : CostModel ν σ
  config : Config

/-- A named rewriting of plans. -/
structure Rule (ν σ : Type) where
  name : String
  apply : Context ν σ → Node → Planning ν σ Node

/-- The session in which a plan is rewritten: new nodes are numbered above those of the plan. -/
def Session.forPlan {ν σ : Type} (s : Session ν σ) (root : Node) : Session ν σ :=
  { s with supply := s.supply.after root }

namespace Rule
variable {ν σ : Type} (context : Context ν σ)

/-- Applies the rules in turn, and tells whether one of them changed the plan that it was given. -/
def pass : List (Rule ν σ) → Node → Planning ν σ (Node × Bool)
  | [], plan => return (plan, false)
  | rule :: rules, plan => do
    let new ← rule.apply context plan
    let (result, changed) ← pass rules new
    return (result, !new.same plan || changed)

/-- Passes until nothing changes, at most the given number of times. -/
def exhaust (rules : List (Rule ν σ)) : (passes : Nat) → Node → Planning ν σ Node
  | 0, plan => return plan
  | passes + 1, plan => do
    let (result, changed) ← pass context rules plan
    if changed then exhaust rules passes result else return result

end Rule

end JoinOrder
