import JoinOrder.CostModel
import JoinOrder.Plan.Supply

/-!
# Planning

Rewriting a plan makes new nodes and estimates them. Both are steps on one state, the session: the
supply of new nodes and the estimates made so far.
-/

namespace JoinOrder

/-- What changes while plans are rewritten. -/
structure Session (ν σ : Type) where
  supply : Supply
  estimates : Estimates ν σ

/-- Rewriting: a step that may make nodes, estimate plans and fail. -/
abbrev Planning (ν σ α : Type) := Action (Session ν σ) α

namespace Planning
variable {ν σ α : Type}

/-- A step that makes nodes. -/
def build (x : Building α) : Planning ν σ α :=
  Action.onPart Session.supply (fun supply s => { s with supply }) x

/-- A step that estimates plans. -/
def estimating (x : Estimating ν σ α) : Planning ν σ α :=
  Action.onPart Session.estimates (fun estimates s => { s with estimates }) x

/-- A join over any two nodes. -/
def newJoin (j : Join) (left right : Node) : Planning ν σ Node :=
  build (Action.ofState (Building.join j left right))

end Planning

end JoinOrder
