import JoinOrder.Greedy.Solve
import JoinOrder.JoinGroup
import JoinOrder.Rule

/-!
# Reordering joins

Every group of inner joins in a plan is joined anew in the greedy order. The plan is rewritten
from the inputs up: first the members of a group, then the group. Parts of the plan in which
nothing is reordered keep their nodes.
-/

namespace JoinOrder

namespace Reorder

/-- The node over new inputs. It is the same node if the inputs are. -/
def withInputs (n : Node) (inputs : List Node) : Building Node :=
  if inputs.map Node.cell = n.inputs.map Node.cell then return n
  else Building.node n.operator inputs

/-- The tree of inner joins over new members, which are taken from the front of the list; returns
the rest of it. -/
def withMembers : Node → List Node → Building (Node × List Node)
  | .join tag j left right, new =>
    if j.isInner then do
      let (l, new) ← withMembers left new
      let (r, new) ← withMembers right new
      return (← withInputs (.join tag j left right) [l, r], new)
    else return (new.headD (.join tag j left right), new.tail)
  | n, new => return (new.headD n, new.tail)

/-- Filters a plan by the conditions that are left over, if there are any. -/
def filterBy (conditions : List Expr) (n : Node) : Building Node :=
  if conditions.isEmpty then return n
  else Building.filter conditions n

/-- Brings the columns into the order of a schema. -/
def arrange (s : Schema) (n : Node) : Building Node :=
  if n.schema = s then return n
  else Building.project s.columns n

variable {ν σ : Type} [CostScale ν] (context : Context ν σ)

/-- The tree of inner joins `n` over its rewritten members. -/
def settleGroup (n : Node) (members : List Node) : Planning ν σ Node := do
  if context.config.admits members.length then
    let group := JoinGroup.ofPlan n
    match ← Search.solve ⟨context.estimator, context.model, group.edges⟩ members
        group.residuals with
    | none => return n
    | some s => Planning.build do
      let filtered ← filterBy s.pending s.plan
      if context.config.restoreColumnOrder then arrange n.schema filtered else return filtered
  else
    return (← Planning.build (withMembers n members)).1

/-- The plan `n` over its rewritten members: for a node that is no inner join, the only one. -/
def settle (n : Node) (members : List Node) : Planning ν σ Node :=
  if n.isInnerJoin then settleGroup context n members else return members.headD n

/-- The rewritten members of the group that a plan belongs to. A node that is no inner join is the
only member of its group, and is rewritten by rewriting its inputs from left to right. -/
def rewriteMembers : Node → Planning ν σ (List Node)
  | .scan tag s => return [.scan tag s]
  | .unary tag op input => do
    let i ← settle context input (← rewriteMembers input)
    return [← Planning.build (withInputs (.unary tag op input) [i])]
  | .join tag j left right =>
    if j.isInner then do
      return (← rewriteMembers left) ++ (← rewriteMembers right)
    else do
      let l ← settle context left (← rewriteMembers left)
      let r ← settle context right (← rewriteMembers right)
      return [← Planning.build (withInputs (.join tag j left right) [l, r])]

/-- Reorders every group of inner joins in a plan. -/
def rewrite (n : Node) : Planning ν σ Node := do settle context n (← rewriteMembers context n)

end Reorder

/-- The rule that reorders joins. -/
def Reorder.rule {ν σ : Type} [CostScale ν] : Rule ν σ where
  name := "JoinReorderRule"
  apply := Reorder.rewrite

end JoinOrder
