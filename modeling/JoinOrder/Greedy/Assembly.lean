import JoinOrder.Greedy.Connection
import JoinOrder.Plan.Supply

/-!
# Assembling unconnected trees

Trees without an edge between them are joined in pairs of neighbours, round by round, so that the
result is as flat as it can be. A pending condition becomes part of the first of these joins that
covers it.
-/

namespace JoinOrder

/-- A group joined into a single plan, and the conditions that no join of it covers. -/
structure Solution where
  plan : Node
  pending : List Expr

namespace Assembly

/-- Joins each pair of neighbours; an odd last tree stays as it is. -/
def pairUp : List Node → List Expr → StateM Supply (List Node × List Expr)
  | left :: right :: rest, pending => do
    let join ← Building.join (.attaching [] pending left right) left right
    let (joins, pending) ← pairUp rest (pendingAbove pending left right)
    return (join :: joins, pending)
  | rest, pending => return (rest, pending)

/-- Pairs up until one tree is left, in at most the given number of rounds. -/
def rounds : Nat → List Node → List Expr → StateM Supply (Option Solution)
  | _, [], _ => return none
  | _, [plan], pending => return some ⟨plan, pending⟩
  | 0, plan :: _, pending => return some ⟨plan, pending⟩
  | n + 1, plans, pending => do
    let (plans, pending) ← pairUp plans pending
    rounds n plans pending

/-- Joins all trees; there is no result only if there is no tree. -/
def assemble (plans : List Node) (pending : List Expr) : StateM Supply (Option Solution) :=
  rounds plans.length plans pending

end Assembly

end JoinOrder
