import JoinOrder.Greedy.Assembly
import JoinOrder.Greedy.Growth
import JoinOrder.Ranking.Stable

/-!
# Greedy join orders

The members of a group are ranked by cost, grown into one tree for each connected part of the
group, and the trees are assembled. Ranking many members by costs that do not compare may panic.
-/

namespace JoinOrder

section Ranking
variable {ν : Type} [CostScale ν]

/-- One tree costs less than another. -/
def Tree.cheaper (t u : Tree ν) : Bool := CostScale.less t.cost u.cost

/-- The costs of any two of the trees compare. -/
def comparable (trees : List (Tree ν)) : Bool :=
  trees.all fun t => trees.all fun u => (CostScale.compare? t.cost u.cost).isSome

/-- The trees in ascending order of cost, if all costs compare; trees of equal cost stay in order. -/
def sorted (trees : List (Tree ν)) : List (Tree ν) := Ranking.insertion Tree.cheaper trees

/-- The trees in ascending order of cost; trees of equal cost stay in order. If all costs compare,
every stable method gives the same. If not, ranking the trees may panic, and there is no result. -/
def ranked (trees : List (Tree ν)) : Option (List (Tree ν)) :=
  if comparable trees then some (sorted trees) else Ranking.stable Tree.cheaper trees

theorem sorted_perm (trees : List (Tree ν)) : (sorted trees).Perm trees :=
  Ranking.insertion_perm _ trees

/-- No tree is lost or repeated by ranking, whatever the costs. -/
theorem ranked_perm {trees order : List (Tree ν)} (h : ranked trees = some order) :
    order.Perm trees := by
  unfold ranked at h
  split at h
  · cases h; exact sorted_perm trees
  · exact Ranking.stable_perm _ h

/-- Trees whose costs compare are ranked without a panic. -/
theorem ranked_of_comparable {trees : List (Tree ν)} (h : comparable trees) :
    ranked trees = some (sorted trees) :=
  if_pos h

/-- A few trees are ranked without a panic, whatever their costs. -/
theorem ranked_of_length_le {trees : List (Tree ν)} (h : trees.length ≤ Ranking.insertionLimit) :
    ranked trees = some (sorted trees) := by
  unfold ranked Ranking.stable
  rw [if_pos h]
  exact ite_self _

/-- Ranking as a step. If it panics, the run ends here. -/
def ranking {τ : Type} (trees : List (Tree ν)) : Action τ (List (Tree ν)) :=
  Action.ofExcept <| match ranked trees with
    | some order => .ok order
    | none => .error .disorder

section Outcomes
variable {τ : Type} {trees order : List (Tree ν)} {s t : τ} {f : Failure}

theorem ranking_eq_ok : ranking trees s = .ok order t ↔ ranked trees = some order ∧ s = t := by
  unfold ranking Action.ofExcept
  cases ranked trees <;> simp

theorem ranking_eq_error :
    ranking trees s = .error f t ↔ ranked trees = none ∧ f = .disorder ∧ s = t := by
  unfold ranking Action.ofExcept
  cases ranked trees <;> simp [eq_comm]

end Outcomes

end Ranking

/-- Joins all members into one plan. There is no plan only if there is no member. -/
def Search.solve {ν σ : Type} [CostScale ν] (s : Search ν σ) (members : List Node)
    (residuals : List Expr) : Planning ν σ (Option Solution) := do
  let trees ← members.mapM s.appraise
  let (plans, pending) ← s.growAll trees.length (← ranking trees) residuals
  Planning.build (Action.ofState (Assembly.assemble plans pending))

end JoinOrder
