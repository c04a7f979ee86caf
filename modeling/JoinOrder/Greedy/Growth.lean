import JoinOrder.Greedy.Connection
import JoinOrder.Planning

/-!
# Growing join trees

A join tree starts as the first of the remaining members. As long as some of them are connected
with it, the one whose join costs least is joined with it. Every candidate join is a node of its
own and is estimated, also when it is not chosen.
-/

namespace JoinOrder

/-- A join tree, or a single member, and what it costs. -/
structure Tree (ν : Type) where
  plan : Node
  cost : ν

/-- What is given for a whole search. -/
structure Search (ν σ : Type) where
  estimator : Estimator ν σ
  model : CostModel ν σ
  edges : List Edge

/-- A state of the growth: the tree, the members not in any tree, and the conditions that no join
has covered. -/
structure Growth (ν : Type) where
  tree : Tree ν
  remaining : List (Tree ν)
  pending : List Expr

/-- One way to go on: the member at `position` among the remaining ones has been joined to give
`tree`. -/
structure Candidate (ν : Type) where
  position : Nat
  tree : Tree ν
  pending : List Expr

/-- The growth after a candidate is chosen. -/
def Growth.commit {ν : Type} (g : Growth ν) (c : Candidate ν) : Growth ν :=
  ⟨c.tree, g.remaining.eraseIdx c.position, c.pending⟩

namespace Search
variable {ν σ : Type} (s : Search ν σ)

/-- A member with its own cost. -/
def appraise (member : Node) : Planning ν σ (Tree ν) := Planning.estimating do
  let _ ← Estimating.estimate s.estimator member
  return ⟨member, ← s.model.base s.estimator member⟩

/-- The cost of the join of two trees. -/
def joinCost (join : Node) (left right : Tree ν) : Planning ν σ ν := Planning.estimating do
  let _ ← Estimating.estimate s.estimator join
  s.model.join s.estimator join left.cost right.cost

/-- Joins the tree with a member if some edge connects them. -/
def candidate? (tree : Tree ν) (pending : List Expr) (position : Nat) (member : Tree ν) :
    Planning ν σ (Option (Candidate ν)) := do
  match connecting s.edges tree.plan member.plan with
  | [] => return none
  | edges =>
    let join ←
      Planning.newJoin (.attaching edges pending tree.plan member.plan) tree.plan member.plan
    let cost ← s.joinCost join tree member
    return some ⟨position, ⟨join, cost⟩, pendingAbove pending tree.plan member.plan⟩

/-- The joins of the tree with each member connected with it, in order; the first member has the
given position. -/
def candidates (tree : Tree ν) (pending : List Expr) :
    (position : Nat) → List (Tree ν) → Planning ν σ (List (Candidate ν))
  | _, [] => return []
  | position, member :: rest => do
    let found ← s.candidate? tree pending position member
    let others ← candidates tree pending (position + 1) rest
    return found.toList ++ others

variable [CostScale ν]

/-- The first candidate of least cost among those that cost less than `bound`. -/
def cheapestBelow (bound : ν) : List (Candidate ν) → Option (Candidate ν)
  | [] => none
  | c :: rest =>
    if CostScale.less c.tree.cost bound then (cheapestBelow c.tree.cost rest).or (some c)
    else cheapestBelow bound rest

/-- The first candidate of least cost. -/
def cheapest? (cs : List (Candidate ν)) : Option (Candidate ν) :=
  cheapestBelow CostScale.ceiling cs

/-- Grows a tree for at most the given number of joins, and until no candidate is left. -/
def grow : (joins : Nat) → Growth ν → Planning ν σ (Growth ν)
  | 0, g => return g
  | joins + 1, g => do
    match cheapest? (← s.candidates g.tree g.pending 0 g.remaining) with
    | none => return g
    | some c => grow joins (g.commit c)

/-- Grows trees until no member remains, and returns them in order with the conditions that are
still pending. At most `trees` trees are grown. -/
def growAll : (trees : Nat) → List (Tree ν) → List Expr → Planning ν σ (List Node × List Expr)
  | trees + 1, seed :: remaining, pending => do
    let g ← s.grow remaining.length ⟨seed, remaining, pending⟩
    let (plans, pending) ← growAll trees g.remaining g.pending
    return (g.tree.plan :: plans, pending)
  | _, _, pending => return ([], pending)

end Search

end JoinOrder
