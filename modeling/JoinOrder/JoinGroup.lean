import JoinOrder.Plan.Basic

/-!
# Join groups

A tree of inner joins is flattened into a group: the plans below it that are not inner joins
themselves, the equalities that connect two of them, and all other conditions. The order of the
joins is then free. Conditions are listed as they are met: those of the left input, those of the
right input, those of the join itself.
-/

namespace JoinOrder

/-- The members and conditions of a flattened tree of inner joins. -/
structure JoinGroup where
  members : List Node
  edges : List Edge
  residuals : List Expr

namespace Node

/-- The greatest subplans that are not inner joins, from left to right. -/
def members : Node → List Node
  | scan t s => [scan t s]
  | unary t op input => [unary t op input]
  | join t j left right =>
    if j.isInner then left.members ++ right.members else [join t j left right]

/-- The equalities of all inner joins above the members. -/
def innerEdges : Node → List Edge
  | scan _ _ => []
  | unary _ _ _ => []
  | join _ j left right =>
    if j.isInner then left.innerEdges ++ right.innerEdges ++ j.edges else []

/-- The residual conditions of all inner joins above the members. -/
def innerResiduals : Node → List Expr
  | scan _ _ => []
  | unary _ _ _ => []
  | join _ j left right =>
    if j.isInner then left.innerResiduals ++ right.innerResiduals ++ j.residuals else []

end Node

/-- The position of the first member that produces a column. -/
def ownerOf? (members : List Node) (c : Column) : Option Nat :=
  members.findIdx? (·.produces c)

/-- The ends of the edge belong to two different members. -/
def Edge.connects (e : Edge) (members : List Node) : Bool :=
  match ownerOf? members e.left, ownerOf? members e.right with
  | some i, some j => i != j
  | _, _ => false

/-- The group of a tree of inner joins. An equality that does not connect two members is an
ordinary condition, listed after the others. -/
def JoinGroup.ofPlan (n : Node) : JoinGroup :=
  let members := n.members
  { members
    edges := n.innerEdges.filter (·.connects members)
    residuals := n.innerResiduals ++ (n.innerEdges.filter (!·.connects members)).map Edge.toExpr }

end JoinOrder
