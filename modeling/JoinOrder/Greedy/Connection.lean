import JoinOrder.Plan.Basic

/-!
# Connections between two plans

Two plans are connected by the edges that have one end in each of them. A condition belongs to a
join as soon as the two inputs together produce all the columns that it reads.
-/

namespace JoinOrder

/-- The edge, turned so that its left end is in `left` and its right end in `right`; an edge that
fits as it stands is not turned. -/
def Edge.orient? (e : Edge) (left right : Node) : Option Edge :=
  if left.produces e.left && right.produces e.right then some e
  else if right.produces e.left && left.produces e.right then some e.swapped
  else none

/-- All edges between two plans, in order, with their left ends on the left. -/
def connecting (edges : List Edge) (left right : Node) : List Edge :=
  edges.filterMap (·.orient? left right)

/-- The inputs together produce every column of the condition. -/
def Expr.coveredBy (e : Expr) (left right : Node) : Bool :=
  e.columns.all fun c => left.produces c || right.produces c

/-- The inner join of two plans on the given edges and on those pending conditions that it
covers. -/
def Join.attaching (edges : List Edge) (pending : List Expr) (left right : Node) : Join :=
  ⟨.inner, edges, pending.filter (·.coveredBy left right)⟩

/-- The conditions that are still pending above a join of two plans. -/
def pendingAbove (pending : List Expr) (left right : Node) : List Expr :=
  pending.filter (!·.coveredBy left right)

end JoinOrder
