import JoinOrder.Expr.Basic

/-!
# Equality edges

An equality between two columns is an edge of the join graph: it can connect the two plans that
produce its ends.
-/

namespace JoinOrder

/-- The condition `left = right`. The orientation is the one it was written in. -/
structure Edge where
  left : Column
  right : Column
  deriving DecidableEq

namespace Edge

/-- The text of an edge has no brackets, unlike that of the expression. -/
def render (e : Edge) : String := e.left.text ++ " = " ++ e.right.text

/-- The same condition read from right to left. -/
def swapped (e : Edge) : Edge := ⟨e.right, e.left⟩

/-- The edge as a condition. -/
def toExpr (e : Edge) : Expr := .binary .eq (.column e.left) (.column e.right)

@[simp] theorem swapped_swapped (e : Edge) : e.swapped.swapped = e := rfl

end Edge

/-- An equality of two different columns, and nothing else, is an edge. -/
def Expr.toEdge? : Expr → Option Edge
  | .binary .eq (.column l) (.column r) => if l = r then none else some ⟨l, r⟩
  | _ => none

end JoinOrder
