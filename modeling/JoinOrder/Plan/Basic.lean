import JoinOrder.Failure

/-!
# Plans

A plan is a tree of operators in which every operator has exactly the inputs it takes, and is given
by its root. Each node carries a tag, an id and a cell. Nodes with one cell are one node, so a plan
whose parts are shared is the tree in which the shared part is repeated with its cells.

Such a tree can be far larger than the number of its nodes. So the output columns and the height of
a node are worked out once, when it is made, and kept with it.
-/

namespace JoinOrder

/-- What tells a node from other nodes. -/
structure Tag where
  /-- The number shown to users; nodes numbered independently may share it. -/
  id : Nat
  /-- The place where the estimate of the node is kept. It is never shared by different nodes. -/
  cell : Nat
  deriving DecidableEq

/-- A node of a plan with all that is below it. -/
inductive Node where
  | scan (tag : Tag) (scan : TableScan)
  | unary (tag : Tag) (op : UnaryOp) (input : Node)
  | join (tag : Tag) (join : Join) (left right : Node)
with
  /-- The output columns. -/
  @[computed_field] schema : Node → Schema
    | .scan _ s => .ofList s.columns
    | .unary _ op input => op.schema input.schema
    | .join _ _ left right => left.schema.merge right.schema
  /-- The number of nodes on a longest path from the root. -/
  @[computed_field] height : Node → Nat
    | .scan _ _ => 1
    | .unary _ _ input => input.height + 1
    | .join _ _ left right => max left.height right.height + 1
  deriving DecidableEq

namespace Node

/-- The tag of the root. -/
def tag : Node → Tag
  | scan t _ => t
  | unary t _ _ => t
  | join t _ _ _ => t

/-- The id of the root. -/
def id (n : Node) : Nat := n.tag.id

/-- The cell of the root. -/
def cell (n : Node) : Nat := n.tag.cell

/-- The operator at the root. -/
def operator : Node → Operator
  | scan _ s => .scan s
  | unary _ op _ => .unary op
  | join _ j _ _ => .join j

/-- The inputs from left to right. -/
def inputs : Node → List Node
  | scan _ _ => []
  | unary _ _ input => [input]
  | join _ _ left right => [left, right]

/-- The column is among the output columns. -/
def produces (n : Node) (c : Column) : Bool := n.schema.contains c

/-- All nodes, each before its inputs and those from left to right. -/
def preorder : Node → List Node
  | scan t s => [scan t s]
  | unary t op input => unary t op input :: input.preorder
  | join t j left right => join t j left right :: (left.preorder ++ right.preorder)

/-- The root is an inner join. -/
def isInnerJoin : Node → Bool
  | join _ j _ _ => j.isInner
  | _ => false

/-- The node of an operator over given inputs. The number of inputs is checked first, then the
columns of a projection from left to right. -/
def ofOperator (tag : Tag) : Operator → List Node → Except Failure Node
  | .scan s, [] => .ok (.scan tag s)
  | .unary op, [input] =>
    match op.missing? input.produces with
    | some c => .error (.unknownColumn c)
    | none => .ok (.unary tag op input)
  | .join j, [left, right] => .ok (.join tag j left right)
  | op, inputs => .error (.inputCount op inputs.length)

/-- A scan is printed by its table alone, and a join without conditions as a cross join. -/
def render : Node → String
  | scan _ s => s.table
  | unary _ (.filter conditions) input =>
    "Filter[" ++ ", ".intercalate (conditions.map Expr.render) ++ "](" ++ input.render ++ ")"
  | unary _ (.project columns) input =>
    "Projection[" ++ ", ".intercalate (columns.map Column.text) ++ "](" ++ input.render ++ ")"
  | unary _ (.limit count) input => "Limit[" ++ toString count ++ "](" ++ input.render ++ ")"
  | join _ j left right =>
    let inputs := "(" ++ left.render ++ ", " ++ right.render ++ ")"
    if j.isCross then "CrossJoin" ++ inputs
    else
      j.kind.name ++ "Join[" ++
        ", ".intercalate (j.edges.map Edge.render ++ j.residuals.map Expr.render) ++ "]" ++ inputs

@[simp] theorem produces_iff {n : Node} {c : Column} :
    n.produces c = true ↔ c ∈ n.schema.columns := Schema.contains_iff

theorem mem_preorder_self (n : Node) : n ∈ n.preorder := by
  cases n <;> exact List.mem_cons_self ..

/-- A column of a join comes from one of its inputs. -/
theorem produces_join (t : Tag) (j : Join) (left right : Node) (c : Column) :
    (join t j left right).produces c = (left.produces c || right.produces c) := by
  rw [Bool.eq_iff_iff]
  simp [schema]

end Node

end JoinOrder
