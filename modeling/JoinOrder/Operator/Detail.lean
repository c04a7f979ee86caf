import JoinOrder.Operator.Basic
import JoinOrder.Text.Quoted

/-!
# Operators in full detail

Reports about a malformed plan show an operator with all its fields by name, so that nothing is
left out. Plans themselves are printed in a shorter form.
-/

namespace JoinOrder

namespace Detail

/-- A named value, `Name(value)`. -/
def wrapped (name value : String) : String := name ++ "(" ++ value ++ ")"

/-- A list in square brackets. -/
def list (values : List String) : String := "[" ++ ", ".intercalate values ++ "]"

/-- A name with its fields in braces. -/
def record (name : String) (fields : List (String × String)) : String :=
  name ++ " \x7b " ++ ", ".intercalate (fields.map fun f => f.1 ++ ": " ++ f.2) ++ " \x7d"

end Detail

open Detail

/-- A column with its parts quoted. -/
def Column.detail (c : Column) : String :=
  record "Column" [("relation", Text.quoted c.relation), ("name", Text.quoted c.name)]

/-- An edge with both its ends. -/
def Edge.detail (e : Edge) : String :=
  record "EqualityEdge" [("left", e.left.detail), ("right", e.right.detail)]

/-- A constant with its type. -/
def Literal.detail : Literal → String
  | .bool value => wrapped "Boolean" (if value then "true" else "false")
  | .int value => wrapped "Int64" (toString value)
  | .text value => wrapped "Utf8" (Text.quoted value)

/-- An operator by name instead of by sign. -/
def BinaryOp.name : BinaryOp → String
  | .eq => "Eq"
  | .notEq => "NotEq"
  | .lt => "Lt"
  | .ltEq => "LtEq"
  | .gt => "Gt"
  | .gtEq => "GtEq"
  | .plus => "Plus"
  | .minus => "Minus"
  | .and => "And"
  | .or => "Or"

/-- An expression with its structure spelled out. -/
def Expr.detail : Expr → String
  | .column c => wrapped "Column" c.detail
  | .literal value => wrapped "Literal" value.detail
  | .binary op left right =>
    record "BinaryExpr" [("left", left.detail), ("op", op.name), ("right", right.detail)]
  | .not e => wrapped "Not" e.detail
  | .isNull e => wrapped "IsNull" e.detail

/-- An optional row limit, `Some(n)` or `None`. -/
def Detail.limit? : Option Nat → String
  | some count => wrapped "Some" (toString count)
  | none => "None"

/-- A scan with its fields. -/
def TableScan.detail (s : TableScan) : String :=
  record "TableScan" [("limit", limit? s.limit), ("table_name", Text.quoted s.table),
    ("columns", list (s.columns.map Column.detail))]

/-- A join with its fields. -/
def Join.detail (j : Join) : String :=
  record "Join" [("join_type", j.kind.name), ("eq_conditions", list (j.edges.map Edge.detail)),
    ("other_conditions", list (j.residuals.map Expr.detail))]

/-- The operator with all its fields. -/
def Operator.detail : Operator → String
  | .scan s => wrapped "LogicalScan" s.detail
  | .unary (.filter conditions) =>
    wrapped "LogicalFilter" (record "Filter" [("conditions", list (conditions.map Expr.detail))])
  | .unary (.project columns) =>
    wrapped "LogicalProjection"
      (record "Projection" [("columns", list (columns.map Column.detail))])
  | .unary (.limit count) =>
    wrapped "LogicalLimit" (record "Limit" [("limit", toString count)])
  | .join j => wrapped "LogicalJoin" j.detail

end JoinOrder
