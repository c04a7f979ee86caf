import JoinOrder.Column

/-!
# Scalar expressions

Expressions are the conditions of filters and joins. They are never evaluated here: the planner
asks only which columns they read, splits conjunctions and prints them.
-/

namespace JoinOrder

/-- A constant. -/
inductive Literal where
  | bool (value : Bool)
  | int (value : Int)
  | text (value : String)
  deriving DecidableEq, Inhabited

/-- The operators that stand between two expressions. -/
inductive BinaryOp where
  | eq
  | notEq
  | lt
  | ltEq
  | gt
  | gtEq
  | plus
  | minus
  | and
  | or
  deriving DecidableEq

/-- A scalar expression over columns. -/
inductive Expr where
  | column (c : Column)
  | literal (value : Literal)
  | binary (op : BinaryOp) (left right : Expr)
  | not (e : Expr)
  | isNull (e : Expr)
  deriving DecidableEq, Inhabited

/-- A text constant stands between single quotes, with nothing escaped. -/
def Literal.render : Literal → String
  | .bool true => "true"
  | .bool false => "false"
  | .int value => toString value
  | .text value => "'" ++ value ++ "'"

/-- The sign or word of an operator. -/
def BinaryOp.symbol : BinaryOp → String
  | .eq => "="
  | .notEq => "<>"
  | .lt => "<"
  | .ltEq => "<="
  | .gt => ">"
  | .gtEq => ">="
  | .plus => "+"
  | .minus => "-"
  | .and => "AND"
  | .or => "OR"

namespace Expr

/-- Binary expressions are bracketed; `NOT` and `IS NULL` are not. -/
def render : Expr → String
  | column c => c.text
  | literal value => value.render
  | binary op left right => "(" ++ left.render ++ " " ++ op.symbol ++ " " ++ right.render ++ ")"
  | not e => "NOT " ++ e.render
  | isNull e => e.render ++ " IS NULL"

/-- The columns that the expression reads, from left to right, repetitions included. -/
def columns : Expr → List Column
  | column c => [c]
  | literal _ => []
  | binary _ left right => left.columns ++ right.columns
  | not e => e.columns
  | isNull e => e.columns

/-- The conjuncts from left to right; only conjunctions at the top are taken apart. -/
def conjuncts : Expr → List Expr
  | binary .and left right => left.conjuncts ++ right.conjuncts
  | e => [e]

/-- The operator at the top. -/
def rootOp? : Expr → Option BinaryOp
  | binary op _ _ => some op
  | _ => none

end Expr

end JoinOrder
