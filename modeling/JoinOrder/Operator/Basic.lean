import JoinOrder.Expr.Edge
import JoinOrder.Schema

/-!
# Operators

The steps of a query plan: reading a table, the steps with one input, and joins. An operator says
how many inputs it takes and which columns it puts out.
-/

namespace JoinOrder

/-- Which unmatched rows a join keeps: none, those of one side, or those of both. -/
inductive JoinKind where
  | inner
  | left
  | right
  | full
  deriving DecidableEq

/-- Reads columns of a table, at most `limit` rows if there is a limit. -/
structure TableScan where
  table : String
  columns : List Column
  limit : Option Nat
  deriving DecidableEq

/-- The steps with one input. -/
inductive UnaryOp where
  | filter (conditions : List Expr)
  | project (columns : List Column)
  | limit (count : Nat)
  deriving DecidableEq

/-- A join on equalities between columns and on any other conditions, its residuals. -/
structure Join where
  kind : JoinKind
  edges : List Edge
  residuals : List Expr
  deriving DecidableEq

/-- One step of a query plan. -/
inductive Operator where
  | scan (scan : TableScan)
  | unary (op : UnaryOp)
  | join (join : Join)
  deriving DecidableEq

/-- The word that stands before `Join` when a join is printed. -/
def JoinKind.name : JoinKind → String
  | inner => "Inner"
  | left => "Left"
  | right => "Right"
  | full => "Full"

/-- A scan of the named columns, which are qualified by the table. -/
def TableScan.ofNames (table : String) (names : List String) (limit : Option Nat) : TableScan :=
  ⟨table, names.map (Column.mk table), limit⟩

namespace Join

/-- A join on a list of conditions: those that equate two columns become edges. -/
def ofConditions (kind : JoinKind) (conditions : List Expr) : Join where
  kind := kind
  edges := conditions.filterMap Expr.toEdge?
  residuals := conditions.filter (·.toEdge?.isNone)

/-- The inner join without conditions. -/
def cross : Join := ⟨.inner, [], []⟩

/-- Only matching rows are kept. -/
def isInner (j : Join) : Bool := j.kind = .inner

/-- An inner join without any condition pairs every two rows. -/
def isCross (j : Join) : Bool := j.isInner && j.edges.isEmpty && j.residuals.isEmpty

end Join

namespace UnaryOp

/-- The output columns for an input with the given columns; only a projection changes them. -/
def schema : UnaryOp → Schema → Schema
  | project columns, _ => .ofList columns
  | filter _, input => input
  | limit _, input => input

/-- The first column that the step needs by name and the input does not have. -/
def missing? : UnaryOp → (available : Column → Bool) → Option Column
  | project columns, available => columns.find? fun c => !available c
  | filter _, _ => none
  | limit _, _ => none

end UnaryOp

/-- The number of inputs. -/
def Operator.arity : Operator → Nat
  | scan _ => 0
  | unary _ => 1
  | join _ => 2

end JoinOrder
