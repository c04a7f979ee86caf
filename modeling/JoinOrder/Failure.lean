import JoinOrder.Operator.Detail

/-!
# Failures

Everything that can go wrong while a plan is built, estimated or rewritten, by cause.
-/

namespace JoinOrder

/-- How code that the planner calls fails for a reason of its own. -/
inductive Cause where
  | error (text : String)
  /-- A panic ends the whole run: nothing is returned, and what the run left behind is lost. -/
  | panic (text : String)
  deriving DecidableEq, Inhabited

/-- A text alone is that of an error. -/
instance : Coe String Cause := ⟨.error⟩

/-- What is reported of a failure. -/
def Cause.text : Cause → String
  | error text => text
  | panic text => text

/-- Why a step failed. -/
inductive Failure where
  | missingStatistics (table : String)
  | unknownColumn (column : Column)
  | invalidPlan (reason : String)
  /-- An operator was given a number of inputs other than its arity. -/
  | inputCount (op : Operator) (given : Nat)
  /-- A collaborator of the planner failed for a reason of its own. -/
  | collaborator (cause : Cause)
  deriving DecidableEq, Inhabited

/-- The panic of sorting by comparisons that contradict each other. -/
def Failure.disorder : Failure :=
  .collaborator (.panic "user-provided comparison function does not correctly implement a total order")

/-- The report shown to the user. -/
def Failure.message : Failure → String
  | missingStatistics table => "statistics of table `" ++ table ++ "` not found"
  | unknownColumn column => "column `" ++ column.text ++ "` not found in input schema"
  | invalidPlan reason => "invalid plan: " ++ reason
  | inputCount op given =>
    op.detail ++ " expects " ++ toString op.arity ++ " inputs, but got " ++ toString given
  | collaborator cause => cause.text

/-- The position of a column in a schema that has to have it. -/
def Schema.indexOf (s : Schema) (c : Column) : Except Failure Nat :=
  match s.indexOf? c with
  | some i => .ok i
  | none => .error (.unknownColumn c)

/-- The output columns of an operator over inputs with the given columns. The number of inputs is
checked first, then the columns of a projection from left to right. -/
def Operator.schema : Operator → List Schema → Except Failure Schema
  | .scan s, [] => .ok (.ofList s.columns)
  | .unary op, [input] =>
    match op.missing? input.contains with
    | some c => .error (.unknownColumn c)
    | none => .ok (op.schema input)
  | .join _, [left, right] => .ok (left.merge right)
  | op, inputs => .error (.inputCount op inputs.length)

end JoinOrder
