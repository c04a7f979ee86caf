import JoinOrder.Plan.Basic
import JoinOrder.Statistics.Basic

/-!
# Catalogs

A catalog holds the statistics of stored tables. From them the output of every operator is
estimated, given the estimates of its inputs.
-/

namespace JoinOrder

/-- Statistics by table name; of several entries for one name the first counts. -/
structure Catalog (ν : Type) where
  entries : List (String × Statistics ν)

namespace Catalog
variable {ν : Type}

/-- No table is known. -/
def empty : Catalog ν := ⟨[]⟩

/-- Enters a table, in place of what was known about that name. -/
def insert (c : Catalog ν) (table : String) (s : Statistics ν) : Catalog ν :=
  ⟨(table, s) :: c.entries⟩

/-- What is known about a table. -/
def find? (c : Catalog ν) (table : String) : Option (Statistics ν) := c.entries.lookup table

/-- The estimate of the root of a plan from the estimates of its inputs. It fails only for a table
that is not in the catalog, or if the estimate of an input is wanting. -/
def estimate [Quantity ν] (c : Catalog ν) (n : Node) (inputs : List (Statistics ν)) :
    Except Failure (Statistics ν) :=
  match n, inputs with
  | .scan _ s, _ =>
    match c.find? s.table with
    | none => .error (.missingStatistics s.table)
    | some stored => .ok (match s.limit with
      | none => stored
      | some count => stored.limit count)
  | .unary _ (.filter conditions) _, input :: _ => .ok (input.filter conditions.length)
  | .unary _ (.project columns) _, input :: _ => .ok (input.project columns)
  | .unary _ (.limit count) _, input :: _ => .ok (input.limit count)
  | .join _ j left _, l :: r :: _ => .ok (l.join left.produces r j)
  | _, _ => .error (.invalidPlan "the statistics of an input are wanting")

end Catalog

end JoinOrder
