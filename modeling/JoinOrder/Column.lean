/-!
# Columns

A column is named together with the relation that produces it, so columns of different relations
never coincide.
-/

namespace JoinOrder

/-- A column `name` of the table or alias `relation`. -/
structure Column where
  relation : String
  name : String
  deriving DecidableEq, Inhabited

namespace Column

/-- The qualified name, `relation.name`. -/
def text (c : Column) : String := c.relation ++ "." ++ c.name

/-- Columns are ordered by relation first and by name within a relation. -/
def compare (a b : Column) : Ordering :=
  (Ord.compare a.relation b.relation).then (Ord.compare a.name b.name)

/-- The column `c` sorts before `d` or is the same. -/
def le (c d : Column) : Bool := (c.compare d).isLE

end Column

end JoinOrder
