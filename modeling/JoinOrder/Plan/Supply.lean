import JoinOrder.Plan.BreadthFirst
import JoinOrder.Action

/-!
# New nodes

Nodes get their ids from a supply that counts upwards. An id is taken before the node is checked,
so a node that turns out to be malformed has used up its id. Ids are natural numbers: that a 32-bit
counter would overflow is left out.
-/

namespace JoinOrder

/-- The id and the cell of the next node. -/
structure Supply where
  nextId : Nat
  nextCell : Nat

namespace Supply

/-- Nothing has been handed out. -/
def initial : Supply := ⟨0, 0⟩

/-- Numbering restarts above the ids met by a breadth-first walk over the plan. -/
def after (s : Supply) (root : Node) : Supply :=
  { s with nextId := (root.breadthFirst.map Node.id).foldl max 0 + 1 }

/-- The next id, with a cell of its own. -/
def fresh : StateM Supply Tag := fun s => (⟨s.nextId, s.nextCell⟩, ⟨s.nextId + 1, s.nextCell + 1⟩)

/-- A cell of its own under a given id, which is not taken from the supply. -/
def freshCell (id : Nat) : StateM Supply Tag :=
  fun s => (⟨id, s.nextCell⟩, { s with nextCell := s.nextCell + 1 })

end Supply

/-- Making nodes: ids are taken from a supply, and a malformed node is refused. -/
abbrev Building (α : Type) := Action Supply α

namespace Building

/-- A scan has no inputs to check. -/
def scan (s : TableScan) : StateM Supply Node := return .scan (← Supply.fresh) s

/-- A join can be made of any two nodes. -/
def join (j : Join) (left right : Node) : StateM Supply Node :=
  return .join (← Supply.fresh) j left right

/-- A node of any operator. -/
def node (op : Operator) (inputs : List Node) : Building Node := do
  let tag ← Action.ofState Supply.fresh
  Action.ofExcept (Node.ofOperator tag op inputs)

/-- A node of any operator under an id of one's own. -/
def nodeWithId (id : Nat) (op : Operator) (inputs : List Node) : Building Node := do
  let tag ← Action.ofState (Supply.freshCell id)
  Action.ofExcept (Node.ofOperator tag op inputs)

/-- The rows of the input that satisfy all conditions. -/
def filter (conditions : List Expr) (input : Node) : Building Node :=
  node (.unary (.filter conditions)) [input]

/-- Columns of the input in a given order. -/
def project (columns : List Column) (input : Node) : Building Node :=
  node (.unary (.project columns)) [input]

/-- At most `count` rows of the input. -/
def limit (count : Nat) (input : Node) : Building Node := node (.unary (.limit count)) [input]

/-- A join on a list of conditions, whose column equalities become its edges. -/
def joinOn (kind : JoinKind) (conditions : List Expr) (left right : Node) : Building Node :=
  node (.join (.ofConditions kind conditions)) [left, right]

/-- All pairs of rows. -/
def cross (left right : Node) : Building Node := node (.join .cross) [left, right]

end Building

end JoinOrder
