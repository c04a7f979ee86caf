import JoinOrder.Plan.Basic

/-!
# Comparing plans

Plans are compared as trees of operators: tags do not count. `same_iff` says that comparing node by
node, from the root and from left to right, decides whether the shapes are equal.
-/

namespace JoinOrder

/-- What is left of a plan when the tags are dropped. -/
inductive Shape where
  | scan (scan : TableScan)
  | unary (op : UnaryOp) (input : Shape)
  | join (join : Join) (left right : Shape)
  deriving DecidableEq

namespace Node

/-- The plan without its tags. -/
def shape : Node → Shape
  | scan _ s => .scan s
  | unary _ op input => .unary op input.shape
  | join _ j left right => .join j left.shape right.shape

/-- Two plans have the same shape. Nothing is looked at below the first difference. -/
def same : Node → Node → Bool
  | scan _ s, scan _ t => s == t
  | unary _ op input, unary _ op' input' => op == op' && input.same input'
  | join _ j left right, join _ j' left' right' =>
    j == j' && left.same left' && right.same right'
  | _, _ => false

theorem same_iff {m n : Node} : m.same n = true ↔ m.shape = n.shape := by
  induction m generalizing n with
  | scan => cases n <;> simp [same, shape]
  | unary _ _ _ ih => cases n <;> simp [same, shape, ih]
  | join _ _ _ _ ihl ihr => cases n <;> simp [same, shape, ihl, ihr, and_assoc]

/-- Plans of one shape put out the same columns in the same order. -/
theorem schema_eq_of_shape {m n : Node} (h : m.shape = n.shape) : m.schema = n.schema := by
  induction m generalizing n with
  | scan => cases n <;> simp_all [shape, schema]
  | unary _ _ _ ih =>
    cases n with
    | unary =>
      simp only [shape, Shape.unary.injEq] at h
      simp [schema, h.1, ih h.2]
    | _ => simp [shape] at h
  | join _ _ _ _ ihl ihr =>
    cases n with
    | join =>
      simp only [shape, Shape.join.injEq] at h
      simp [schema, ihl h.2.1, ihr h.2.2]
    | _ => simp [shape] at h

end Node

end JoinOrder
