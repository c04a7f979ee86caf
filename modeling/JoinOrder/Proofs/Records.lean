import JoinOrder.Plan.Shape
import JoinOrder.Proofs.Prospects

/-!
# Nodes as records

A node is kept as a record: an operator, its inputs in a list, and its output columns. Nothing in a
record says that there are as many inputs as the operator takes, or that the columns are those it
puts out. `Record.ofOperator` makes a record only if they are; `Record.scan` and `Record.join` put
one together without looking. Whoever works on a record looks up its inputs by position, and there
is no result (`none`) if there is no input at a position.

In a plan every operator has its inputs. `Node.record` tells how a plan is kept, and what is done
with the record is what is done with the plan: making nodes (`ofOperator_record`), comparing
(`same_record`), printing (`render?_record`) and estimating (`estimate_record`).
-/

namespace JoinOrder

/-- A node as it is kept, with all that is below it. -/
structure Record where
  tag : Tag
  operator : Operator
  inputs : List Record
  schema : Schema

/-- The operators of a plan, each above the trees of its inputs. -/
inductive OperatorTree where
  | node (operator : Operator) (inputs : List OperatorTree)

/-- The text of an operator, from the texts of its inputs by position. -/
def Operator.render? (text : Nat → Option String) : Operator → Option String
  | .scan s => some s.table
  | .unary (.filter conditions) => do
    return "Filter[" ++ ", ".intercalate (conditions.map Expr.render) ++ "](" ++ (← text 0) ++ ")"
  | .unary (.project columns) => do
    return "Projection[" ++ ", ".intercalate (columns.map Column.text) ++ "](" ++ (← text 0) ++ ")"
  | .unary (.limit count) => do
    return "Limit[" ++ toString count ++ "](" ++ (← text 0) ++ ")"
  | .join j => do
    let inputs := "(" ++ (← text 0) ++ ", " ++ (← text 1) ++ ")"
    return if j.isCross then "CrossJoin" ++ inputs
      else
        j.kind.name ++ "Join[" ++
          ", ".intercalate (j.edges.map Edge.render ++ j.residuals.map Expr.render) ++ "]" ++ inputs

namespace Record

section Fold
variable {α : Type} (f : Record → List α → α)

mutual

/-- A value for each record, worked out from the record and the values of its inputs. -/
def fold : Record → α
  | ⟨tag, op, inputs, schema⟩ => f ⟨tag, op, inputs, schema⟩ (foldAll inputs)

/-- The values of several records. -/
def foldAll : List Record → List α
  | [] => []
  | r :: rs => fold r :: foldAll rs

end

theorem foldAll_eq (rs : List Record) : foldAll f rs = rs.map (fold f) := by
  induction rs with
  | nil => rfl
  | cons r rs ih => rw [foldAll, ih, List.map_cons]

theorem fold_eq (r : Record) : r.fold f = f r (r.inputs.map (fold f)) := by
  cases r
  rw [fold, foldAll_eq]

end Fold

/-- A scan, put together without a check. -/
def scan (tag : Tag) (s : TableScan) : Record := ⟨tag, .scan s, [], .ofList s.columns⟩

/-- A join of any two records, put together without a check. -/
def join (tag : Tag) (j : Join) (left right : Record) : Record :=
  ⟨tag, .join j, [left, right], left.schema.merge right.schema⟩

/-- The record of an operator over given inputs, with the columns that the operator puts out over
theirs. If it puts out none, there is no record. -/
def ofOperator (tag : Tag) (op : Operator) (inputs : List Record) : Except Failure Record := do
  return ⟨tag, op, inputs, ← op.schema (inputs.map schema)⟩

/-- The operators alone. A record that is an input in several places is repeated. -/
def unfolded : Record → OperatorTree := fold fun r inputs => .node r.operator inputs

/-- Two records have the same operator, inputs and columns. Tags do not count. -/
def same : Record → Record → Bool := fold fun r sames s =>
  r.operator == s.operator && sames.all₂ (fun same i => same i) s.inputs && r.schema == s.schema

/-- The text of a record. -/
def render? : Record → Option String := fold fun r texts =>
  r.operator.render? fun position => texts[position]?.join

/-- The estimate of a record. It comes after those of the inputs, which are made from left to right,
and is remembered. -/
def estimate {ν σ : Type} (estimator : Record → List (Statistics ν) → Action σ (Statistics ν)) :
    Record → Estimating ν σ (Statistics ν) :=
  fold fun r inputs => Estimating.remember r.tag.cell do
    Estimating.ofEnv (estimator r (← inputs.mapM id))

section Equations
variable (r : Record)

theorem unfolded_eq : r.unfolded = .node r.operator (r.inputs.map unfolded) := fold_eq ..

theorem same_iff {s : Record} : r.same s = true ↔
    r.operator = s.operator ∧ List.Forall₂ (fun i k => i.same k = true) r.inputs s.inputs ∧
      r.schema = s.schema := by
  rw [same, fold_eq, Bool.and_eq_true, Bool.and_eq_true, beq_iff_eq, beq_iff_eq,
    List.all₂_eq_true, List.forall₂_map_left_iff, and_assoc]

theorem render?_eq :
    r.render? = r.operator.render? fun position => r.inputs[position]?.bind render? := by
  rw [render?, fold_eq]
  refine congrArg (r.operator.render? ·) (funext fun position => ?_)
  rw [List.getElem?_map]
  cases r.inputs[position]? <;> rfl

/-- There is no text if an input is wanting. -/
example : render? ⟨⟨0, 0⟩, .unary (.limit 1), [], .empty⟩ = none := rfl

theorem estimate_eq {ν σ : Type}
    (estimator : Record → List (Statistics ν) → Action σ (Statistics ν)) :
    r.estimate estimator = Estimating.remember r.tag.cell (do
      Estimating.ofEnv (estimator r (← r.inputs.mapM (estimate estimator)))) := by
  rw [estimate, fold_eq, List.mapM_map]
  rfl

end Equations

end Record

namespace Catalog
variable {ν σ : Type} [Quantity ν]

/-- The estimate of the root of a record from the estimates of its inputs. -/
def estimate? (c : Catalog ν) (r : Record) (inputs : List (Statistics ν)) :
    Option (Except Failure (Statistics ν)) :=
  match r.operator with
  | .scan s => some (c.estimate (.scan r.tag s) [])
  | .unary (.filter conditions) => do return .ok ((← inputs[0]?).filter conditions.length)
  | .unary (.project columns) => do return .ok ((← inputs[0]?).project columns)
  | .unary (.limit count) => do return .ok ((← inputs[0]?).limit count)
  | .join j => do
    let left ← r.inputs[0]?
    return .ok ((← inputs[0]?).join left.schema.contains (← inputs[1]?) j)

/-- Estimates records from a catalog, and does `lost` where an input is wanting. -/
def recordEstimator (c : Catalog ν) (lost : Action σ (Statistics ν)) (r : Record)
    (inputs : List (Statistics ν)) : Action σ (Statistics ν) :=
  match c.estimate? r inputs with
  | some answer => Action.ofExcept answer
  | none => lost

end Catalog

namespace Node

/-- The plan as it is kept. -/
def record : Node → Record
  | scan tag s => .scan tag s
  | unary tag op input => ⟨tag, .unary op, [input.record], op.schema input.record.schema⟩
  | join tag j left right => .join tag j left.record right.record

section Parts
variable (n : Node)

@[simp] theorem tag_record : n.record.tag = n.tag := by cases n <;> rfl

@[simp] theorem operator_record : n.record.operator = n.operator := by cases n <;> rfl

@[simp] theorem inputs_record : n.record.inputs = n.inputs.map record := by cases n <;> rfl

@[simp] theorem schema_record : n.record.schema = n.schema := by
  induction n with
  | scan => rfl
  | unary tag op i ih => exact congrArg op.schema ih
  | join tag j l r ihl ihr => exact congrArg₂ Schema.merge ihl ihr

theorem contains_record : n.record.schema.contains = n.produces := by
  rw [schema_record]
  rfl

end Parts

/-- Plans that are kept alike are the same. -/
theorem record_inj {m n : Node} (h : m.record = n.record) : m = n := by
  induction m generalizing n with
  | scan tag s =>
    cases n with
    | scan tag' s' =>
      cases h
      rfl
    | _ => cases congrArg Record.operator h
  | unary tag op i ih =>
    cases n with
    | unary tag' op' i' =>
      obtain ⟨rfl, hop, hi, -⟩ := Record.mk.inj h
      cases hop
      rw [ih (List.cons.inj hi).1]
    | _ => cases congrArg Record.operator h
  | join tag j l r ihl ihr =>
    cases n with
    | join tag' j' l' r' =>
      obtain ⟨rfl, hop, hi, -⟩ := Record.mk.inj h
      cases hop
      obtain ⟨hl, hr⟩ := List.cons.inj hi
      rw [ihl hl, ihr (List.cons.inj hr).1]
    | _ => cases congrArg Record.operator h

/-- An operator over the records of plans gives the record of the plan that it gives over the plans,
or fails for the same reason. -/
theorem ofOperator_record (tag : Tag) (op : Operator) (inputs : List Node) :
    Record.ofOperator tag op (inputs.map record) = (ofOperator tag op inputs).map record := by
  match op, inputs with
  | .scan _, [] => rfl
  | .join _, [_, _] => rfl
  | .unary op, [i] =>
    simp only [Record.ofOperator, List.map_cons, List.map_nil, Operator.schema, ofOperator,
      contains_record]
    cases op.missing? i.produces <;> rfl
  | .unary _, [] | .join _, [] | .join _, [_] => rfl
  -- The number of inputs is part of the failure.
  | .scan _, _ :: _ | .unary _, _ :: _ :: _ | .join _, _ :: _ :: _ :: _ =>
    simp [Record.ofOperator, Operator.schema, ofOperator, bind, Except.bind, Except.map]

/-- The records of plans unfold to the same operators exactly if the plans have one shape. -/
theorem unfolded_record {m n : Node} :
    m.record.unfolded = n.record.unfolded ↔ m.shape = n.shape := by
  induction m generalizing n with
  | scan =>
    rw [Record.unfolded_eq, n.record.unfolded_eq]
    cases n <;> simp [shape, operator, inputs]
  | unary _ _ _ ih =>
    rw [Record.unfolded_eq, n.record.unfolded_eq]
    cases n <;> simp [shape, operator, inputs, ih]
  | join _ _ _ _ ihl ihr =>
    rw [Record.unfolded_eq, n.record.unfolded_eq]
    cases n <;> simp [shape, operator, inputs, ihl, ihr]

/-- Records of plans are compared as the plans are: the columns follow from the operators. -/
theorem same_record (m n : Node) : m.record.same n.record = m.same n := by
  rw [Bool.eq_iff_iff, same_iff]
  induction m generalizing n with
  | scan tag s =>
    rw [Record.same_iff]
    cases n with
    | scan tag' s' =>
      have hs : s = s' → Schema.ofList s.columns = .ofList s'.columns := by
        rintro rfl
        rfl
      simpa [shape, operator, inputs, schema] using hs
    | _ => simp [shape, operator]
  | unary tag op i ih =>
    rw [Record.same_iff]
    cases n with
    | unary tag' op' i' =>
      have hs : op = op' → i.shape = i'.shape → op.schema i.schema = op'.schema i'.schema := by
        rintro rfl hi
        rw [schema_eq_of_shape hi]
      simpa [shape, operator, inputs, schema, ih] using hs
    | _ => simp [shape, operator]
  | join tag j l r ihl ihr =>
    rw [Record.same_iff]
    cases n with
    | join tag' j' l' r' =>
      have hs : j = j' → l.shape = l'.shape → r.shape = r'.shape →
          l.schema.merge r.schema = l'.schema.merge r'.schema := by
        rintro - hl hr
        rw [schema_eq_of_shape hl, schema_eq_of_shape hr]
      simpa [shape, operator, inputs, schema, ihl, ihr] using hs
    | _ => simp [shape, operator]

theorem render?_record (n : Node) : n.record.render? = some n.render := by
  induction n with
  | scan => rfl
  | unary tag op i ih =>
    rw [Record.render?_eq]
    cases op <;> simp [operator, inputs, ih, Operator.render?, render]
  | join tag j l r ihl ihr =>
    rw [Record.render?_eq]
    simp [operator, inputs, ihl, ihr, Operator.render?, render]

/-- A record is estimated like the plan, provided that estimators agree where they are given an
estimate for each input. -/
theorem estimate_record {ν σ : Type}
    {e : Record → List (Statistics ν) → Action σ (Statistics ν)} {e' : Estimator ν σ}
    (h : ∀ m inputs, inputs.length = m.operator.arity → e m.record inputs = e' m inputs)
    (n : Node) : n.record.estimate e = Estimating.estimate e' n := by
  induction n with
  | scan tag s =>
    rw [Record.estimate_eq, inputs_record, inputs, List.map_nil, List.mapM_nil, pure_bind,
      h _ _ rfl, tag_record, Estimating.estimate, Node.tag]
  | unary tag op i ih =>
    rw [Record.estimate_eq, inputs_record, inputs, tag_record, Estimating.estimate, Node.tag]
    simp only [List.map_cons, List.map_nil, List.mapM_cons, List.mapM_nil, bind_assoc, pure_bind,
      ih]
    exact congrArg (Estimating.remember _) (bind_congr fun a =>
      congrArg Estimating.ofEnv (h _ _ rfl))
  | join tag j l r ihl ihr =>
    rw [Record.estimate_eq, inputs_record, inputs, tag_record, Estimating.estimate, Node.tag]
    simp only [List.map_cons, List.map_nil, List.mapM_cons, List.mapM_nil, bind_assoc, pure_bind,
      ihl, ihr]
    exact congrArg (Estimating.remember _) (bind_congr fun a => bind_congr fun b =>
      congrArg Estimating.ofEnv (h _ _ rfl))

end Node

namespace Catalog
variable {ν σ : Type} [Quantity ν]

theorem estimate?_record (c : Catalog ν) {n : Node} {inputs : List (Statistics ν)}
    (h : inputs.length = n.operator.arity) :
    c.estimate? n.record inputs = some (c.estimate n inputs) := by
  match n, inputs with
  | .scan .., [] => rfl
  | .unary _ (.filter _) _, [_] | .unary _ (.project _) _, [_] | .unary _ (.limit _) _, [_] => rfl
  | .join _ _ l _, [_, _] =>
    rw [estimate, ← l.contains_record]
    rfl

/-- With the catalog no input is wanting in the record of a plan. -/
theorem estimate_record (c : Catalog ν) (lost : Action σ (Statistics ν)) (n : Node) :
    n.record.estimate (c.recordEstimator lost) = Estimating.estimate c.estimator n := by
  refine Node.estimate_record (fun m inputs h => ?_) n
  rw [recordEstimator, c.estimate?_record h]
  rfl

end Catalog

end JoinOrder
