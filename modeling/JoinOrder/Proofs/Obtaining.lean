import JoinOrder.Proofs.ByShape
import JoinOrder.Proofs.Records

/-!
# What can be obtained

Records come from putting scans and joins together unchecked, from checked operators, from searches
and from reordering, in any order and as often as one likes (`Record.Obtained`). All that comes about
in this way are the records of well-formed plans (`Record.obtained_iff`): what checks nothing leads
nowhere else, and what is searched or rewritten was a plan before. So whoever works on such a record
finds it in order (`Record.coherent_of_obtained`).
-/

namespace JoinOrder

section Operators
variable {op : Operator} {inputs : List Schema} {s : Schema}

theorem Operator.length_of_schema (h : op.schema inputs = .ok s) : inputs.length = op.arity := by
  unfold Operator.schema at h
  split at h <;> first | rfl | cases h

/-- A projection puts out columns of its input alone. -/
theorem Operator.mem_of_schema {columns : List Column}
    (h : Operator.schema (.unary (.project columns)) inputs = .ok s) {input : Schema}
    (hi : input ∈ inputs) {c : Column} (hc : c ∈ columns) : c ∈ input.columns := by
  match inputs with
  | [i] =>
    obtain rfl := List.mem_singleton.1 hi
    cases hm : (UnaryOp.project columns).missing? input.contains with
    | some => rw [Operator.schema, hm] at h; cases h
    | none => simpa using List.find?_eq_none.1 hm c hc
  | [] | _ :: _ :: _ => cases h

end Operators

namespace Node
variable {tag : Tag} {op : Operator} {inputs : List Node} {n : Node}

/-- An operator over well-formed plans makes a well-formed plan, if it makes one. -/
theorem wellFormed_of_ofOperator (h : ofOperator tag op inputs = .ok n)
    (hi : ∀ i ∈ inputs, i.WellFormed) : n.WellFormed := by
  unfold ofOperator at h
  split at h
  · cases h
    trivial
  · split at h <;> cases h
    exact ⟨‹_›, hi _ (List.mem_singleton_self _)⟩
  · cases h
    exact ⟨hi _ (by simp), hi _ (by simp)⟩
  · cases h

theorem wellFormed_of_mem_inputs (h : n.WellFormed) {i : Node} (hi : i ∈ n.inputs) :
    i.WellFormed := by
  cases n with
  | scan => cases hi
  | unary => exact List.mem_singleton.1 hi ▸ h.2
  | join =>
    rcases List.mem_pair.1 hi with rfl | rfl
    · exact h.1
    · exact h.2

end Node

namespace Record

/-- The records that can be at hand. -/
inductive Obtained : Record → Prop
  /-- Putting a scan together. -/
  | scan (tag : Tag) (s : TableScan) : Obtained (.scan tag s)
  /-- Putting a join together. -/
  | join (tag : Tag) (j : Join) {left right : Record} (hl : Obtained left) (hr : Obtained right) :
    Obtained (.join tag j left right)
  /-- Any operator over any inputs, if that is not refused. -/
  | node {tag : Tag} {op : Operator} {inputs : List Record} {r : Record}
    (hi : ∀ i ∈ inputs, Obtained i) (h : ofOperator tag op inputs = .ok r) : Obtained r
  /-- Looking at the inputs. -/
  | input {r i : Record} (hr : Obtained r) (hi : i ∈ r.inputs) : Obtained i
  /-- Searching for an order of joins, whoever estimates and weighs them. -/
  | search {ν σ : Type} [CostScale ν] {s : Search ν σ} {members : List Node}
    {residuals : List Expr} {a b : Session ν σ} {solution : Solution}
    (hm : ∀ m ∈ members, Obtained m.record)
    (h : s.solve members residuals a = .ok (some solution) b) : Obtained solution.plan.record
  /-- Reordering a plan in any context. -/
  | rule {ν σ : Type} [CostScale ν] {context : Context ν σ} {p q : Node} {a b : Session ν σ}
    (hp : Obtained p.record) (h : Reorder.rule.apply context p a = .ok q b) : Obtained q.record

/-- The number of inputs, the columns put out and those asked for are in order. -/
structure Fits (r : Record) : Prop where
  arity : r.inputs.length = r.operator.arity
  nodup : r.schema.columns.Nodup
  derived : r.operator.schema (r.inputs.map schema) = .ok r.schema
  projected : ∀ columns, r.operator = .unary (.project columns) →
    ∀ i ∈ r.inputs, ∀ c ∈ columns, c ∈ i.schema.columns

variable {r s : Record}

theorem fits_of_derived (h : r.operator.schema (r.inputs.map schema) = .ok r.schema) : r.Fits where
  arity := by rw [← Operator.length_of_schema h, List.length_map]
  nodup := r.schema.nodup
  derived := h
  projected columns hop i hi c hc := by
    rw [hop] at h
    exact Operator.mem_of_schema h (List.mem_map_of_mem hi) hc

theorem fits_record {n : Node} (h : n.WellFormed) : n.record.Fits := by
  apply fits_of_derived
  cases n with
  | scan => rfl
  | unary tag op i =>
    show Operator.schema (.unary op) [i.record.schema] = _
    rw [Operator.schema, i.contains_record, h.1]
    rfl
  | join => rfl

/-- A node that passes the check over inputs at hand is at hand. -/
theorem obtained_of_ofOperator {tag : Tag} {op : Operator} {inputs : List Node} {n : Node}
    (h : Node.ofOperator tag op inputs = .ok n) (hi : ∀ i ∈ inputs, i.record.Obtained) :
    n.record.Obtained := by
  have hr : ofOperator tag op (inputs.map Node.record) = .ok n.record := by
    rw [Node.ofOperator_record, h]
    rfl
  exact .node (List.forall_mem_map.2 hi) hr

theorem exists_map_record {inputs : List Record}
    (h : ∀ i ∈ inputs, ∃ n : Node, n.WellFormed ∧ n.record = i) :
    ∃ ns : List Node, (∀ n ∈ ns, n.WellFormed) ∧ ns.map Node.record = inputs := by
  induction inputs with
  | nil => exact ⟨[], nofun, rfl⟩
  | cons i is ih =>
    rw [List.forall_mem_cons] at h
    obtain ⟨⟨n, hn, rfl⟩, his⟩ := h
    obtain ⟨ns, hns, rfl⟩ := ih his
    exact ⟨n :: ns, List.forall_mem_cons.2 ⟨hn, hns⟩, rfl⟩

/-- The records that can be at hand are those of well-formed plans. -/
theorem obtained_iff : r.Obtained ↔ ∃ n : Node, n.WellFormed ∧ n.record = r := by
  constructor
  · intro h
    induction h with
    | scan tag s => exact ⟨.scan tag s, trivial, rfl⟩
    | join tag j _ _ ihl ihr =>
      obtain ⟨l, hl, rfl⟩ := ihl
      obtain ⟨r, hr, rfl⟩ := ihr
      exact ⟨.join tag j l r, ⟨hl, hr⟩, rfl⟩
    | @node tag op _ _ _ h ih =>
      obtain ⟨ns, hns, rfl⟩ := exists_map_record ih
      rw [Node.ofOperator_record] at h
      cases hn : Node.ofOperator tag op ns with
      | error => rw [hn] at h; cases h
      | ok n =>
        rw [hn] at h
        cases h
        exact ⟨n, Node.wellFormed_of_ofOperator hn hns, rfl⟩
    | input _ hi ih =>
      obtain ⟨n, hn, rfl⟩ := ih
      rw [Node.inputs_record] at hi
      obtain ⟨k, hk, rfl⟩ := List.mem_map.1 hi
      exact ⟨k, Node.wellFormed_of_mem_inputs hn hk, rfl⟩
    | search _ h ih =>
      refine ⟨_, Search.wellFormed_of_solve h fun m hm => ?_, rfl⟩
      obtain ⟨n, hn, heq⟩ := ih m hm
      exact Node.record_inj heq ▸ hn
    | @rule _ _ _ context p _ _ _ _ h ih =>
      obtain ⟨n, hn, heq⟩ := ih
      obtain rfl := Node.record_inj heq
      exact ⟨_, ((Reorder.wellFormed context).rewrite False.elim h).2 hn, rfl⟩
  · rintro ⟨n, hn, rfl⟩
    induction n with
    | scan tag s => exact .scan tag s
    | unary tag op i ih =>
      have h : Node.ofOperator tag (.unary op) [i] = .ok (.unary tag op i) := by
        rw [Node.ofOperator, hn.1]
      exact obtained_of_ofOperator h (List.forall_mem_singleton.2 (ih hn.2))
    | join tag j l r ihl ihr => exact .join tag j (ihl hn.1) (ihr hn.2)

/-- A record that can be at hand has as many inputs as its operator takes, and puts out, without
repetition, the columns that its operator puts out over them; a projection is to columns of its
input. So a scan or a join that is put together unchecked is what the check would give, which lets
it pass, under the same id. Two such records are the same exactly if they unfold to the same
operators. Printing one, or estimating it from a catalog, never looks for an input that is not
there: it gives what the plan gives of which it is the record, whatever would be done about a `lost`
input. -/
theorem coherent_of_obtained (h : r.Obtained) :
    r.Fits ∧
      (∀ tag t, ofOperator tag (.scan t) [] = .ok (.scan tag t)) ∧
      (∀ tag j s, ofOperator tag (.join j) [r, s] = .ok (.join tag j r s)) ∧
      (∀ s, s.Obtained → (r.same s = true ↔ r.unfolded = s.unfolded)) ∧
      ∃ n : Node, n.WellFormed ∧ n.record = r ∧
        (∀ t, Building.node (.scan t) [] = Action.ofState (Building.scan t)) ∧
        (∀ j m, Building.node (.join j) [n, m] = Action.ofState (Building.join j n m)) ∧
        (∀ m : Node, r.same m.record = n.same m) ∧
        r.render? = some n.render ∧
        ∀ {ν σ : Type} [Quantity ν] (c : Catalog ν) (lost : Action σ (Statistics ν)),
          r.estimate (c.recordEstimator lost) = Estimating.estimate c.estimator n := by
  obtain ⟨n, hn, rfl⟩ := obtained_iff.1 h
  refine ⟨fits_record hn, fun _ _ => rfl, fun _ _ _ => rfl, fun s hs => ?_, n, hn, rfl,
    fun _ => rfl, fun _ _ => rfl, n.same_record, n.render?_record,
    fun c lost => c.estimate_record lost n⟩
  obtain ⟨m, -, rfl⟩ := obtained_iff.1 hs
  rw [Node.same_record, Node.same_iff, Node.unfolded_record]

/-- The joins are made in another order, and a projection comes on top. -/
theorem coherent_of_obtained_threeTables : ∃ q b,
    Reorder.rule.apply (.constant 1) Structural.threeTables (.unused 5) = .ok q b ∧
      q.record.Fits ∧ q.record.render? = some q.render ∧
      ∀ lost, q.record.estimate (Catalog.empty.recordEstimator lost) =
        Estimating.estimate (ν := ℕ) (σ := Unit) Catalog.empty.estimator q := by
  have hw : Structural.threeTables.WellFormed := ⟨⟨trivial, trivial⟩, trivial⟩
  have hrun : ((Reorder.rule.apply (.constant 1) Structural.threeTables).result?
      (.unused 5)).isSome = true := by
    decide +kernel
  obtain ⟨q, b, hq⟩ := Action.exists_of_result? hrun
  obtain ⟨hfits, -, -, -, n, -, hn, -, -, -, hrender, hestimate⟩ :=
    coherent_of_obtained (.rule (obtained_iff.2 ⟨_, hw, rfl⟩) hq)
  obtain rfl := Node.record_inj hn
  exact ⟨n, b, hq, hfits, hrender, hestimate Catalog.empty⟩

end Record

end JoinOrder
