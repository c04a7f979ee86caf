import JoinOrder.CostModel

/-!
# What cost models ask

To put a price on a plan, a cost model may look up and derive estimates of the nodes of the plan,
ask the estimator, and keep a state of its own. What it does next may depend on every answer and on
every failure. Such an *inquiry* passes failures on if, after the first one it meets, it asks no more
and fails for that reason (`Inquiry.PassesOn`). The standard cost model makes inquiries that pass
failures on (`cumulative_eq_inquiring`, `Inquiry.passesOn_totalRows`).
-/

namespace JoinOrder

/-- The outcome of a step as a result. -/
def Action.attempt {σ α : Type} (x : Action σ α) : Action σ (Except Failure α) := fun s =>
  match x s with
  | .ok r t => .ok (.ok r) t
  | .error f t => .ok (.error f) t

/-- What is done to learn something about the plan `n`. -/
inductive Inquiry (ν σ : Type) (n : Node) (α : Type) where
  | answer (r : α)
  | fail (f : Failure)
  /-- Changes its own state, and goes on with what the state was. -/
  | turn (change : σ → σ) (next : σ → Inquiry ν σ n α)
  | look (m : Node) (hm : m ∈ n.preorder) (next : Option (Statistics ν) → Inquiry ν σ n α)
  | estimate (m : Node) (hm : m ∈ n.preorder)
    (next : Except Failure (Statistics ν) → Inquiry ν σ n α)
  /-- Asks the estimator past what is remembered. -/
  | consult (m : Node) (inputs : List (Statistics ν))
    (next : Except Failure (Statistics ν) → Inquiry ν σ n α)

/-- How inquiries with a state of type `σ` are served on the state `τ`. -/
structure Desk (ν σ τ : Type) where
  turn : (σ → σ) → Estimating ν τ σ
  estimate : Node → Estimating ν τ (Statistics ν)
  consult : Node → List (Statistics ν) → Estimating ν τ (Statistics ν)

def Desk.plain {ν σ : Type} (estimator : Estimator ν σ) : Desk ν σ σ where
  turn change e := .ok e.env { e with env := change e.env }
  estimate := Estimating.estimate estimator
  consult m inputs := Estimating.ofEnv (estimator m inputs)

namespace Inquiry
variable {ν σ τ α β : Type} {n : Node}

def run (d : Desk ν σ τ) : Inquiry ν σ n α → Estimating ν τ α
  | answer r => return r
  | fail f => throw f
  | turn change next => do (next (← d.turn change)).run d
  | look m _ next => do (next ((← get).memo m.cell)).run d
  | estimate m _ next => do (next (← (d.estimate m).attempt)).run d
  | consult m inputs next => do (next (← (d.consult m inputs).attempt)).run d

/-- The inquiry asks for no more estimates, and it fails for this reason. -/
def GivesUp (f : Failure) : Inquiry ν σ n α → Prop
  | answer _ => False
  | fail g => g = f
  | turn _ next => ∀ s, (next s).GivesUp f
  | look _ _ next => ∀ s, (next s).GivesUp f
  | estimate .. => False
  | consult .. => False

/-- The inquiry gives up as soon as an estimate fails. -/
def PassesOn : Inquiry ν σ n α → Prop
  | answer _ => True
  | fail _ => True
  | turn _ next => ∀ s, (next s).PassesOn
  | look _ _ next => ∀ s, (next s).PassesOn
  | estimate _ _ next => (∀ f, (next (.error f)).GivesUp f) ∧ ∀ s, (next (.ok s)).PassesOn
  | consult _ _ next => (∀ f, (next (.error f)).GivesUp f) ∧ ∀ s, (next (.ok s)).PassesOn

def bind : Inquiry ν σ n α → (α → Inquiry ν σ n β) → Inquiry ν σ n β
  | answer r, k => k r
  | fail f, _ => fail f
  | turn change next, k => turn change fun s => (next s).bind k
  | look m hm next, k => look m hm fun s => (next s).bind k
  | estimate m hm next, k => estimate m hm fun s => (next s).bind k
  | consult m inputs next, k => consult m inputs fun s => (next s).bind k

instance : Monad (Inquiry ν σ n) where
  pure := answer
  bind := bind

def ask (m : Node) (hm : m ∈ n.preorder) : Inquiry ν σ n (Statistics ν) :=
  estimate m hm fun
    | .ok s => answer s
    | .error f => fail f

theorem GivesUp.bind {f : Failure} {x : Inquiry ν σ n α} (hx : x.GivesUp f)
    (k : α → Inquiry ν σ n β) : (x >>= k).GivesUp f := by
  induction x with
  | answer | estimate | consult => exact hx.elim
  | fail => exact hx
  | turn _ next ih => exact fun s => ih s (hx s)
  | look _ _ next ih => exact fun s => ih s (hx s)

theorem PassesOn.bind {x : Inquiry ν σ n α} {k : α → Inquiry ν σ n β} (hx : x.PassesOn)
    (hk : ∀ r, (k r).PassesOn) : (x >>= k).PassesOn := by
  induction x with
  | answer r => exact hk r
  | fail => trivial
  | turn _ next ih => exact fun s => ih s (hx s)
  | look _ _ next ih => exact fun s => ih s (hx s)
  | estimate _ _ next ih => exact ⟨fun f => (hx.1 f).bind k, fun s => ih (.ok s) (hx.2 s)⟩
  | consult _ _ next ih => exact ⟨fun f => (hx.1 f).bind k, fun s => ih (.ok s) (hx.2 s)⟩

theorem passesOn_ask {m : Node} (hm : m ∈ n.preorder) :
    (ask m hm : Inquiry ν σ n (Statistics ν)).PassesOn := ⟨fun _ => rfl, fun _ => trivial⟩

theorem run_bind (d : Desk ν σ τ) (x : Inquiry ν σ n α) (k : α → Inquiry ν σ n β) :
    (x >>= k).run d = x.run d >>= fun r => (k r).run d := by
  induction x with
  | answer => rfl
  | fail => rfl
  | turn change next ih =>
    exact (congrArg (d.turn change >>= ·) (funext ih)).trans (bind_assoc ..).symm
  | look m hm next ih =>
    exact (congrArg (get >>= ·) (funext fun e : Estimates ν τ => ih (e.memo m.cell))).trans
      (bind_assoc ..).symm
  | estimate m hm next ih =>
    exact (congrArg ((d.estimate m).attempt >>= ·) (funext ih)).trans (bind_assoc ..).symm
  | consult m inputs next ih =>
    exact (congrArg ((d.consult m inputs).attempt >>= ·) (funext ih)).trans (bind_assoc ..).symm

theorem run_ask (estimator : Estimator ν σ) {m : Node} (hm : m ∈ n.preorder) :
    (ask m hm).run (.plain estimator) = Estimating.estimate estimator m := by
  funext e
  change EStateM.bind (Estimating.estimate estimator m).attempt _ e = _
  unfold EStateM.bind Action.attempt
  cases Estimating.estimate estimator m e <;> rfl

end Inquiry

def CostModel.inquiring {ν σ : Type} (base : (n : Node) → Inquiry ν σ n ν)
    (join : (n : Node) → (left right : ν) → Inquiry ν σ n ν) : CostModel ν σ where
  base estimator n := (base n).run (.plain estimator)
  join estimator n left right := (join n left right).run (.plain estimator)

namespace Inquiry
variable {ν σ : Type} {n : Node}

def rows (m : Node) (hm : m ∈ n.preorder) : Inquiry ν σ n ν := return (← ask m hm).rows

theorem run_rows (estimator : Estimator ν σ) {m : Node} (hm : m ∈ n.preorder) :
    (rows m hm).run (.plain estimator) = CostModel.rows estimator m := by
  unfold rows
  rw [run_bind, run_ask]
  rfl

theorem passesOn_rows {m : Node} (hm : m ∈ n.preorder) :
    (rows m hm : Inquiry ν σ n ν).PassesOn := (passesOn_ask hm).bind fun _ => trivial

variable [Quantity ν]

/-- The rows put out by all operators of a part `m` of the plan. -/
def totalRows : (m : Node) → (∀ k ∈ m.preorder, k ∈ n.preorder) → Inquiry ν σ n ν
  | .scan tag s, hm => rows (.scan tag s) (hm _ (Node.mem_preorder_self _))
  | .unary tag op input, hm => do
    let rows ← rows (.unary tag op input) (hm _ (Node.mem_preorder_self _))
    let below ← totalRows input fun k hk => hm k (List.mem_cons_of_mem _ hk)
    return rows + below
  | .join tag j left right, hm => do
    let rows ← rows (.join tag j left right) (hm _ (Node.mem_preorder_self _))
    let left ← totalRows left fun k hk =>
      hm k (List.mem_cons_of_mem _ (List.mem_append_left _ hk))
    let right ← totalRows right fun k hk =>
      hm k (List.mem_cons_of_mem _ (List.mem_append_right _ hk))
    return rows + left + right

theorem run_totalRows (estimator : Estimator ν σ) {m : Node}
    (hm : ∀ k ∈ m.preorder, k ∈ n.preorder) :
    (totalRows m hm).run (.plain estimator) = CostModel.totalRows estimator m := by
  induction m with
  | scan => exact run_rows estimator _
  | unary tag op i ih =>
    unfold totalRows CostModel.totalRows
    simp only [run_bind, run_rows, ih]
    rfl
  | join tag j l r ihl ihr =>
    unfold totalRows CostModel.totalRows
    simp only [run_bind, run_rows, ihl, ihr]
    rfl

theorem passesOn_totalRows {m : Node} (hm : ∀ k ∈ m.preorder, k ∈ n.preorder) :
    (totalRows m hm : Inquiry ν σ n ν).PassesOn := by
  induction m with
  | scan => exact passesOn_rows _
  | unary tag op i ih => exact (passesOn_rows _).bind fun _ => (ih _).bind fun _ => trivial
  | join tag j l r ihl ihr =>
    exact (passesOn_rows _).bind fun _ => (ihl _).bind fun _ => (ihr _).bind fun _ => trivial

def joinRows (n : Node) (left right : ν) : Inquiry ν σ n ν :=
  return (← rows n n.mem_preorder_self) + left + right

end Inquiry

theorem cumulative_eq_inquiring {ν σ : Type} [Quantity ν] : (CostModel.cumulative : CostModel ν σ) =
    .inquiring (fun n => Inquiry.totalRows n fun _ hk => hk) Inquiry.joinRows := by
  unfold CostModel.cumulative CostModel.inquiring Inquiry.joinRows CostModel.joinRows
  simp only [Inquiry.run_totalRows, Inquiry.run_bind, Inquiry.run_rows]
  rfl

end JoinOrder
