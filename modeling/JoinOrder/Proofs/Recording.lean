import JoinOrder.Proofs.Inquiries
import JoinOrder.Proofs.Steps

/-!
# Recorded searches

A recorded search writes down every call to the estimator and to the cost model, with what came of
it, and every join that is built. A log is *clean* if no call has failed, and *broken* if some call
has and no call was made after the first that has.
-/

namespace JoinOrder

/-- A call with what came of it. The cost model may make calls while it is asked itself, so its call
is written down in two parts. -/
inductive Event (ν : Type) where
  /-- The estimator has been asked for the estimate of a node, to remember it there. -/
  | derived (n : Node) (inputs : List (Statistics ν)) (answer : Except Failure (Statistics ν))
  /-- The estimator has been asked by the cost model. -/
  | consulted (n : Node) (inputs : List (Statistics ν)) (answer : Except Failure (Statistics ν))
  | pricing (n : Node)
  | priced (n : Node) (answer : Except Failure ν)
  | built (n : Node)

namespace Event
variable {ν : Type}

def failure? : Event ν → Option Failure
  | derived _ _ (.error f) => some f
  | consulted _ _ (.error f) => some f
  | priced _ (.error f) => some f
  | _ => none

/-- A call is made here, and does not only end. -/
def Begins : Event ν → Prop
  | priced .. => False
  | _ => True

def Clean (log : List (Event ν)) : Prop := ∀ ev ∈ log, ev.failure? = none

/-- The first call that failed did so for this reason, and no call was made after it. -/
def Broken (f : Failure) (log : List (Event ν)) : Prop :=
  ∃ before ev after, log = before ++ ev :: after ∧ Clean before ∧ ev.failure? = some f ∧
    ∀ ev' ∈ after, ¬ ev'.Begins

variable {log : List (Event ν)} {ev : Event ν} {f : Failure}

theorem clean_concat : Clean (log ++ [ev]) ↔ Clean log ∧ ev.failure? = none := by
  unfold Clean
  rw [List.forall_mem_append, List.forall_mem_singleton]

theorem Clean.broken (h : Clean log) (hev : ev.failure? = some f) : Broken f (log ++ [ev]) :=
  ⟨log, ev, [], rfl, h, hev, by simp⟩

theorem Broken.concat (h : Broken f log) (hev : ¬ ev.Begins) : Broken f (log ++ [ev]) := by
  obtain ⟨before, first, after, rfl, hclean, hfirst, hafter⟩ := h
  refine ⟨before, first, after ++ [ev], by simp, hclean, hfirst, ?_⟩
  exact List.forall_mem_append.2 ⟨hafter, List.forall_mem_singleton.2 hev⟩

end Event

open Event

section Recorders
variable {ν σ α : Type}

/-- The step, with what came of it written down. -/
def Action.recorded (event : Except Failure α → Event ν) (x : Action σ α) :
    Action (σ × List (Event ν)) α := fun s =>
  match x s.1 with
  | .ok r t => .ok r (t, s.2 ++ [event (.ok r)])
  | .error f t => .error f (t, s.2 ++ [event (.error f)])

def Estimator.recorded (estimator : Estimator ν σ) : Estimator ν (σ × List (Event ν)) :=
  fun n inputs => (estimator n inputs).recorded (.derived n inputs)

def Desk.recorded (estimator : Estimator ν σ) : Desk ν σ (σ × List (Event ν)) where
  turn change e := .ok e.env.1 { e with env := (change e.env.1, e.env.2) }
  estimate := Estimating.estimate estimator.recorded
  consult m inputs := Estimating.ofEnv ((estimator m inputs).recorded (.consulted m inputs))

def Estimating.write (ev : Event ν) : Estimating ν (σ × List (Event ν)) Unit :=
  modify fun e => { e with env := (e.env.1, e.env.2 ++ [ev]) }

/-- The call to a cost model that makes this inquiry. -/
def Inquiry.recorded {n : Node} (q : Inquiry ν σ n ν) (estimator : Estimator ν σ) :
    Estimating ν (σ × List (Event ν)) ν := do
  Estimating.write (.pricing n)
  let answer ← (q.run (.recorded estimator)).attempt
  Estimating.write (.priced n answer)
  Action.ofExcept answer

end Recorders

/-- A search whose cost model makes inquiries. -/
structure Inquirer (ν σ : Type) where
  estimator : Estimator ν σ
  base : (n : Node) → Inquiry ν σ n ν
  join : (n : Node) → (left right : ν) → Inquiry ν σ n ν
  edges : List Edge

namespace Inquirer
variable {ν σ : Type} (q : Inquirer ν σ)

def search : Search ν σ := ⟨q.estimator, .inquiring q.base q.join, q.edges⟩

/-- The steps of the search, recorded. -/
def recorded : Steps (Session ν (σ × List (Event ν))) ν where
  appraise m := Planning.estimating do
    let _ ← Estimating.estimate q.estimator.recorded m
    return ⟨m, ← (q.base m).recorded q.estimator⟩
  newJoin j left right := do
    let n ← Planning.newJoin j left right
    Planning.estimating (Estimating.write (.built n))
    return n
  joinCost n left right := Planning.estimating do
    let _ ← Estimating.estimate q.estimator.recorded n
    (q.join n left.cost right.cost).recorded q.estimator

/-- After its first failure, the cost model asks no more and fails for that reason. -/
structure PassesOn : Prop where
  base : ∀ n, (q.base n).PassesOn
  join : ∀ n left right, (q.join n left right).PassesOn

def cumulative [Quantity ν] (estimator : Estimator ν σ) (edges : List Edge) : Inquirer ν σ :=
  ⟨estimator, fun n => Inquiry.totalRows n fun _ hk => hk, Inquiry.joinRows, edges⟩

theorem search_cumulative [Quantity ν] (estimator : Estimator ν σ) (edges : List Edge) :
    (cumulative estimator edges).search = ⟨estimator, .cumulative, edges⟩ := by
  rw [cumulative_eq_inquiring]
  rfl

theorem passesOn_cumulative [Quantity ν] (estimator : Estimator ν σ) (edges : List Edge) :
    (cumulative estimator edges).PassesOn :=
  ⟨fun _ => Inquiry.passesOn_totalRows _, fun _ _ _ =>
    (Inquiry.passesOn_rows _).bind fun _ => trivial⟩

end Inquirer

end JoinOrder
