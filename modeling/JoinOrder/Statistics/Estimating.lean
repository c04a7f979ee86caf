import JoinOrder.Action
import JoinOrder.Plan.Basic
import JoinOrder.Statistics.Basic

/-!
# Estimating plans

An estimator looks at one operator at a time. `estimate` lets it visit a plan from the inputs up
and remembers every estimate in the cell of its node, so that no node is estimated twice. A node
whose estimation failed remembers nothing.
-/

namespace JoinOrder

/-- The estimates of nodes, by cell. -/
abbrev Memo (ν : Type) := Nat → Option (Statistics ν)

namespace Memo
variable {ν : Type}

/-- Nothing has been estimated. -/
def empty : Memo ν := fun _ => none

/-- Remembers an estimate. -/
def insert (m : Memo ν) (cell : Nat) (s : Statistics ν) : Memo ν :=
  fun c => if c = cell then some s else m c

end Memo

/-- What changes while plans are estimated: the memo and the estimator's own state `σ`. -/
structure Estimates (ν σ : Type) where
  memo : Memo ν
  env : σ

/-- Estimating: a step that may fail and may change the estimator's own state `σ`. -/
abbrev Estimating (ν σ α : Type) := Action (Estimates ν σ) α

/-- Estimates the root of a plan from the estimates of its inputs, from left to right. -/
abbrev Estimator (ν σ : Type) := Node → List (Statistics ν) → Action σ (Statistics ν)

namespace Estimating
variable {ν σ α : Type}

/-- A step of the estimator on its own state. -/
def ofEnv (x : Action σ α) : Estimating ν σ α :=
  Action.onPart Estimates.env (fun env e => { e with env }) x

/-- The estimate remembered in a cell, or else the one that `compute` gives, which is remembered. -/
def remember (cell : Nat) (compute : Estimating ν σ (Statistics ν)) :
    Estimating ν σ (Statistics ν) := do
  match (← get).memo cell with
  | some s => return s
  | none =>
    let s ← compute
    modify fun e => { e with memo := e.memo.insert cell s }
    return s

/-- The estimate of a plan. Inputs come before the node, and from left to right. -/
def estimate (estimator : Estimator ν σ) : Node → Estimating ν σ (Statistics ν)
  | .scan tag s => remember tag.cell do
    ofEnv (estimator (.scan tag s) [])
  | .unary tag op input => remember tag.cell do
    let i ← estimate estimator input
    ofEnv (estimator (.unary tag op input) [i])
  | .join tag j left right => remember tag.cell do
    let l ← estimate estimator left
    let r ← estimate estimator right
    ofEnv (estimator (.join tag j left right) [l, r])

end Estimating

end JoinOrder
