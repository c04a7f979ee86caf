import JoinOrder.Statistics.Estimating

/-!
# Cost models

A cost model ranks join trees by a number, less being better. It sees a plan and may ask for
estimates. The standard one counts the rows that all operators of a tree put out.
-/

namespace JoinOrder

/-- How trees are ranked while a join tree is grown from members. -/
structure CostModel (ν σ : Type) where
  /-- The cost of a member before it is joined. -/
  base : Estimator ν σ → Node → Estimating ν σ ν
  /-- The cost of a join whose inputs cost `left` and `right`. -/
  join : Estimator ν σ → Node → (left right : ν) → Estimating ν σ ν

namespace CostModel
variable {ν σ : Type}

/-- The rows that a plan puts out. -/
def rows (estimator : Estimator ν σ) (n : Node) : Estimating ν σ ν :=
  return (← Estimating.estimate estimator n).rows

/-- The rows put out by the operators of a plan: those of the root, then those of its inputs. -/
def totalRows [Quantity ν] (estimator : Estimator ν σ) : Node → Estimating ν σ ν
  | .scan tag s => rows estimator (.scan tag s)
  | .unary tag op input => do
    return (← rows estimator (.unary tag op input)) + (← totalRows estimator input)
  | .join tag j left right => do
    return (← rows estimator (.join tag j left right)) + (← totalRows estimator left) +
      (← totalRows estimator right)

/-- The rows of a join, added to what its inputs cost. -/
def joinRows [Quantity ν] (estimator : Estimator ν σ) (n : Node) (left right : ν) :
    Estimating ν σ ν :=
  return (← rows estimator n) + left + right

/-- Cost as the number of rows put out by all operators together. -/
def cumulative [Quantity ν] : CostModel ν σ := ⟨totalRows, joinRows⟩

end CostModel

end JoinOrder
