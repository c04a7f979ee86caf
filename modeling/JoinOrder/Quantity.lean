/-!
# Quantities

Row counts, counts of distinct values and costs are all measured in one kind of number. The planner
uses only the operations listed here, so it can be read with floating-point numbers, which it runs
on, or with exact ones.
-/

namespace JoinOrder

/-- The arithmetic of estimates. -/
class Quantity (ν : Type) extends Add ν, Mul ν, Div ν where
  ofNat : Nat → ν
  lesser : ν → ν → ν
  greater : ν → ν → ν

/-- Quantities that rank plans: any two may or may not be comparable. -/
class CostScale (ν : Type) extends Quantity ν where
  compare? : ν → ν → Option Ordering
  /-- Only plans that cost less than this are ever chosen. -/
  ceiling : ν

namespace Quantity
variable {ν : Type} [Quantity ν]

/-- The quantity zero. -/
def zero : ν := ofNat 0

/-- The quantity one. -/
def one : ν := ofNat 1

/-- The part of the rows that a condition of unknown selectivity is assumed to keep: `4/5`. -/
def selectivity : ν := ofNat 4 / ofNat 5

/-- The product `acc · base^n` by repeated squaring, lowest bit first; `fuel` bounds the bits. -/
def powerLoop : Nat → ν → ν → Nat → ν
  | 0, acc, _, _ => acc
  | fuel + 1, acc, base, n =>
    let acc := if n % 2 = 1 then acc * base else acc
    if n / 2 = 0 then acc else powerLoop fuel acc (base * base) (n / 2)

/-- The power `base^n`. Rounding depends on the order of the products, so the order is fixed. -/
def power (base : ν) (n : Nat) : ν := powerLoop (n + 1) one base n

end Quantity

/-- `a` costs less than `b`; false where the two are not comparable. -/
def CostScale.less {ν : Type} [CostScale ν] (a b : ν) : Bool := compare? a b == some .lt

/-- The smaller and the greater of two numbers ignore a side that is not a number. -/
instance : Quantity Float where
  ofNat := Float.ofNat
  lesser a b := if a.isNaN || b < a then b else a
  greater a b := if a.isNaN || a < b then b else a

/-- Costs stay below the greatest finite number. A cost that is not a number compares with none. -/
instance : CostScale Float where
  compare? a b :=
    if a < b then some .lt else if b < a then some .gt else if a == b then some .eq else none
  ceiling := Float.ofBits 0x7fefffffffffffff

end JoinOrder
