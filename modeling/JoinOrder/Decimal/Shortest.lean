/-!
# Shortest decimals

A binary floating-point number stands for all reals that round to it. Its shortest decimal is the
number with the fewest digits among them, and the nearest of those. All arithmetic is exact: reals
are fractions over one denominator, and the decimals of a given precision form the grid of the
multiples of a power of ten.
-/

namespace JoinOrder.Decimal

/-- A positive number `value / unit` and the bounds of the reals that round to it, all over the
same denominator `unit`. The bounds themselves belong to it if `closed`. -/
structure Span where
  low : Nat
  value : Nat
  high : Nat
  unit : Nat
  closed : Bool

/-- The span of `significand · 2^exponent`. Neighbours are half a step away, except that the lower
neighbour is only a quarter of a step away when the significand is the least of its binade. -/
def Span.ofBinary (significand : Nat) (exponent : Int) (leastOfBinade : Bool) : Span :=
  let scale := Nat.pow 2 exponent.toNat
  { low := (4 * significand - if leastOfBinade then 1 else 2) * scale
    value := 4 * significand * scale
    high := (4 * significand + 2) * scale
    unit := 4 * Nat.pow 2 (-exponent).toNat
    closed := significand % 2 = 0 }

/-- The multiple `k · 10^e`, as a numerator over the denominator that `scaled` gives. -/
def onGrid (s : Span) (e : Int) (k : Nat) : Nat := k * Nat.pow 10 e.toNat * s.unit

/-- A numerator of the span, brought to the denominator of the grid of step `10^e`. -/
def scaled (e : Int) (numerator : Nat) : Nat := numerator * Nat.pow 10 (-e).toNat

/-- The decimal `k · 10^e` rounds to the number. -/
def Span.holds (s : Span) (e : Int) (k : Nat) : Bool :=
  let x := onGrid s e k
  if s.closed then scaled e s.low ≤ x && x ≤ scaled e s.high
  else scaled e s.low < x && x < scaled e s.high

/-- The nearest decimal on the grid of step `10^e` that rounds to the number: one of the two
neighbours of the number on the grid. Of two equally near ones the greater is taken. -/
def Span.nearest? (s : Span) (e : Int) : Option Nat :=
  let below := scaled e s.value / onGrid s e 1
  let nearBelow := 2 * scaled e s.value < onGrid s e (2 * below + 1)
  let order := if nearBelow then [below, below + 1] else [below + 1, below]
  order.find? (s.holds e)

/-- The coarsest grid from `10^top` down that has a decimal for the number, as digits and exponent
of ten. -/
def Span.shortest (s : Span) (top : Int) : Nat → Nat × Int
  | 0 => (0, top)
  | steps + 1 =>
    match s.nearest? top with
    | some k => (k, top)
    | none => s.shortest (top - 1) steps

end JoinOrder.Decimal
