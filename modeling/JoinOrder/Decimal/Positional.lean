import JoinOrder.Decimal.Shortest

/-!
# Positional decimals

Numbers are printed with the fewest digits that read back, always in positional notation: never
with an exponent, and without a decimal point when they are integral.
-/

namespace JoinOrder.Decimal

/-- The number `digits · 10^exponent` in positional notation. -/
def positional (digits : Nat) (exponent : Int) : String :=
  let text := Nat.toDigits 10 digits
  let places := (-exponent).toNat
  if places = 0 then String.ofList (text ++ List.replicate exponent.toNat '0')
  else
    let padded := List.replicate (places + 1 - text.length) '0' ++ text
    let point := padded.length - places
    String.ofList (padded.take point ++ '.' :: padded.drop point)

/-- The text of a positive finite number, from the fields of its binary representation. -/
def ofFields (biased fraction : Nat) : String :=
  let s :=
    if biased = 0 then Span.ofBinary fraction (-1074) false
    else Span.ofBinary (fraction + Nat.pow 2 52) (biased - 1075) (fraction = 0 && 1 < biased)
  let (digits, exponent) := s.shortest 309 640
  positional digits exponent

/-- The text of a number. -/
def render (x : Float) : String :=
  let bits := x.toBits.toNat
  let sign := if Nat.pow 2 63 ≤ bits then "-" else ""
  let biased := bits / Nat.pow 2 52 % Nat.pow 2 11
  let fraction := bits % Nat.pow 2 52
  if biased = 2047 then if fraction = 0 then sign ++ "inf" else "NaN"
  else if biased = 0 && fraction = 0 then sign ++ "0"
  else sign ++ ofFields biased fraction

end JoinOrder.Decimal
