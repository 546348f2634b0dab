import Treewalk.Number.Basic

/-!
# The fewest digits that read back

`Decimal.shortest m q` is a decimal with the fewest digits among those that round to `m · 2 ^ q`.
The reals that round to a number form an interval around it (`Span`), and on the grid of `k`-digit
decimals only the two neighbours of the number need a look: if any point of the grid lies in the
interval, one of them does.
-/

namespace Treewalk

/-- The decimal `digits · 10 ^ exponent`. -/
structure Decimal where
  digits : Nat
  exponent : Int
deriving DecidableEq, Repr

/-- A number and the ends of the interval of reals that round to it, all over one denominator. -/
structure Span where
  low : Nat
  value : Nat
  high : Nat
  denom : Nat
  /-- Whether the ends themselves round to the number. -/
  closed : Bool
deriving DecidableEq, Repr

namespace Span

/-- The span of `m · 2 ^ q`. Below a power of two the neighbours stand twice as close. -/
def ofParts (m : Nat) (q : Int) : Span :=
  let scale := Nat.pow 2 (q - 2).toNat
  let gap := if m == Number.hiddenBit && q != Number.leastExponent then 1 else 2
  { low := (4 * m - gap) * scale
    value := 4 * m * scale
    high := (4 * m + 2) * scale
    denom := Nat.pow 2 (2 - q).toNat
    closed := m % 2 == 0 }

/-- The same span in units of `10 ^ e`. -/
def inUnits (s : Span) (e : Int) : Span :=
  let up := Nat.pow 10 (-e).toNat
  { s with
    low := s.low * up
    value := s.value * up
    high := s.high * up
    denom := s.denom * Nat.pow 10 e.toNat }

/-- Whether the whole number `n` lies in the span. -/
def holds (s : Span) (n : Nat) : Bool :=
  let x := n * s.denom
  if s.closed then s.low ≤ x && x ≤ s.high else s.low < x && x < s.high

/-- The exponent of the leading decimal digit: `10 ^ e ≤ value < 10 ^ (e + 1)`. -/
def leadingExponent (s : Span) : Int :=
  if s.denom ≤ s.value then ((Nat.toDigits 10 (s.value / s.denom)).length : Int) - 1
  else -(Nat.toDigits 10 ((s.denom + s.value - 1) / s.value - 1)).length

/-- The whole number of the span that is nearest to its value, if one of the two neighbours of the
value is in the span; of two equally near the upper. -/
def nearest? (s : Span) : Option Nat :=
  let n := s.value / s.denom
  let below := s.value - n * s.denom
  match s.holds n, s.holds (n + 1) with
  | true, true => some (if 2 * below < s.denom then n else n + 1)
  | true, false => some n
  | false, true => some (n + 1)
  | false, false => none

end Span

namespace Decimal

/-- The first grid with a point in the span, coarsest first; `k` digits are tried, then more. Where
no grid tried has one, the point below the value on the last grid. -/
def search (s : Span) (lead : Int) : (tries k : Nat) → Decimal
  | 0, k => ⟨((s.inUnits (lead + 1 - k)).value) / (s.inUnits (lead + 1 - k)).denom, lead + 1 - k⟩
  | t + 1, k =>
    match (s.inUnits (lead + 1 - k)).nearest? with
    | some n => if n == Nat.pow 10 k then ⟨1, lead + 1⟩ else ⟨n, lead + 1 - k⟩
    | none => search s lead t (k + 1)

/-- The decimal with the fewest digits that reads back as `m · 2 ^ q`, for `m` not zero. Seventeen
digits always do. -/
def shortest (m : Nat) (q : Int) : Decimal :=
  let s := Span.ofParts m q
  search s s.leadingExponent 17 1

/-- The decimal written out in full, never with an exponent. -/
def positional (d : Decimal) : String :=
  let ds := Nat.toDigits 10 d.digits
  if 0 ≤ d.exponent then String.ofList (ds ++ List.replicate d.exponent.toNat '0')
  else
    let places := (-d.exponent).toNat
    if places < ds.length then
      String.ofList (ds.take (ds.length - places) ++ '.' :: ds.drop (ds.length - places))
    else String.ofList ('0' :: '.' :: List.replicate (places - ds.length) '0' ++ ds)

end Decimal

namespace Number

/-- A number as text: the fewest digits that read back, written out in full, no fraction where there
is none. A zero keeps its sign; the text of a number that is none has no sign. -/
def text : Number → String
  | .nan => "NaN"
  | .infinite neg => if neg then "-inf" else "inf"
  | .finite neg m q =>
    let body := if m == 0 then "0" else (Decimal.shortest m q).positional
    if neg then "-" ++ body else body

/-- The number a run of decimal digits with a fraction stands for: `digits / 10 ^ places`, rounded
to nearest. -/
def ofDecimal (digits places : Nat) : Float := Float.ofScientific digits true places

end Number

/-- The text of a number. -/
def numberText (x : Float) : String := (Number.ofFloat x).text

end Treewalk
