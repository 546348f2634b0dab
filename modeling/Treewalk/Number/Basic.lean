/-!
# Binary floating-point numbers, taken apart

A finite number is `m · 2 ^ q` with a sign, where `m < 2 ^ 53`. `Number.ofFloat` reads this form
off the bits and `Number.toFloat` puts them back, so that number text and remainders can be computed
in exact integer arithmetic.
-/

namespace Treewalk

/-- A binary64 number by its parts; `finite neg m q` is `± m · 2 ^ q`. -/
inductive Number where
  | nan
  | infinite (neg : Bool)
  | finite (neg : Bool) (m : Nat) (q : Int)
deriving DecidableEq, Repr

namespace Number

/-- The weight of the last place of the smallest numbers. -/
def leastExponent : Int := -1074

/-- One more than the largest significand that fits the fraction field alone. -/
def hiddenBit : Nat := Nat.pow 2 52

/-- The parts of a number whose bits are a sign, eleven exponent bits and a fraction. -/
def ofBits (bits : Nat) : Number :=
  let neg := bits / Nat.pow 2 63 % 2 == 1
  let exponent : Nat := bits / hiddenBit % Nat.pow 2 11
  let fraction := bits % hiddenBit
  if exponent == 2047 then
    if fraction == 0 then .infinite neg else .nan
  else if exponent == 0 then .finite neg fraction leastExponent
  else .finite neg (fraction + hiddenBit) ((exponent : Int) - 1075)

/-- The parts of `x`. -/
def ofFloat (x : Float) : Number := ofBits x.toBits.toNat

/-- The sign bit of a number. -/
def signBit (neg : Bool) : Nat := if neg then Nat.pow 2 63 else 0

/-- The bits of `± m · 2 ^ q`, for `m < 2 ^ 53` and `q` within the exponents of binary64. -/
def finiteBits (neg : Bool) (m : Nat) (q : Int) : Nat :=
  if m == 0 then signBit neg
  else
    let shift := Nat.min (52 - m.log2) (q - leastExponent).toNat
    let m' := m * Nat.pow 2 shift
    if m' < hiddenBit then signBit neg + m'
    else signBit neg + (m' - hiddenBit) + (q - shift + 1075).toNat * hiddenBit

/-- The number with the given parts. -/
def toFloat : Number → Float
  | .nan => Float.ofBits 0x7ff8000000000000
  | .infinite neg => Float.ofBits (UInt64.ofNat (signBit neg + 2047 * hiddenBit))
  | .finite neg m q => Float.ofBits (UInt64.ofNat (finiteBits neg m q))

/-- The remainder that keeps the dividend's sign: `x - y · t` where `t` is `x / y` cut off toward
zero. It is exact. A number left by an infinite divisor is itself. -/
def rem : Number → Number → Number
  | .finite neg m q, .finite _ m' q' =>
    let least := if q ≤ q' then q else q'
    let a := m * Nat.pow 2 (q - least).toNat
    let b := m' * Nat.pow 2 (q' - least).toNat
    if b == 0 then .nan else .finite neg (a % b) least
  | x@(.finite ..), .infinite _ => x
  | _, _ => .nan

/-- The remainder of `x` by `y`, with the sign of `x`. -/
def remainder (x y : Float) : Float := (rem (ofFloat x) (ofFloat y)).toFloat

end Number

end Treewalk
