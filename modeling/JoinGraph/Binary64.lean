/-!
# Binary floating point numbers

The engine carries floating point literals through untouched, so a number is its 64 bits. The only
computations are equality as the standard defines it and the value of a decimal number.
-/

namespace JoinGraph

/-- A floating point number in the 64-bit binary interchange format. -/
structure Binary64 where
  /-- Sign, exponent and fraction, from the high end. -/
  bits : UInt64
deriving DecidableEq, Inhabited

namespace Binary64

/-- The bits without the sign. -/
def magnitude (x : Binary64) : UInt64 := x.bits &&& 0x7fffffffffffffff

/-- The number has the sign bit set. -/
def isNegative (x : Binary64) : Bool := decide (x.bits ≠ x.magnitude)

/-- Positive or negative zero. -/
def isZero (x : Binary64) : Bool := decide (x.magnitude = 0)

/-- Not a number. -/
def isNaN (x : Binary64) : Bool := decide (0x7ff0000000000000 < x.magnitude)

/-- Equality of values: the two zeros are equal, and a NaN equals nothing. -/
def sameValue (x y : Binary64) : Bool :=
  (x.isZero && y.isZero) || (decide (x = y) && !x.isNaN)

/-- The number with the same bits as `f`. -/
def ofFloat (f : Float) : Binary64 := ⟨f.toBits⟩

/-- The number nearest to `n`. -/
def ofInt (n : Int) : Binary64 :=
  let f := (UInt64.ofNat n.natAbs).toFloat
  ofFloat (if n < 0 then -f else f)

/-- The number nearest to `10 ^ n`. -/
def powerOfTen (n : Nat) : Float := Float.ofScientific 1 false n

/-- `f` over `10 ^ n`, divided in steps that each have a finite power of ten. -/
def divideByTens (f : Float) (n : Nat) : Float :=
  if n ≤ 308 then f / powerOfTen n
  else if f == 0.0 then f
  else divideByTens (f / powerOfTen 308) (n - 308)
termination_by n
decreasing_by omega

/-- `f` times `10 ^ n`, unless that exceeds every finite number. -/
def multiplyByTens? (f : Float) (n : Nat) : Option Float :=
  if n ≤ 308 then
    let product := f * powerOfTen n
    if product.isInf then none else some product
  else if f == 0.0 then some f
  else none

/-- The value of the decimal number `significand * 10 ^ exponent`: the significand is rounded
first, and the product or quotient with the power of ten once more. `none` when it is too large. -/
def ofDecimal? (negative : Bool) (significand : Nat) (exponent : Int) : Option Binary64 :=
  let f := (UInt64.ofNat significand).toFloat
  let scaled := if 0 ≤ exponent then multiplyByTens? f exponent.toNat
    else some (divideByTens f exponent.natAbs)
  scaled.map fun g => ofFloat (if negative then -g else g)

/-- Four bits as a hexadecimal digit. -/
def hexDigit (n : Nat) : Char := Nat.digitChar (n % 16)

/-- The bits as sixteen lower-case hexadecimal digits. -/
def hex (x : Binary64) : String :=
  String.ofList ((List.range 16).map fun i => hexDigit (x.bits.toNat / Nat.pow 16 (15 - i)))

end Binary64

end JoinGraph
