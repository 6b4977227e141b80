import JoinGraph.Binary64

/-!
# Shortest decimal text

The decimal text of a number has the fewest digits that read back as the number, and of those the
nearest; of two that are as near, the one whose last digit is even. The digits are found on exact
integers: a finite number is `m * 2 ^ q`, and the reals that round to it reach half a unit to
either side, ends included when `m` is even.
-/

namespace JoinGraph.Binary64

/-- A positive number `centre / scale` and the reals around it that round to it. -/
structure Rounding where
  /-- The number itself, over `scale`. -/
  centre : Nat
  /-- The lower end, over `scale`. -/
  low : Nat
  /-- The upper end, over `scale`. -/
  high : Nat
  /-- The common denominator. -/
  scale : Nat
  /-- The ends round to the number as well. -/
  closed : Bool

/-- What rounds to a positive finite number. The gap below a power of two is half as wide. -/
def rounding (x : Binary64) : Rounding :=
  let field := x.magnitude.toNat / Nat.pow 2 52
  let fraction := x.magnitude.toNat % Nat.pow 2 52
  let m := if field = 0 then fraction else fraction + Nat.pow 2 52
  let up := if field = 0 then 0 else field - 1
  -- Over four times the unit in the last place, half a unit is 2 and a quarter is 1.
  let below := if fraction = 0 ∧ 1 < field then 1 else 2
  let unit := Nat.pow 2 up
  { centre := 4 * m * unit, low := (4 * m - below) * unit, high := (4 * m + 2) * unit,
    scale := Nat.pow 2 1076, closed := m % 2 = 0 }

/-- The decimal `digits * 10 ^ exponent`. -/
structure Decimal where
  /-- The digits, as one integer. -/
  digits : Nat
  /-- The power of ten. -/
  exponent : Int
deriving DecidableEq, Inhabited

namespace Rounding

/-- Both sides of a comparison with `d * 10 ^ k`, over one denominator. -/
def scaledTo (bound scale d : Nat) (k : Int) : Nat × Nat :=
  if 0 ≤ k then (bound, d * Nat.pow 10 k.toNat * scale)
  else (bound * Nat.pow 10 k.natAbs, d * scale)

/-- `d * 10 ^ k` rounds to the number. -/
def holds (r : Rounding) (d : Nat) (k : Int) : Bool :=
  let (low, v) := scaledTo r.low r.scale d k
  let (high, _) := scaledTo r.high r.scale d k
  if r.closed then low ≤ v && v ≤ high else low < v && v < high

/-- The distance from the number to `d * 10 ^ k`, over a denominator that depends on `k` alone. -/
def distance (r : Rounding) (d : Nat) (k : Int) : Nat :=
  let (centre, v) := scaledTo r.centre r.scale d k
  if v ≤ centre then centre - v else v - centre

/-- The nearest multiple of `10 ^ k` that rounds to the number, if there is one. -/
def onGrid? (r : Rounding) (k : Int) : Option Decimal :=
  let below := if 0 ≤ k then r.centre / (Nat.pow 10 k.toNat * r.scale)
    else r.centre * Nat.pow 10 k.natAbs / r.scale
  match r.holds below k, r.holds (below + 1) k with
  | true, true =>
    let nearer := match compare (r.distance below k) (r.distance (below + 1) k) with
      | .lt => below
      | .gt => below + 1
      | .eq => if below % 2 = 0 then below else below + 1
    some ⟨nearer, k⟩
  | true, false => some ⟨below, k⟩
  | false, true => some ⟨below + 1, k⟩
  | false, false => none

/-- The power of ten of the leading digit. -/
def leading (r : Rounding) : Int :=
  if r.scale ≤ r.centre then ((Nat.toDigits 10 (r.centre / r.scale)).length : Int) - 1
  else
    let shift := (List.range 400).find? fun j => decide (r.scale ≤ r.centre * Nat.pow 10 j)
    Int.negOfNat (shift.getD 400)

/-- The decimal with the fewest digits that rounds to the number. The first grid is one power of
ten above the leading digit, for a number that rounds up to such a power. -/
def shortest (r : Rounding) : Decimal :=
  ((List.range 19).findSome? fun (n : Nat) => r.onGrid? (r.leading + 1 - n)).getD ⟨0, 0⟩

end Rounding

/-- Which decimals are written out and which in exponent form. -/
structure DecimalStyle where
  /-- The largest number of digits before the point. -/
  maxWhole : Int
  /-- The largest number of zeros right after the point. -/
  maxLeadingZeros : Int
  /-- What stands in front of an exponent that is not negative. -/
  plus : String

/-- Up to sixteen digits before the point and four zeros after it are written out; an exponent has
a sign. -/
def plainStyle : DecimalStyle := ⟨16, 4, "+"⟩

/-- The text of a decimal: written out with at least one digit on either side of the point, or one
digit, the further digits after a point, and the exponent. -/
def Decimal.text (style : DecimalStyle) (d : Decimal) : String :=
  let digits := toString d.digits
  let whole := (digits.length : Int) + d.exponent
  if 0 ≤ d.exponent ∧ whole ≤ style.maxWhole then
    digits ++ String.ofList (List.replicate d.exponent.toNat '0') ++ ".0"
  else if 0 < whole ∧ whole ≤ style.maxWhole then
    String.ofList (digits.toList.take whole.toNat) ++ "."
      ++ String.ofList (digits.toList.drop whole.toNat)
  else if -style.maxLeadingZeros ≤ whole ∧ whole ≤ 0 then
    "0." ++ String.ofList (List.replicate whole.natAbs '0') ++ digits
  else
    let rest := String.ofList (digits.toList.drop 1)
    String.ofList (digits.toList.take 1) ++ (if rest = "" then "" else "." ++ rest)
      ++ "e" ++ (if 0 < whole then style.plus else "") ++ toString (whole - 1)

/-- The text of a finite number. -/
def text (x : Binary64) : String :=
  let sign := if x.isNegative then "-" else ""
  if x.isZero then sign ++ "0.0" else sign ++ (x.rounding.shortest.text plainStyle)

end JoinGraph.Binary64
