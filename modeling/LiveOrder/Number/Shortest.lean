import LiveOrder.Number.Binary

/-!
# The fewest decimal digits that read back

A positive finite number is `mantissa * 2 ^ power`.  Every real in an interval around it rounds to
it; a decimal `digits * 10 ^ scale` in that interval reads back as the number.

* `Binary.ofBits`   mantissa, power and the shape of the interval;
* `Binary.holds`    membership of a decimal in the interval, by exact arithmetic on naturals;
* `Binary.onGrid`   the neighbour of the number on the grid of `n` digits that reads back;
* `Binary.shortest`   the first grid with a hit;
* `Number.text`     the digits written out in positional notation, never with an exponent.

If some point of a grid lies in the interval then so does one of the two neighbours of the number
on that grid, so looking at the neighbours is enough.
-/

namespace LiveOrder.Number

/-- A positive number `mantissa * 2 ^ power`.  Below it the next number is half as far when
`narrow` holds (the mantissa is a power of two and the gap below is smaller). -/
structure Binary where
  mantissa : Nat
  power : Int
  narrow : Bool
  deriving Repr, DecidableEq

/-- A decimal `digits * 10 ^ scale`. -/
structure Decimal where
  digits : Nat
  scale : Int
  deriving Repr, DecidableEq

namespace Binary

def ofBits (b : UInt64) : Binary :=
  if exponent b = 0 then ⟨fraction b, -1074, false⟩
  else ⟨fraction b + 1 <<< 52, (exponent b : Int) - 1075, fraction b = 0 && exponent b > 1⟩

/-- Numerator and denominator of `a * base ^ e`. -/
def ratio (base a : Nat) (e : Int) : Nat × Nat :=
  if 0 ≤ e then (a * base.pow e.toNat, 1) else (a, base.pow (-e).toNat)

/-- The decimal rounds to the number.  In quarters of the last place the interval reaches from
`4 m - 2` (or `4 m - 1`) to `4 m + 2`; its ends belong to it when the mantissa is even. -/
def holds (x : Binary) (d : Decimal) : Bool :=
  let (dn, dd) := ratio 10 d.digits d.scale
  let low := 4 * x.mantissa - (if x.narrow then 1 else 2)
  let high := 4 * x.mantissa + 2
  let (ln, ld) := ratio 2 low (x.power - 2)
  let (hn, hd) := ratio 2 high (x.power - 2)
  if x.mantissa % 2 = 0 then ln * dd ≤ dn * ld && dn * hd ≤ hn * dd
  else ln * dd < dn * ld && dn * hd < hn * dd

/-- The exponent of the first decimal digit: the greatest `e` with `10 ^ e` at most the number.
Every positive number is at least `10 ^ -324`. -/
def lead (x : Binary) : Int :=
  let (n, d) := ratio 2 x.mantissa x.power
  ((Nat.toDigits 10 (n * Nat.pow 10 330 / d)).length : Int) - 331

/-- The neighbour of the number on the grid of `n` digits that reads back; of two, the nearer,
and the upper one when they are equally near. -/
def onGrid (x : Binary) (n : Nat) : Option Decimal :=
  let scale := x.lead + 1 - n
  let (num, den) := ratio 2 x.mantissa x.power
  let (sn, sd) := ratio 10 1 scale
  let below := num * sd / (den * sn)
  let rest := num * sd % (den * sn)
  let low : Decimal := ⟨below, scale⟩
  let high : Decimal := ⟨below + 1, scale⟩
  match x.holds low, x.holds high with
  | true, true => if 2 * rest < den * sn then some low else some high
  | true, false => some low
  | false, true => some high
  | false, false => none

/-- Seventeen digits always read back, so the last resort is not reached. -/
def shortest (x : Binary) : Decimal :=
  ((List.range 17).findSome? fun i => x.onGrid (i + 1)).getD ⟨x.mantissa, 0⟩

end Binary

/-! ## positional notation -/

namespace Decimal

/-- Digits without the zeros at their end, and how many were taken away. -/
def trim : List Char → List Char × Nat
  | [] => ([], 0)
  | c :: cs =>
    match trim cs with
    | ([], k) => if c = '0' then ([], k + 1) else ([c], k)
    | (ds, k) => (c :: ds, k)

/-- A decimal in positional notation, with a point only before a digit that is not zero. -/
def text (d : Decimal) : String :=
  let (ds, k) := trim (Nat.toDigits 10 d.digits)
  let scale := d.scale + k
  if 0 ≤ scale then String.ofList (ds ++ List.replicate scale.toNat '0')
  else
    let places := (-scale).toNat
    if places < ds.length then
      String.ofList (ds.take (ds.length - places) ++ '.' :: ds.drop (ds.length - places))
    else
      String.ofList ('0' :: '.' :: (List.replicate (places - ds.length) '0' ++ ds))

end Decimal

/-- A number with the fewest digits that read back. -/
def text (b : UInt64) : String :=
  if isNaN b then "NaN"
  else
    let magnitude :=
      if isInfinite b then "inf"
      else if isZero b then "0"
      else (Binary.ofBits b).shortest.text
    if negative b then "-" ++ magnitude else magnitude

end LiveOrder.Number
