import XmlWriter.Text.Basic
import XmlWriter.Number.Binary64

/-!
# The shortest decimal of a number, and its text

`Decimal.shortest` finds the decimal with the fewest digits that is rounded back to a given number,
and of those the nearest. It tries grids of one, two, … seventeen digits: on each grid only the two
neighbours of the number need be looked at, and seventeen digits always suffice. `Binary64.text`
lays the digits out: positionally while the point is near them, else with an exponent of ten.
-/

namespace XmlWriter

/-- The decimal `digits · 10^exponent`. -/
structure Decimal where
  digits : Nat
  exponent : Int
  deriving DecidableEq, Repr

namespace Decimal

/-- A power of ten. -/
def pow10 (k : Nat) : Nat := Nat.pow 10 k

/-- The decimal as a numerator and a denominator. -/
def fraction (d : Decimal) : Nat × Nat :=
  match d.exponent with
  | .ofNat e => (d.digits * pow10 e, 1)
  | .negSucc e => (d.digits, pow10 (e + 1))

/-- The number nearest to a decimal. -/
def toBinary64 (d : Decimal) : Binary64 :=
  Binary64.round (d.fraction.1 : Int) d.fraction.2

/-- The same decimal without zeros at its end; `fuel` bounds their number. -/
def trimmed : Nat → Decimal → Decimal
  | 0, d => d
  | fuel + 1, d =>
    if d.digits % 10 = 0 then trimmed fuel ⟨d.digits / 10, d.exponent + 1⟩ else d

/-- How many zeros follow the point of `n / 2^scale` before its first digit, for a positive fraction
below one. There are fewer than `scale` of them, which is what the fuel is. -/
def leadingZeros (n scale : Nat) : Nat → Nat
  | 0 => 0
  | fuel + 1 => if n * 10 < 1 <<< scale then leadingZeros (n * 10) scale fuel + 1 else 0

/-- The `p` for which `n / 2^scale` lies between `10^(p-1)` and `10^p`: the place of the point
relative to the first digit. -/
def pointPlace (n scale : Nat) : Int :=
  if n < 1 <<< scale then -(leadingZeros n scale scale : Int)
  else ((Nat.toDigits 10 (n >>> scale)).length : Int)

/-- `n / 2^scale` counted in units of `10^exponent`, as a numerator and a denominator. -/
def inUnits (n scale : Nat) : Int → Nat × Nat
  | .ofNat e => (n, (1 <<< scale) * pow10 e)
  | .negSucc e => (n * pow10 (e + 1), 1 <<< scale)

/-- The decimal with `count` digits that is rounded back to `n / 2^scale`, if there is one. Of two
the nearer is taken, and of two equally near ones the one with the even last digit. -/
def withDigits? (n scale count : Nat) : Option Decimal :=
  let exponent := pointPlace n scale - count
  let (a, b) := inUnits n scale exponent
  let low : Decimal := ⟨a / b, exponent⟩
  let high : Decimal := ⟨a / b + 1, exponent⟩
  let readsBack (d : Decimal) : Bool := d.toBinary64.isFraction n scale
  match readsBack low, readsBack high with
  | true, true => some (if Binary64.nearestToEven a b = a / b then low else high)
  | true, false => some low
  | false, true => some high
  | false, false => none

/-- The shortest decimal that is rounded back to the positive number `n / 2^scale`. -/
def shortest (n scale : Nat) : Decimal :=
  let found := ((List.range 17).findSome? fun k => withDigits? n scale (k + 1)).getD ⟨n, 0⟩
  trimmed 17 found

end Decimal

/-- How a decimal is laid out: up to how many digits before the point, and up to how many zeros
after it, are written before an exponent is used. -/
structure Layout where
  wholeDigits : Nat
  leadingZeros : Nat
  deriving DecidableEq, Repr

namespace Layout

/-- Digits of a whole number. -/
def digitText (n : Nat) : Text := Text.ofChars (Nat.toDigits 10 n)

/-- A run of zeros. -/
def zeros (n : Nat) : Text := List.replicate n (Text.unit '0')

/-- A whole number with its sign. -/
def intText (k : Int) : Text :=
  if k < 0 then Text.unit '-' :: digitText k.natAbs else digitText k.natAbs

/-- The exponent of ten, with a sign in either case. -/
def exponentText (e : Int) : Text :=
  Text.ofString (if e < 0 then "e-" else "e+") ++ digitText e.natAbs

/-- The text of a positive decimal. -/
def decimalText (layout : Layout) (d : Decimal) : Text :=
  let digits := digitText d.digits
  let place : Int := (digits.length : Int) + d.exponent
  if 0 < place ∧ place ≤ (layout.wholeDigits : Int) then
    if 0 ≤ d.exponent then digits ++ zeros d.exponent.toNat
    else digits.take place.toNat ++ Text.ofString "." ++ digits.drop place.toNat
  else if place ≤ 0 ∧ -place ≤ (layout.leadingZeros : Int) then
    Text.ofString "0." ++ zeros (-place).toNat ++ digits
  else
    match digits with
    | first :: second :: rest =>
      first :: Text.unit '.' :: second :: rest ++ exponentText (place - 1)
    | short => short ++ exponentText (place - 1)

end Layout

/-- The text of a number. A whole number within the limit of exact counting is written in full:
its neighbours are at most one away, so every digit counts. Any other fraction is written as its
shortest decimal. -/
def Binary64.text (layout : Layout) : Binary64 → Text
  | .undefined => Text.ofString "NaN"
  | .infinite negative => Text.ofString (if negative then "-Infinity" else "Infinity")
  | .finite num scale _ =>
    if scale = 0 ∧ num.natAbs ≤ Binary64.exactLimit then Layout.intText num
    else
      let positive := layout.decimalText (Decimal.shortest num.natAbs scale)
      if num < 0 then Text.unit '-' :: positive else positive

end XmlWriter
