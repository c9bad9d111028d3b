import OklchGate.Number.Binary64
import OklchGate.Text

/-!
# Numbers with a fixed number of places

A number is rounded to the nearest multiple of a power of ten and written
with a decimal point.

* `roundDiv` rounds a quotient of naturals, and `Tie` says where a half goes.
* `Dyadic.roundTo` gives the size of a number in units of the last place.
* `fixedText` writes every place and `shortText` leaves out zeros at the end.
-/

namespace OklchGate

/-- Ten to the power of `n`. -/
def tenTo (n : Nat) : Nat := Nat.pow 10 n

/-- Where a quotient halfway between two integers goes. -/
inductive Tie where
  | awayFromZero
  | toEven
  deriving DecidableEq, Repr

/-- The integer nearest to `num / den`. -/
def roundDiv (tie : Tie) (num den : Nat) : Nat :=
  let quotient := num / den
  let twice := 2 * (num % den)
  if twice < den then quotient
  else if den < twice then quotient + 1
  else
    match tie with
    | .awayFromZero => quotient + 1
    | .toEven => if quotient % 2 = 0 then quotient else quotient + 1

/-- The size of a number in units of its last place, rounded. -/
def Dyadic.roundTo (x : Dyadic) (tie : Tie) (places : Nat) : Nat :=
  roundDiv tie (x.numerator * tenTo places) x.denominator

/-- A minus sign, for a negative number that does not round to zero. -/
def signText (negative : Bool) (units : Nat) : Text :=
  if negative && units ≠ 0 then ['-'] else []

/-- The digits after the point, `places` of them. -/
def fractionDigits (places units : Nat) : Text :=
  let digits := Text.ofNat (units % tenTo places)
  List.replicate (places - digits.length) '0' ++ digits

/-- A number of units of the last place with all its places. -/
def fixedText (places : Nat) (negative : Bool) (units : Nat) : Text :=
  signText negative units ++ Text.ofNat (units / tenTo places) ++
    '.' :: fractionDigits places units

/-- A number of units of the last place without zeros at the end of its
fraction. -/
def shortText (places : Nat) (negative : Bool) (units : Nat) : Text :=
  let fraction :=
    ((fractionDigits places units).reverse.dropWhile (· = '0')).reverse
  signText negative units ++ Text.ofNat (units / tenTo places) ++
    (if fraction.isEmpty then [] else '.' :: fraction)

/-- A number with a fixed number of places, where a half goes to the even
neighbour. -/
def Binary64.fixed (places : Nat) : Binary64 → Text
  | finite x => fixedText places x.negative (x.roundTo .toEven places)
  | infinite negative => (if negative then ['-'] else []) ++ ['i', 'n', 'f']
  | nan => ['n', 'a', 'n']

end OklchGate
