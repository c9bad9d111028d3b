import OklchGate.Text.Digit

/-!
# Decimal numerals in a text

The parts that numerals are made of.  Each function answers how many
characters a part takes at the start of a text, and zero when it is not there.
-/

namespace OklchGate

/-- The number of digits at the start of a text. -/
def digitLength (text : Text) : Nat := (text.takeWhile isDigit).length

/-- The length of a sign at the start of a text. -/
def signLength : Text → Nat
  | c :: _ => if c = '+' ∨ c = '-' then 1 else 0
  | [] => 0

/-- The length of a point with the digits after it, or zero if no digit
follows a point. -/
def fractionLength : Text → Nat
  | '.' :: rest =>
    let digits := digitLength rest
    if 0 < digits then 1 + digits else 0
  | _ => 0

/-- The length of an exponent with its mark, or zero if it has no digit. -/
def exponentLength : Text → Nat
  | c :: rest =>
    let sign := signLength rest
    let digits := digitLength (rest.drop sign)
    if (c = 'e' ∨ c = 'E') ∧ 0 < digits then 1 + sign + digits else 0
  | [] => 0

/-- The number that a text of digits writes. -/
def digitsValue (digits : Text) : Nat :=
  digits.foldl (fun n c => 10 * n + (c.toNat - 48)) 0

end OklchGate
