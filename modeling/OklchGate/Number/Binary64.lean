/-!
# Exact values of binary64 numbers

A finite binary64 number is a dyadic rational, and everything that is printed
or compared here starts from that exact value.

* `Dyadic` is a sign, a mantissa and an exponent of two.  `Dyadic.lt` compares
  the sizes of two of them.
* `Binary64.ofFloat` reads the sixty-four bits of a number.
-/

namespace OklchGate

/-- Two to the power of `n`. -/
def twoTo (n : Nat) : Nat := Nat.pow 2 n

/-- The number `mantissa * 2 ^ exponent`, with a minus sign if `negative`. -/
structure Dyadic where
  negative : Bool
  mantissa : Nat
  exponent : Int
  deriving DecidableEq, Repr

namespace Dyadic

/-- The numerator of the size of a number as a fraction of naturals. -/
def numerator (x : Dyadic) : Nat := x.mantissa * twoTo x.exponent.toNat

/-- The denominator of the size of a number as a fraction of naturals. -/
def denominator (x : Dyadic) : Nat := twoTo (-x.exponent).toNat

/-- The size of `x` is below the size of `y`. -/
def sizeLt (x y : Dyadic) : Bool :=
  x.numerator * y.denominator < y.numerator * x.denominator

end Dyadic

/-- What a binary64 number can be. -/
inductive Binary64 where
  | finite (value : Dyadic)
  | infinite (negative : Bool)
  | nan
  deriving DecidableEq, Repr

namespace Binary64

/-- The number with the given sign bit, eleven exponent bits and fifty-two
fraction bits. -/
def ofParts (negative : Bool) (exponent fraction : Nat) : Binary64 :=
  if exponent = 2047 then
    if fraction = 0 then infinite negative else nan
  else if exponent = 0 then finite ⟨negative, fraction, -1074⟩
  else finite ⟨negative, twoTo 52 + fraction, (exponent : Int) - 1075⟩

/-- The number with the given sixty-four bits. -/
def ofBits (bits : Nat) : Binary64 :=
  ofParts (bits / twoTo 63 % 2 = 1) (bits / twoTo 52 % 2048) (bits % twoTo 52)

/-- The exact value of a number of the machine. -/
def ofFloat (x : Float) : Binary64 := ofBits x.toBits.toNat

end Binary64

end OklchGate
