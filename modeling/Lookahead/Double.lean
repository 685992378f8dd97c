/-!
# Doubles

The numbers that 64 binary digits hold: 53 significant binary digits, none beneath 2⁻¹⁰⁷⁴,
everything from 2¹⁰²⁴ infinite. `Double.ofDecimal` reads a decimal as the nearest of them. Every
finite one is a whole number of units of 2⁻¹⁰⁷⁴ and is kept as that number, so that equal values
are equal terms; a zero has no sign.
-/

namespace Lookahead

inductive Double where
  /-- The value `units · 2⁻¹⁰⁷⁴`. -/
  | finite (units : Int)
  | infinite (negative : Bool)
deriving DecidableEq

namespace Double

/-- The number of units in a one. -/
def one : Nat := Nat.pow 2 1074

/-- From this number of units on a double is infinite. -/
def limit : Nat := Nat.pow 2 2098

/-- The whole number nearest to `num / den`, of two equally near ones the even one. -/
def roundHalfEven (num den : Nat) : Nat :=
  let rest := 2 * (num % den)
  if rest < den then num / den
  else if den < rest then num / den + 1
  else num / den + num / den % 2

/-- How many binary digits of `num / den` are left out, for 53 to stay. -/
def surplus (num den : Nat) : Nat := (num / den).log2 - 52

/-- The number nearest to `num / den` that is whole and has 53 significant binary digits. -/
def rounded (num den : Nat) : Nat :=
  let step := Nat.pow 2 (surplus num den)
  roundHalfEven num (den * step) * step

/-- The double nearest to `num / den`. -/
def nearest (num : Int) (den : Nat) : Double :=
  let units := rounded (num.natAbs * one) den
  if units < limit then finite (num.sign * units) else infinite (num < 0)

/-- The double nearest to `digits · 10ᵉˣᵖᵒⁿᵉⁿᵗ`. Larger exponents than those taken here leave the
infinite infinite, and smaller ones leave the zero zero. -/
def ofDecimal (digits exponent : Int) : Double :=
  let up := min exponent.toNat 309
  let down := min (-exponent).toNat (digits.natAbs.log2 + 1077)
  nearest (digits * Int.ofNat (Nat.pow 10 up)) (Nat.pow 10 down)

/-- Whether a double is the whole number `n`. -/
def isWhole (n : Int) : Double → Bool
  | finite units => units == n * Int.ofNat one
  | infinite _ => false

end Double

end Lookahead
