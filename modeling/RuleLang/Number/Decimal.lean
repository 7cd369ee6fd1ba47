import RuleLang.Alphabet
import RuleLang.Number.Magnitude

/-!
Decimals: a natural coefficient and a power of ten. A run of digits with at most one point
denotes a decimal if it has a digit at all; `?` functions give none otherwise. A decimal is
rounded once, from its exact value, whatever its length.
-/
namespace RuleLang

structure Decimal where
  coefficient : Nat
  exponent : Int
  deriving DecidableEq, Repr

namespace Decimal

def quotient (d : Decimal) : Nat × Nat :=
  if 0 ≤ d.exponent then (d.coefficient * Nat.pow 10 d.exponent.toNat, 1)
  else (d.coefficient, Nat.pow 10 (-d.exponent).toNat)

def magnitude? (d : Decimal) : Option Magnitude :=
  Magnitude.round? d.quotient.1 d.quotient.2

def ofDigits (cs : List Char) : Nat := Nat.ofDigitChars 10 cs 0

/-- Digits, with or without a point among them; a lone point has no value. -/
def ofNumeral? (cs : List Char) : Option Decimal :=
  let whole := cs.takeWhile Alphabet.isDigit
  match cs.dropWhile Alphabet.isDigit with
  | [] => if whole = [] then none else some ⟨ofDigits whole, 0⟩
  | c :: places =>
    if c = Alphabet.point ∧ places.all Alphabet.isDigit ∧ whole ++ places ≠ [] then
      some ⟨ofDigits (whole ++ places), -places.length⟩
    else none

def ofExponent? (cs : List Char) : Option Int :=
  let value (digits : List Char) : Option Int :=
    if digits ≠ [] ∧ digits.all Alphabet.isDigit then some (ofDigits digits) else none
  match cs with
  | '+' :: digits => value digits
  | '-' :: digits => (value digits).map (-·)
  | digits => value digits

/-- Exponents beyond four hundred places past the coefficient decide nothing more: the value
exceeds every magnitude or lies under half the least one. -/
def clampExponent (d : Decimal) : Decimal :=
  ⟨d.coefficient, max (-(d.coefficient.log2 + 400)) (min 400 d.exponent)⟩

def ofScientific? (cs : List Char) : Option Decimal :=
  let isMark (c : Char) := c = 'e' || c = 'E'
  match ofNumeral? (cs.takeWhile (!isMark ·)), cs.dropWhile (!isMark ·) with
  | some d, [] => some d
  | some d, _ :: part =>
    (ofExponent? part).map fun e => clampExponent ⟨d.coefficient, d.exponent + e⟩
  | none, _ => none

end Decimal

end RuleLang
