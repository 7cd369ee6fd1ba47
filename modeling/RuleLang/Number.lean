import RuleLang.Number.Shortest

/-!
The numbers of the rule language: signed magnitudes and the two infinities. A decimal too large
for a magnitude becomes infinite. The written form has the fewest digits that read back;
exponents from -4 up to 15 are written out with at least one place, and all others with a sign
and two digits or more after an e.
-/
namespace RuleLang

inductive Number
  | finite (negative : Bool) (magnitude : Magnitude)
  | infinite (negative : Bool)
  deriving DecidableEq

/-- How a decimal is laid out: which exponents are written out, and what stands for them
otherwise. -/
structure DecimalLayout where
  leastPlain : Int
  plainLimit : Int
  exponentMark : String
  exponentWidth : Nat

namespace DecimalLayout

def padded (width n : Nat) : List Char :=
  let digits := Nat.toDigits 10 n
  List.replicate (width - digits.length) '0' ++ digits

def write (style : DecimalLayout) (digits : List Char) (point : Int) : String :=
  let exponent := point - 1
  if style.leastPlain ≤ exponent ∧ exponent < style.plainLimit then
    if point ≤ 0 then
      String.ofList ("0.".toList ++ List.replicate (-point).toNat '0' ++ digits)
    else if digits.length ≤ point.toNat then
      String.ofList (digits ++ List.replicate (point.toNat - digits.length) '0' ++ ".0".toList)
    else
      String.ofList (digits.take point.toNat ++ '.' :: digits.drop point.toNat)
  else
    let significand := match digits with
      | [] => []
      | [d] => [d]
      | d :: ds => d :: '.' :: ds
    let sign := if exponent < 0 then '-' else '+'
    String.ofList (significand ++ style.exponentMark.toList
      ++ sign :: padded style.exponentWidth exponent.natAbs)

end DecimalLayout

namespace Number

def layout : DecimalLayout := ⟨-4, 16, "e", 2⟩

def minusOne : Number := finite true .one

/-- What a value rounds to if it rounds to a magnitude at all. -/
def ofRounded (negative : Bool) : Option Magnitude → Number
  | some m => finite negative m
  | none => infinite negative

def ofDecimal (negative : Bool) (d : Decimal) : Number := ofRounded negative d.magnitude?

def alike : Number → Number → Bool
  | finite a m, finite b n => m = n && (a = b || m.units = 0)
  | infinite a, infinite b => a = b
  | _, _ => false

def magnitudeText (m : Magnitude) : String :=
  if m.units = 0 then "0.0"
  else
    let d := m.shortest
    let digits := Nat.toDigits 10 d.coefficient
    let kept := (digits.reverse.dropWhile (· = '0')).reverse
    layout.write kept (digits.length + d.exponent)

def text : Number → String
  | finite false m => magnitudeText m
  | finite true m => "-" ++ magnitudeText m
  | infinite false => "inf"
  | infinite true => "-inf"

/-- A signed decimal, with or without an exponent, or an infinity by name in letters of either
case. -/
def ofText? (s : String) : Option Number :=
  let unsigned (negative : Bool) (cs : List Char) : Option Number :=
    if cs.map Char.toLower = "inf".toList ∨ cs.map Char.toLower = "infinity".toList then
      some (infinite negative)
    else (Decimal.ofScientific? cs).map (ofDecimal negative)
  match s.toList with
  | '-' :: cs => unsigned true cs
  | '+' :: cs => unsigned false cs
  | cs => unsigned false cs

end Number

end RuleLang
