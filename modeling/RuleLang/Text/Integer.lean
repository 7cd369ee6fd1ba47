/-!
Integers as people type them: blanks around, a sign, decimal digits of any script, and single
low lines between digits. A digit's value is its distance from the zero of its script; the
zeros are those of Unicode 14. The four ASCII separators are no blanks here. Numerals of more
than 4300 digits are refused.
-/
namespace RuleLang.Text

def zeros : List Nat :=
  [0x30, 0x660, 0x6f0, 0x7c0, 0x966, 0x9e6, 0xa66, 0xae6, 0xb66, 0xbe6, 0xc66, 0xce6, 0xd66,
   0xde6, 0xe50, 0xed0, 0xf20, 0x1040, 0x1090, 0x17e0, 0x1810, 0x1946, 0x19d0, 0x1a80, 0x1a90,
   0x1b50, 0x1bb0, 0x1c40, 0x1c50, 0xa620, 0xa8d0, 0xa900, 0xa9d0, 0xa9f0, 0xaa50, 0xabf0,
   0xff10, 0x104a0, 0x10d30, 0x11066, 0x110f0, 0x11136, 0x111d0, 0x112f0, 0x11450, 0x114d0,
   0x11650, 0x116c0, 0x11730, 0x118e0, 0x11950, 0x11c50, 0x11d50, 0x11da0, 0x16a60, 0x16ac0,
   0x16b50, 0x1d7ce, 0x1d7d8, 0x1d7e2, 0x1d7ec, 0x1d7f6, 0x1e140, 0x1e2f0, 0x1e950, 0x1fbf0]

def digitValue? (c : Char) : Option Nat :=
  (zeros.find? fun z => z ≤ c.toNat && c.toNat < z + 10).map (c.toNat - ·)

def isDigit (c : Char) : Bool := (digitValue? c).isSome

def isBlank (c : Char) : Bool :=
  let n := c.toNat
  (0x9 ≤ n && n ≤ 0xd) || n = 0x20 || n = 0x85 || n = 0xa0 || n = 0x1680
    || (0x2000 ≤ n && n ≤ 0x200a) || n = 0x2028 || n = 0x2029 || n = 0x202f || n = 0x205f
    || n = 0x3000

def digitLimit : Nat := 4300

/-- The digits of a numeral, each after the first with or without a low line before it. -/
def numeralDigits? : List Char → Option (List Nat)
  | [] => none
  | c :: rest => do
    let d ← digitValue? c
    match rest with
    | [] => return [d]
    | '_' :: more => return d :: (← numeralDigits? more)
    | more => return d :: (← numeralDigits? more)

def natural? (cs : List Char) : Option Nat := do
  let digits ← numeralDigits? cs
  if digitLimit < digits.length then none
  else some (digits.foldl (fun n d => 10 * n + d) 0)

def trimmed (cs : List Char) : List Char :=
  ((cs.dropWhile isBlank).reverse.dropWhile isBlank).reverse

def integer? (s : String) : Option Int :=
  match trimmed s.toList with
  | '-' :: cs => (natural? cs).map fun n => -(n : Int)
  | '+' :: cs => (natural? cs).map Int.ofNat
  | cs => (natural? cs).map Int.ofNat

end RuleLang.Text
