import RuleLang.Text.Hex
import RuleLang.Text.Printable

/-!
Quoted text, as messages and renderings show it. The quote is an apostrophe unless the text has
an apostrophe and no double quote. Inside, the quote in use and the backslash are escaped, line
feed, carriage return and tab have letters of their own, and any other character without a
visible form is written by its code point in two, four or eight hexadecimal digits.
-/
namespace RuleLang.Text

def apostrophe : Char := '\x27'

def quoteFor (cs : List Char) : Char :=
  if apostrophe ∈ cs ∧ '"' ∉ cs then '"' else apostrophe

def escaped (quote c : Char) : List Char :=
  if c = quote ∨ c = '\\' then ['\\', c]
  else if c = '\n' then ['\\', 'n']
  else if c = '\r' then ['\\', 'r']
  else if c = '\t' then ['\\', 't']
  else if Printable.isPrintable c then [c]
  else if c.toNat < 0x100 then '\\' :: 'x' :: Hex.fixed 2 c.toNat
  else if c.toNat < 0x10000 then '\\' :: 'u' :: Hex.fixed 4 c.toNat
  else '\\' :: 'U' :: Hex.fixed 8 c.toNat

def quotedChars (cs : List Char) : List Char :=
  let q := quoteFor cs
  q :: (cs.flatMap (escaped q) ++ [q])

def quoted (s : String) : String := String.ofList (quotedChars s.toList)

def quotedList (items : List String) : String :=
  "[" ++ ", ".intercalate (items.map quoted) ++ "]"

end RuleLang.Text
