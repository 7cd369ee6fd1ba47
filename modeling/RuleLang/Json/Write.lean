import RuleLang.Json
import RuleLang.Text.Hex

/-!
Writing documents. A document holds only characters from the space to the tilde and line feeds.
Every other character of a text is escaped, by a letter if it has one and otherwise by its
UTF-16 units in four hexadecimal digits. With an indentation each item stands on a line of its
own, indented by that many columns for every level, none if the number is not positive; without
one the whole document is a single line.
-/
namespace RuleLang.Json

def unit (n : Nat) : List Char := '\\' :: 'u' :: Text.Hex.fixed 4 n

def units (c : Char) : List Char :=
  if c.toNat < 0x10000 then unit c.toNat
  else
    unit (0xd800 + (c.toNat - 0x10000) / 0x400) ++ unit (0xdc00 + (c.toNat - 0x10000) % 0x400)

def escaped (c : Char) : List Char :=
  if c = '"' ∨ c = '\\' then ['\\', c]
  else if c = '\n' then ['\\', 'n']
  else if c = '\r' then ['\\', 'r']
  else if c = '\t' then ['\\', 't']
  else if c = '\x08' then ['\\', 'b']
  else if c = '\x0c' then ['\\', 'f']
  else if 0x20 ≤ c.toNat ∧ c.toNat < 0x7f then [c]
  else units c

def quoted (s : String) : String :=
  String.ofList ('"' :: (s.toList.flatMap escaped ++ ['"']))

def numeral : Number → String
  | .infinite false => "Infinity"
  | .infinite true => "-Infinity"
  | x => x.text

/-- What stands before an item at a level: a new line with its indentation, if lines are
broken. -/
def lineBreak (indent : Option Int) (level : Nat) : String :=
  match indent with
  | none => ""
  | some columns => String.ofList ('\n' :: List.replicate (columns.toNat * level) ' ')

def separator (indent : Option Int) (level : Nat) : String :=
  match indent with
  | none => ", "
  | some _ => "," ++ lineBreak indent level

/-- Items between brackets, at the level inside the brackets; no items leave nothing between
them. -/
def enclosed (indent : Option Int) (level : Nat) (opening closing : String) :
    List String → String
  | [] => opening ++ closing
  | items =>
    opening ++ lineBreak indent (level + 1)
      ++ (separator indent (level + 1)).intercalate items
      ++ lineBreak indent level ++ closing

mutual

def write (indent : Option Int) (level : Nat) : Json → String
  | null => "null"
  | bool value => if value then "true" else "false"
  | number value => numeral value
  | text value => quoted value
  | array items => enclosed indent level "[" "]" (writeAll indent (level + 1) items)
  | object pairs => enclosed indent level "\x7b" "\x7d" (writePairs indent (level + 1) pairs)

def writeAll (indent : Option Int) (level : Nat) : List Json → List String
  | [] => []
  | j :: js => write indent level j :: writeAll indent level js

def writePairs (indent : Option Int) (level : Nat) : List (String × Json) → List String
  | [] => []
  | (key, j) :: rest => (quoted key ++ ": " ++ write indent level j) :: writePairs indent level rest

end

def document (indent : Option Int) (j : Json) : String := write indent 0 j

end RuleLang.Json
