/-!
The alphabet and the fixed vocabulary of the rule language. Each class of characters is listed
in full, and membership is a test on the list, so that every class can be shown as it is
written here. The classes are plain ASCII; any other character outside a string or a comment
is illegal.
-/
namespace RuleLang

/-- The kinds of token. Their names are the tags that appear in documents. -/
inductive Kind
  | string | number | identifier | keyword | operator | punctuation
  deriving DecidableEq, Repr, Inhabited

namespace Kind

def name : Kind → String
  | string => "string"
  | number => "number"
  | identifier => "identifier"
  | keyword => "keyword"
  | operator => "operator"
  | punctuation => "punctuation"

def all : List Kind := [string, number, identifier, keyword, operator, punctuation]

def ofName? (s : String) : Option Kind := all.find? (·.name = s)

theorem ofName?_name (k : Kind) : ofName? k.name = some k := by cases k <;> decide

end Kind

namespace Alphabet

def commentMark : Char := '#'
def quote : Char := '"'
def escape : Char := '\\'
def point : Char := '.'
def lineFeed : Char := '\n'

def blanks : List Char := [' ', '\t', '\n']

def digits : List Char := ['0', '1', '2', '3', '4', '5', '6', '7', '8', '9']

def lowerLetters : List Char :=
  ['a', 'b', 'c', 'd', 'e', 'f', 'g', 'h', 'i', 'j', 'k', 'l', 'm',
   'n', 'o', 'p', 'q', 'r', 's', 't', 'u', 'v', 'w', 'x', 'y', 'z']

def upperLetters : List Char :=
  ['A', 'B', 'C', 'D', 'E', 'F', 'G', 'H', 'I', 'J', 'K', 'L', 'M',
   'N', 'O', 'P', 'Q', 'R', 'S', 'T', 'U', 'V', 'W', 'X', 'Y', 'Z']

def identifierStarts : List Char := lowerLetters ++ upperLetters ++ ['_']

def identifierChars : List Char := identifierStarts ++ digits ++ ['-', '?', '!']

def punctuationMarks : List Char := [',', ':', ';', '(', ')', '{', '}', '[', ']']

def operatorChars : List Char :=
  ['+', '-', '*', '/', '%', '=', '&', '|', '<', '>', '!', '~', '^']

def isBlank (c : Char) : Bool := c ∈ blanks
def isDigit (c : Char) : Bool := c ∈ digits
def isIdentifierStart (c : Char) : Bool := c ∈ identifierStarts
def isIdentifierChar (c : Char) : Bool := c ∈ identifierChars
def isPunctuation (c : Char) : Bool := c ∈ punctuationMarks
def isOperatorChar (c : Char) : Bool := c ∈ operatorChars

theorem isIdentifierChar_of_start {c : Char} (h : isIdentifierStart c) : isIdentifierChar c := by
  simp only [isIdentifierStart, isIdentifierChar, identifierChars, decide_eq_true_eq,
    List.mem_append] at h ⊢
  exact .inl (.inl h)

end Alphabet

namespace Vocabulary

def keywords : List String := ["rule", "conform", "true", "false"]

/-- Binding powers of the infix operators: of two neighbours the higher takes its operands
first. -/
def bindingPowers : List (String × Int) :=
  [("=", 1), ("||", 5), ("&&", 10),
   ("<", 15), (">", 15), ("<=", 15), (">=", 15), ("==", 15), ("!=", 15),
   ("+", 20), ("-", 20), ("*", 25), ("/", 25), ("%", 25)]

def bindingPower? (op : String) : Option Int :=
  (bindingPowers.find? (·.1 = op)).map (·.2)

def openParen : String := "("
def closeParen : String := ")"
def openBrace : String := "\x7b"
def closeBrace : String := "\x7d"
def comma : String := ","
def semicolon : String := ";"

def ruleWord : String := "rule"
def trueWord : String := "true"
def falseWord : String := "false"

def assignOperator : String := "="
def negateOperator : String := "-"
def timesOperator : String := "*"
def signOperators : List String := ["-", "+"]

theorem bindingPower?_mem {op : String} {n : Int} (h : bindingPower? op = some n) :
    (op, n) ∈ bindingPowers := by
  obtain ⟨⟨o, m⟩, hf, rfl⟩ := Option.map_eq_some_iff.1 h
  have ho : o = op := by simpa using List.find?_some hf
  exact ho ▸ List.mem_of_find?_eq_some hf

theorem bindingPower?_pos {op : String} {n : Int} (h : bindingPower? op = some n) : 0 < n := by
  have hall : ∀ p ∈ bindingPowers, 0 < p.2 := by decide
  exact hall _ (bindingPower?_mem h)

end Vocabulary

end RuleLang
