import RuleLang.Alphabet
import RuleLang.Number
import RuleLang.Position
import RuleLang.Text.Quoted

/-!
Tokens. A lexeme is what a token spells: its kind and, with it, the text or the number that it
stands for. A token adds the place where its lexeme starts. Two tokens are alike if they have
the same place and the same lexeme, numbers compared by value.
-/
namespace RuleLang

inductive Lexeme
  | string (text : String)
  | number (value : Number)
  | identifier (name : String)
  | keyword (word : String)
  | operator (text : String)
  | punctuation (text : String)
  deriving DecidableEq

namespace Lexeme

def kind : Lexeme → Kind
  | string _ => .string
  | number _ => .number
  | identifier _ => .identifier
  | keyword _ => .keyword
  | operator _ => .operator
  | punctuation _ => .punctuation

def text? : Lexeme → Option String
  | string s | identifier s | keyword s | operator s | punctuation s => some s
  | number _ => none

def ofText : Kind → String → Option Lexeme
  | .string, s => some (string s)
  | .number, s => (Number.ofText? s).map number
  | .identifier, s => some (identifier s)
  | .keyword, s => some (keyword s)
  | .operator, s => some (operator s)
  | .punctuation, s => some (punctuation s)

/-- A word is a keyword if the vocabulary says so and an identifier otherwise. -/
def ofWord (s : String) : Lexeme :=
  if s ∈ Vocabulary.keywords then keyword s else identifier s

def alike : Lexeme → Lexeme → Bool
  | number x, number y => x.alike y
  | number _, _ | _, number _ => false
  | x, y => x = y

/-- The lexemes that stand for themselves in a tree. -/
def isLeaf : Lexeme → Bool
  | string _ | number _ | identifier _ => true
  | _ => false

def valueText : Lexeme → String
  | number x => x.text
  | string s | identifier s | keyword s | operator s | punctuation s => Text.quoted s

def render (x : Lexeme) : String := "Token(" ++ x.kind.name ++ ", " ++ x.valueText ++ ")"

end Lexeme

structure Token where
  lexeme : Lexeme
  position : Position
  deriving DecidableEq

namespace Token

def kind (t : Token) : Kind := t.lexeme.kind

def alike (t u : Token) : Bool := t.lexeme.alike u.lexeme && t.position = u.position

def render (t : Token) : String := t.lexeme.render

/-- Whether a token is there, has the kind, and stands for the text if one is asked for. -/
def isA (kind : Kind) (text : Option String) : Option Token → Bool
  | none => false
  | some t => t.kind = kind && (text.isNone || t.lexeme.text? = text)

end Token

end RuleLang
