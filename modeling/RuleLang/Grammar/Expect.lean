import RuleLang.Node
import RuleLang.TokenSource

/-!
Single tokens of the grammar. Each reader looks at the next token, takes it if it is the one
asked for, and fails in its place otherwise, taking nothing.
-/
namespace RuleLang

abbrev Parser (σ : Type) := EStateM Failure σ

namespace Parser

variable {σ : Type} [TokenSource σ] {α : Type}

def peek : Parser σ (Option Token) := TokenSource.peek

def next : Parser σ (Option Token) := TokenSource.next

def failAt (position : Position) (cause : Cause) : Parser σ α :=
  throw (.malformed ⟨position, cause⟩)

def fail (cause : Cause) : Parser σ α := do failAt (TokenSource.here (← get)) cause

/-- Fails because no tree starts or goes on with the next token. -/
def unexpected : Parser σ α := do
  match ← peek with
  | none => fail .endOfInput
  | some t => fail (.unexpected t.lexeme)

def expect (wanted : Lexeme → Bool) (cause : Cause) : Parser σ Token := do
  match ← peek with
  | none => fail cause
  | some t =>
    if wanted t.lexeme then do
      let _ ← next
      return t
    else fail cause

def expectPunctuation (text : String) : Parser σ Token :=
  expect (· = .punctuation text) (.expectedPunctuation text)

def expectIdentifier : Parser σ Token := expect (·.kind = .identifier) .expectedIdentifier

def isOperatorAmong (choices : List String) : Lexeme → Bool
  | .operator text => text ∈ choices
  | _ => false

def expectOperator (choices : List String) : Parser σ Token :=
  expect (isOperatorAmong choices) (.expectedOperator choices)

end Parser

end RuleLang
