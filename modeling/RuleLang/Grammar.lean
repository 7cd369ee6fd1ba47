import RuleLang.Grammar.Production

/-!
Reading programs. Constructs may stand inside one another up to a limit; what lies deeper is
refused without being read. A program is a sequence of expressions with semicolons between them
and, if it has any, at most one behind the last.
-/
namespace RuleLang.Parser

open Vocabulary

variable {σ : Type} [TokenSource σ]

def nestingLimit : Nat := 1000

/-- Readers for what stands inside at most so many constructs. -/
def level (rounds : Nat) : Nat → Level σ
  | 0 => ⟨fail .nestingTooDeep, fail .nestingTooDeep⟩
  | depth + 1 =>
    let inner := level rounds depth
    ⟨operand rounds inner, expression rounds inner (operand rounds inner)⟩

def statements (statement : Parser σ Node) : Nat → Parser σ (List Node)
  | 0 => throw .exhausted
  | left + 1 => do
    if (← peek).isNone then return []
    let node ← statement
    unless (← peek).isNone do
      let _ ← expectPunctuation semicolon
    return node :: (← statements statement left)

/-- Runs a reader with as many rounds as there can be tokens, and one to see the end. -/
def withRounds {α : Type} (reader : Nat → Parser σ α) : Parser σ α := do
  reader (TokenSource.size (← get) + 1)

def program (limit : Nat) : Parser σ (List Node) :=
  withRounds fun rounds => statements (level rounds limit).expression rounds

end RuleLang.Parser

namespace RuleLang

def parse (source : List Char) : Except Failure (List Node) :=
  match Parser.program Parser.nestingLimit (Lexer.ofChars source) with
  | .ok nodes _ => .ok nodes
  | .error e _ => .error e

/-- The trees of a scan, read from its finished list of tokens. -/
def Scan.parse (s : Scan) : Except Failure (List Node) :=
  match Parser.program Parser.nestingLimit s with
  | .ok nodes _ => .ok nodes
  | .error e _ => .error e

end RuleLang
