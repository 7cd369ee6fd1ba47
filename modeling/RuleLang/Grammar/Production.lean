import RuleLang.Grammar.Expect

/-!
The productions of the grammar. Each is given the level of the constructs inside it, that is, a
reader of operands and one of expressions, and a number of rounds that no loop exceeds. An
operand is an atom and, directly after it, at most one argument list; an atom with a sign is an
operand inside an operand. An expression is a chain of operands joined by infix operators, which
bind by their powers and, among equals, to the left; one more argument list may follow the whole
chain.
-/
namespace RuleLang.Parser

open Vocabulary

variable {σ : Type} [TokenSource σ] {α : Type}

inductive Opening
  | group | braces | declaration | sign | truth (value : Bool) | leaf | none
  deriving DecidableEq

def Opening.of (x : Lexeme) : Opening :=
  if x = .punctuation openParen then group
  else if x = .punctuation openBrace then braces
  else if x = .keyword ruleWord then declaration
  else if isOperatorAmong signOperators x then sign
  else if x = .keyword trueWord then truth true
  else if x = .keyword falseWord then truth false
  else if x.isLeaf then leaf
  else none

/-- What a sign may stand before. -/
def takesSign : Lexeme → Bool
  | .number _ | .identifier _ => true
  | x => x = .punctuation openParen

/-- The items of a list up to its stop, which is left to be read. After the first item a
separator comes before each, and the last may have one behind it. -/
def items (stop separator : String) (item : Parser σ α) : Nat → Bool → Parser σ (List α)
  | 0, _ => throw .exhausted
  | rounds + 1, first => do
    let t ← peek
    if t.isNone || t.any (·.lexeme = .punctuation stop) then
      return []
    unless first do
      let _ ← expectPunctuation separator
    if (← peek).any (·.lexeme = .punctuation stop) then
      return []
    let x ← item
    return x :: (← items stop separator item rounds false)

def delimited (rounds : Nat) (start stop separator : String) (item : Parser σ α) :
    Parser σ (List α) := do
  let _ ← expectPunctuation start
  let xs ← items stop separator item rounds true
  let _ ← expectPunctuation stop
  return xs

def operatorText? : Option Token → Option String
  | some ⟨.operator text, _⟩ => some text
  | _ => none

/-- Reads on after `left` while infix operators bind more tightly than `least`. -/
def bindings (operand : Parser σ Node) : Nat → Node → Int → Parser σ Node
  | 0, _, _ => throw .exhausted
  | rounds + 1, left, least => do
    match operatorText? (← peek) with
    | none => return left
    | some op =>
      match bindingPower? op with
      | none => fail (.unknownOperator op)
      | some power =>
        if power ≤ least then return left
        let _ ← next
        let right ← bindings operand rounds (← operand) power
        bindings operand rounds (Node.joined op left right) least

/-- A call of the node if an argument list follows, otherwise the node. -/
def invocation (rounds : Nat) (argument : Parser σ Node) (node : Node) : Parser σ Node := do
  if (← peek).any (·.lexeme = .punctuation openParen) then
    return .call node (← delimited rounds openParen closeParen comma argument)
  return node

/-- Readers of what stands inside a construct. -/
structure Level (σ : Type) where
  operand : Parser σ Node
  expression : Parser σ Node

variable (rounds : Nat) (inner : Level σ)

def group : Parser σ Node := do
  let _ ← expectPunctuation openParen
  let node ← inner.expression
  let _ ← expectPunctuation closeParen
  return node

def block : Parser σ Node := do
  return .sequence (← delimited rounds openBrace closeBrace semicolon inner.expression)

def name? : Parser σ (Option String) := do
  if (← peek).any (·.kind = .identifier) then
    return (← expectIdentifier).lexeme.text?
  return none

def firstRepeated? (earlier : List (Option String)) : List Token → Option Token
  | [] => none
  | t :: ts =>
    if t.lexeme.text? ∈ earlier then some t
    else firstRepeated? (earlier ++ [t.lexeme.text?]) ts

def parameters : Parser σ (List String) := do
  unless (← peek).any (·.lexeme = .punctuation openParen) do
    fail .missingParameters
  let params ← delimited rounds openParen closeParen comma expectIdentifier
  match firstRepeated? [] params with
  | some t => failAt t.position (.duplicateParameter (t.lexeme.text?.getD ""))
  | none => return params.filterMap (·.lexeme.text?)

/-- A declaration of a rule, whose first token is not looked at. -/
def declaration : Parser σ Node := do
  let _ ← next
  let name ← name?
  let params ← parameters rounds
  unless (← peek).any (·.lexeme = .punctuation openBrace) do
    fail .missingBody
  return .rule name params (← block rounds inner)

/-- A signed operand: a minus multiplies by minus one, which has the place of the sign. -/
def signed : Parser σ Node := do
  let sign ← expectOperator signOperators
  unless (← peek).any (takesSign ·.lexeme) do
    fail .expectedSigned
  let node ← inner.operand
  if sign.lexeme = .operator negateOperator then
    return .binary timesOperator (.leaf ⟨.number .minusOne, sign.position⟩) node
  return node

def atom : Parser σ Node := do
  match ← peek with
  | none => unexpected
  | some t =>
    match Opening.of t.lexeme with
    | .group => group inner
    | .braces => block rounds inner
    | .declaration => declaration rounds inner
    | .sign => signed inner
    | .truth value => do
      let _ ← next
      return .truth value
    | .leaf => do
      let _ ← next
      return .leaf t
    | .none => unexpected

def operand : Parser σ Node := do
  invocation rounds inner.expression (← atom rounds inner)

def expression (operand : Parser σ Node) : Parser σ Node := do
  let chain ← bindings operand rounds (← operand) 0
  invocation rounds inner.expression chain

end RuleLang.Parser
