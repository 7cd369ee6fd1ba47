import RuleLang.Grammar

/-!
Calls. What a caller may ask of a lexer and a parser that read one text together: to look at the
next token, to deliver it, or to read any construct of the grammar from here on. The answer to a
call comes from the tokens alone, so that every call can be put to any source of tokens.
-/
namespace RuleLang

open RuleLang.Parser

/-- What the items of a delimited list are read as. -/
inductive ItemReader
  | expression | operand | identifier

inductive Answer
  | done
  | flag (value : Bool)
  | character (c : Option Char)
  | text (s : String)
  | number (x : Number)
  | token (t : Option Token)
  | node (n : Node)
  | nodes (ns : List Node)

def Answer.node? : Answer → Option Node
  | .node n => some n
  | .token (some t) => some (.leaf t)
  | _ => none

def Answer.token? : Answer → Option Token
  | .token t => t
  | .node (.leaf t) => some t
  | _ => none

abbrev Outcome := Except Failure Answer

inductive Call
  | peekToken
  | nextToken
  | noTokens
  | program
  | expression
  | operand
  | group
  | block
  | declaration
  | signed
  | invocation (callee : Node)
  | bindings (left : Node) (least : Int)
  | delimited (start stop separator : String) (item : ItemReader)
  | expectPunctuation (text : String)
  | expectIdentifier
  | expectOperator (choices : List String)
  | unexpected

namespace Call

variable {σ : Type} [TokenSource σ]

def itemReader (inner : Level σ) : ItemReader → Parser σ Node
  | .expression => inner.expression
  | .operand => inner.operand
  | .identifier => Node.leaf <$> Parser.expectIdentifier

def reader (rounds : Nat) : Call → Parser σ Answer
  | peekToken => .token <$> Parser.peek
  | nextToken => .token <$> Parser.next
  | noTokens => do return .flag (← Parser.peek).isNone
  | program => .nodes <$> statements (level rounds nestingLimit).expression rounds
  | expression => .node <$> (level rounds nestingLimit).expression
  | operand => .node <$> (level rounds nestingLimit).operand
  | group => .node <$> Parser.group (level rounds nestingLimit)
  | block => .node <$> Parser.block rounds (level rounds nestingLimit)
  | declaration => .node <$> Parser.declaration rounds (level rounds nestingLimit)
  | signed => .node <$> Parser.signed (level rounds nestingLimit)
  | invocation callee =>
    .node <$> Parser.invocation rounds (level rounds nestingLimit).expression callee
  | bindings left least =>
    .node <$> Parser.bindings (level rounds nestingLimit).operand rounds left least
  | delimited start stop separator item =>
    .nodes <$> Parser.delimited rounds start stop separator
      (itemReader (level rounds nestingLimit) item)
  | expectPunctuation text => (.token ∘ some) <$> Parser.expectPunctuation text
  | expectIdentifier => (.token ∘ some) <$> Parser.expectIdentifier
  | expectOperator choices => (.token ∘ some) <$> Parser.expectOperator choices
  | unexpected => Parser.unexpected

def perform (c : Call) : Parser σ Answer := withRounds c.reader

end Call

end RuleLang
