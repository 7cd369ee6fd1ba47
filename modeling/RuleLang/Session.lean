import RuleLang.Call

/-!
Sessions. A session reads one text step by step: characters, tokens and trees, in any order. The
steps share the cursor and the token read ahead, and a step that fails leaves them as the
failure did. A step can refer to the answer of an earlier one.
-/
namespace RuleLang

inductive Step
  | peekChar
  | nextChar
  | atEnd
  | failHere (message : String) (line column : Option Int)
  | peekToken
  | nextToken
  | readToken
  | noTokens
  | failAtToken (message : String) (earlier : Option Nat)
  | readNumber
  | readWord
  | readOperator
  | readString (opening : Position)
  | readWhile (chars : List Char)
  | skipBlanks
  | skipLine
  | program
  | expression
  | operand
  | group
  | block
  | declaration
  | signed
  | invocation (earlier : Nat)
  | bindings (earlier : Nat) (least : Int)
  | delimited (start stop separator : String) (item : ItemReader)
  | expectPunctuation (text : String)
  | expectIdentifier
  | expectOperator (choices : List String)
  | unexpected

namespace Session

def answerAt (history : List Outcome) (i : Nat) : Option Answer :=
  match history[i]? with
  | some (.ok a) => some a
  | _ => none

def nodeAt (history : List Outcome) (i : Nat) : Node :=
  ((answerAt history i).bind Answer.node?).getD .blank

end Session

/-- The call that a step makes, unless it reads characters or states a failure. -/
def Step.call? (history : List Outcome) : Step → Option Call
  | peekToken => some .peekToken
  | nextToken => some .nextToken
  | noTokens => some .noTokens
  | program => some .program
  | expression => some .expression
  | operand => some .operand
  | group => some .group
  | block => some .block
  | declaration => some .declaration
  | signed => some .signed
  | invocation i => some (.invocation (Session.nodeAt history i))
  | bindings i least => some (.bindings (Session.nodeAt history i) least)
  | delimited start stop separator item => some (.delimited start stop separator item)
  | expectPunctuation text => some (.expectPunctuation text)
  | expectIdentifier => some .expectIdentifier
  | expectOperator choices => some (.expectOperator choices)
  | unexpected => some .unexpected
  | _ => none

namespace Session

def onCursor {α : Type} (f : Cursor → α) : Parser Lexer α := do return f (← get).cursor

def nextChar : Lexer.Reading (Option Char) := do
  let c ← get
  Lexer.skip 1
  return c.peek

def onText (history : List Outcome) : Step → Parser Lexer Answer
  | .peekChar => .character <$> onCursor Cursor.peek
  | .nextChar => .character <$> Lexer.reading nextChar
  | .atEnd => .flag <$> onCursor Cursor.atEnd
  | .failHere message line column => do
    let here ← onCursor Cursor.position
    Parser.failAt ⟨line.getD here.line, column.getD here.column⟩ (.stated message)
  | .readToken => .token <$> Lexer.reading Lexer.readToken
  | .failAtToken message earlier =>
    match earlier.bind (answerAt history) |>.bind Answer.token? with
    | some t => Parser.failAt t.position (.stated message)
    | none => Parser.fail (.stated message)
  | .readNumber => .number <$> Lexer.reading Lexer.readNumber
  | .readWord => .text <$> Lexer.reading Lexer.readWord
  | .readOperator => .text <$> Lexer.reading Lexer.readOperator
  | .readString opening => .text <$> Lexer.reading (Lexer.readString opening)
  | .readWhile chars => do
    return .text (String.ofList (← Lexer.reading (Lexer.readWhile (· ∈ chars))))
  | .skipBlanks => do
    Lexer.reading Lexer.skipBlanks
    return .done
  | .skipLine => do
    Lexer.reading Lexer.skipLine
    return .done
  | _ => return .done

def perform (history : List Outcome) (s : Step) : Parser Lexer Answer :=
  match s.call? history with
  | some c => c.perform
  | none => onText history s

def step (history : List Outcome) (s : Step) (l : Lexer) : Outcome × Lexer :=
  match perform history s l with
  | .ok a l' => (.ok a, l')
  | .error e l' => (.error e, l')

def run (history : List Outcome) : List Step → Lexer → List (Outcome × Lexer)
  | [], _ => []
  | s :: rest, l =>
    let r := step history s l
    r :: run (history ++ [r.1]) rest r.2

end Session

end RuleLang
