import RuleLang.Cursor
import RuleLang.Failure

/-!
Reading tokens. Blanks and comments separate tokens; a comment runs from its mark through the
end of the line. The first character of a token decides its kind, and the token takes as many
characters as its kind allows: a string up to the quote that closes it, a number digits with at
most one point, a word and an operator all characters of their class. A failure leaves the
cursor where it arose, after an open string at the end of the text.
-/
namespace RuleLang

namespace Lexer

open Alphabet

def gapLength (inComment : Bool) : List Char → Nat
  | [] => 0
  | c :: rest =>
    if inComment then gapLength (c ≠ lineFeed) rest + 1
    else if isBlank c then gapLength false rest + 1
    else if c = commentMark then gapLength true rest + 1
    else 0

def numeralRun (cs : List Char) : List Char :=
  let whole := cs.takeWhile isDigit
  match cs.dropWhile isDigit with
  | [] => whole
  | c :: rest => if c = point then whole ++ c :: rest.takeWhile isDigit else whole

/-- The value of a string up to the quote that closes it, and how many characters it takes with
that quote. A character after an escape stands for itself. -/
def stringRun? (escaped : Bool) : List Char → Option (List Char × Nat)
  | [] => none
  | c :: rest =>
    if escaped then (stringRun? false rest).map fun (body, n) => (c :: body, n + 1)
    else if c = escape then (stringRun? true rest).map fun (body, n) => (body, n + 1)
    else if c = quote then some ([], 1)
    else (stringRun? false rest).map fun (body, n) => (c :: body, n + 1)

abbrev Reading := EStateM Failure Cursor

theorem get_eq (c : Cursor) : (get : Reading Cursor) c = .ok c c := rfl

def skip (n : Nat) : Reading Unit := modify (·.advance n)

theorem skip_eq (n : Nat) (c : Cursor) : skip n c = .ok () (c.advance n) := rfl

def readRun (run : List Char → List Char) : Reading (List Char) := do
  let taken := run (← get).rest
  skip taken.length
  return taken

theorem readRun_eq (run : List Char → List Char) (c : Cursor) :
    readRun run c = .ok (run c.rest) (c.advance (run c.rest).length) := rfl

def readWhile (p : Char → Bool) : Reading (List Char) := readRun (·.takeWhile p)

def skipBlanks : Reading Unit := do
  let _ ← readWhile isBlank

/-- Drops the rest of the line with its end, whatever it holds. -/
def skipLine : Reading Unit := do
  let _ ← readWhile (· ≠ lineFeed)
  skip 1

def skipGap : Reading Unit := do
  skip (gapLength false (← get).rest)

def readNumber : Reading Number := do
  let run ← readRun numeralRun
  match Decimal.ofNumeral? run with
  | some d => return .ofDecimal false d
  | none => throw (.notANumber (String.ofList run))

theorem readNumber_eq (c : Cursor) :
    let run := numeralRun c.rest
    readNumber c = match Decimal.ofNumeral? run with
      | some d => .ok (.ofDecimal false d) (c.advance run.length)
      | none => .error (.notANumber (String.ofList run)) (c.advance run.length) := by
  simp only [readNumber, bind, EStateM.bind, readRun_eq]
  cases Decimal.ofNumeral? (numeralRun c.rest) <;> rfl

def readWord : Reading String := String.ofList <$> readWhile isIdentifierChar

def readOperator : Reading String := String.ofList <$> readWhile isOperatorChar

/-- Reads a string whose opening quote stands at the given place and is behind the cursor. -/
def readString (opening : Position) : Reading String := do
  let c ← get
  match stringRun? false c.rest with
  | some (body, n) =>
    skip n
    return String.ofList body
  | none =>
    skip c.rest.length
    throw (.malformed ⟨opening, .unterminatedString⟩)

theorem readString_eq (opening : Position) (c : Cursor) :
    readString opening c = match stringRun? false c.rest with
      | some (body, n) => .ok (String.ofList body) (c.advance n)
      | none => .error (.malformed ⟨opening, .unterminatedString⟩) (c.advance c.rest.length) := by
  simp only [readString, bind, EStateM.bind, get_eq]
  rcases stringRun? false c.rest with _ | ⟨body, n⟩ <;> rfl

def readLexeme (position : Position) (first : Char) : Reading Lexeme :=
  if first = quote then do
    skip 1
    .string <$> readString position
  else if isDigit first then .number <$> readNumber
  else if isIdentifierStart first then .ofWord <$> readWord
  else if isPunctuation first then do
    skip 1
    return .punctuation (String.singleton first)
  else if isOperatorChar first then .operator <$> readOperator
  else throw (.malformed ⟨position, .illegalCharacter first⟩)

/-- The next token, or none at the end of the text. -/
def readToken : Reading (Option Token) := do
  skipGap
  let c ← get
  match c.peek with
  | none => return none
  | some first => return some ⟨← readLexeme c.position first, c.position⟩

theorem readToken_eq (c : Cursor) :
    let gap := c.advance (gapLength false c.rest)
    readToken c = match gap.rest with
      | [] => .ok none gap
      | first :: _ => match readLexeme gap.position first gap with
        | .ok x c' => .ok (some ⟨x, gap.position⟩) c'
        | .error e c' => .error e c' := by
  simp only [readToken, skipGap, bind, EStateM.bind, get_eq, skip_eq, Cursor.peek]
  generalize c.advance _ = gap
  cases gap.rest with
  | nil => rfl
  | cons first rest =>
    simp only [List.head?_cons, EStateM.bind]
    cases readLexeme gap.position first gap <;> rfl

end Lexer

/-- A cursor with at most one token read ahead of what has been delivered. -/
structure Lexer where
  cursor : Cursor
  lookahead : Option Token

namespace Lexer

def ofChars (cs : List Char) : Lexer := ⟨.ofChars cs, none⟩

def reading {α : Type} (r : Reading α) : EStateM Failure Lexer α := fun l =>
  match r l.cursor with
  | .ok a c => .ok a ⟨c, l.lookahead⟩
  | .error e c => .error e ⟨c, l.lookahead⟩

def peek : EStateM Failure Lexer (Option Token) := do
  match (← get).lookahead with
  | some t => return some t
  | none =>
    let t ← reading readToken
    modify fun l => ⟨l.cursor, t⟩
    return t

def next : EStateM Failure Lexer (Option Token) := do
  match (← get).lookahead with
  | some t =>
    modify fun l => ⟨l.cursor, none⟩
    return some t
  | none => reading readToken

def here (l : Lexer) : Position :=
  match l.lookahead with
  | some t => t.position
  | none => l.cursor.position

end Lexer

end RuleLang
