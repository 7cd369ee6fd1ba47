import RuleLang.Lexer

/-!
All tokens of a text at once. A scan is a finished list of tokens together with the place where
reading stopped and, unless that is the end of the text, the failure that stopped it.
-/
namespace RuleLang

structure Scan where
  tokens : List Token
  stop : Position
  failure : Option Failure
  deriving DecidableEq

namespace Scan

def cons (t : Token) (s : Scan) : Scan := ⟨t :: s.tokens, s.stop, s.failure⟩

def upTo : Nat → Cursor → Scan
  | 0, c => ⟨[], c.position, some .exhausted⟩
  | rounds + 1, c =>
    match Lexer.readToken c with
    | .ok none c' => ⟨[], c'.position, none⟩
    | .ok (some t) c' => (upTo rounds c').cons t
    | .error e c' => ⟨[], c'.position, some e⟩

/-- Each token takes a character or more, so that there are rounds enough. -/
def ofCursor (c : Cursor) : Scan := upTo (c.rest.length + 1) c

def ofChars (cs : List Char) : Scan := ofCursor (.ofChars cs)

/-- A list of tokens that ends at a place of the caller's choice. -/
def ofTokens (ts : List Token) (stop : Position) : Scan := ⟨ts, stop, none⟩

def result (s : Scan) : Except Failure (List Token) :=
  match s.failure with
  | none => .ok s.tokens
  | some e => .error e

end Scan

def tokenize (source : List Char) : Except Failure (List Token) := (Scan.ofChars source).result

end RuleLang
