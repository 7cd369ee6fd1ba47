import RuleLang.Scan

/-!
What a grammar reads from: something that shows its next token, delivers it, and knows where an
error about the next token belongs. Its size bounds how many tokens it still has. A lexer reads
its text only as far as it is asked to; a scan has read everything beforehand.
-/
namespace RuleLang

class TokenSource (σ : Type) where
  peek : EStateM Failure σ (Option Token)
  next : EStateM Failure σ (Option Token)
  here : σ → Position
  size : σ → Nat

instance : TokenSource Lexer where
  peek := Lexer.peek
  next := Lexer.next
  here := Lexer.here
  size l := l.cursor.rest.length + l.lookahead.toList.length

namespace Scan

def peek : EStateM Failure Scan (Option Token) := fun s =>
  match s.tokens, s.failure with
  | t :: _, _ => .ok (some t) s
  | [], none => .ok none s
  | [], some e => .error e s

def next : EStateM Failure Scan (Option Token) := fun s =>
  match s.tokens, s.failure with
  | t :: ts, _ => .ok (some t) ⟨ts, s.stop, s.failure⟩
  | [], none => .ok none s
  | [], some e => .error e s

def here (s : Scan) : Position :=
  match s.tokens with
  | t :: _ => t.position
  | [] => s.stop

instance : TokenSource Scan where
  peek := peek
  next := next
  here := here
  size s := s.tokens.length

@[simp] theorem next_cons (t : Token) (ts : List Token) (p : Position) (f : Option Failure) :
    next ⟨t :: ts, p, f⟩ = .ok (some t) ⟨ts, p, f⟩ := rfl

end Scan

end RuleLang
