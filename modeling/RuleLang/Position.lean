/-!
Places in a source text. Lines count from one and columns from zero; only a line feed starts a
new line, and every other character moves one column to the right. A place may carry any
integers, since a caller can begin reading in the middle of a larger text.
-/
namespace RuleLang

structure Position where
  line : Int
  column : Int
  deriving DecidableEq, Repr, Inhabited

namespace Position

def start : Position := ⟨1, 0⟩

def after (p : Position) (c : Char) : Position :=
  if c = '\n' then ⟨p.line + 1, 0⟩ else ⟨p.line, p.column + 1⟩

def afterAll (p : Position) (cs : List Char) : Position := cs.foldl after p

@[simp] theorem afterAll_nil (p : Position) : p.afterAll [] = p := rfl

@[simp] theorem afterAll_cons (p : Position) (c : Char) (cs : List Char) :
    p.afterAll (c :: cs) = (p.after c).afterAll cs := rfl

theorem afterAll_append (p : Position) (xs ys : List Char) :
    p.afterAll (xs ++ ys) = (p.afterAll xs).afterAll ys := by
  simp [afterAll]

def text (p : Position) : String :=
  "(" ++ toString p.line ++ ":" ++ toString p.column ++ ")"

end Position

end RuleLang
