import RuleLang.Position

/-!
A cursor in a source text: what is left to read, how many characters lie before it, and its
place. It only moves forward, over a number of characters at a time, and stays at the end once
it is there.
-/
namespace RuleLang

structure Cursor where
  rest : List Char
  offset : Nat
  position : Position
  deriving DecidableEq

namespace Cursor

def ofChars (cs : List Char) : Cursor := ⟨cs, 0, .start⟩

/-- A cursor in the middle of a text, at a place of the caller's choice. -/
def within (cs : List Char) (offset : Nat) (position : Position) : Cursor :=
  ⟨cs.drop offset, offset, position⟩

def peek (c : Cursor) : Option Char := c.rest.head?

def atEnd (c : Cursor) : Bool := c.rest.isEmpty

def advance (c : Cursor) (n : Nat) : Cursor :=
  ⟨c.rest.drop n, c.offset + (c.rest.take n).length, c.position.afterAll (c.rest.take n)⟩

@[simp] theorem advance_zero (c : Cursor) : c.advance 0 = c := by simp [advance]

theorem advance_advance (c : Cursor) (m n : Nat) : (c.advance m).advance n = c.advance (m + n) := by
  simp only [advance, List.drop_drop, Cursor.mk.injEq, true_and]
  rw [List.take_add, List.length_append, Position.afterAll_append, Nat.add_assoc]
  exact ⟨rfl, rfl⟩

theorem advance_of_atEnd {c : Cursor} (h : c.rest = []) (n : Nat) : c.advance n = c := by
  cases c; subst h; simp [advance]

theorem length_advance (c : Cursor) (n : Nat) :
    (c.advance n).rest.length = c.rest.length - n := by
  simp [advance]

theorem offset_le_advance (c : Cursor) (n : Nat) : c.offset ≤ (c.advance n).offset :=
  Nat.le_add_right _ _

end Cursor

end RuleLang
