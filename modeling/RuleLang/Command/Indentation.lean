/-!
The indentation that a user asks for. A width is a number of columns, and any that is not
positive means none; without a width the document is a single line. Only widths of 64 bits are
understood, an option whose value went missing is refused, and so is a layout that memory does not
hold. Refusals arise where the document would be written, and not before.
-/
namespace RuleLang.Command

inductive Indentation
  | single
  | columns (width : Int)
  | missing
  deriving DecidableEq, Repr

inductive IndentationError
  | outOfRange | outOfMemory | notANumber
  deriving DecidableEq, Repr

def IndentationError.message : IndentationError → String
  | outOfRange => "cannot fit 'int' into an index-sized integer"
  | outOfMemory => ""
  | notANumber => "can't multiply sequence by non-int of type 'list'"

namespace Indentation

/-- The first width beyond 64 bits with a sign. -/
def widthLimit : Int := 0x8000000000000000

def width? : Indentation → Except IndentationError (Option Int)
  | single => .ok none
  | columns n =>
    if n < -widthLimit ∨ widthLimit ≤ n then .error .outOfRange else .ok (some n)
  | missing => .error .notANumber

end Indentation

end RuleLang.Command
