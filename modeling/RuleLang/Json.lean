import RuleLang.Number

/-!
Values of the interchange format: what a document says, before it is written. The pairs of an
object keep their order.
-/
namespace RuleLang

inductive Json
  | null
  | bool (value : Bool)
  | number (value : Number)
  | text (value : String)
  | array (items : List Json)
  | object (pairs : List (String × Json))

namespace Json

def texts (items : List String) : Json := array (items.map text)

end Json

end RuleLang
