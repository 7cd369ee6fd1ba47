import RuleLang.Json
import RuleLang.Node

/-!
Trees as values of the interchange format. Each node becomes an object whose first pair names
its kind and whose other pairs are its parts, in the order in which they are listed. Places are
left out.
-/
namespace RuleLang

def Lexeme.value : Lexeme → Json
  | .number x => .number x
  | .string s | .identifier s | .keyword s | .operator s | .punctuation s => .text s

def Json.tagged (kind : String) (parts : List (String × Json)) : Json :=
  .object (("type", .text kind) :: parts)

def Token.toJson (t : Token) : Json := .tagged t.kind.name [("value", t.lexeme.value)]

namespace Node

mutual

def toJson : Node → Json
  | leaf t => t.toJson
  | block body => .tagged "block" [("body", .array (toJsonAll body))]
  | call callee args =>
    .tagged "call" [("callee", toJson callee), ("args", .array (toJsonAll args))]
  | rule name params body =>
    .tagged "rule"
      [("name", match name with
          | none => .null
          | some s => .text s),
        ("params", .texts params), ("body", toJson body)]
  | binary op left right =>
    .tagged "binary" [("op", .text op), ("left", toJson left), ("right", toJson right)]
  | assign left right => .tagged "assign" [("left", toJson left), ("right", toJson right)]
  | truth value => .tagged "bool" [("value", .bool value)]
  | blank => .tagged "" []

def toJsonAll : List Node → List Json
  | [] => []
  | n :: ns => toJson n :: toJsonAll ns

end

end Node

end RuleLang
