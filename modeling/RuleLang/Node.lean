import RuleLang.Token

/-!
Trees of the rule language. A leaf is a token; every other node has the parts that its kind
names. A blank node has no parts and belongs to no kind. Two nodes are alike if they have the
same shape and their leaves are alike, in place as well as in lexeme.
-/
namespace RuleLang

inductive Node
  | leaf (token : Token)
  | block (body : List Node)
  | call (callee : Node) (args : List Node)
  | rule (name : Option String) (params : List String) (body : Node)
  | binary (op : String) (left right : Node)
  | assign (left right : Node)
  | truth (value : Bool)
  | blank

namespace Node

def joined (op : String) (left right : Node) : Node :=
  if op = Vocabulary.assignOperator then assign left right else binary op left right

/-- A braced sequence of one statement is that statement. -/
def sequence : List Node → Node
  | [statement] => statement
  | statements => block statements

mutual

def leaves : Node → List Token
  | leaf t => [t]
  | block body => leavesAll body
  | call callee args => leaves callee ++ leavesAll args
  | rule _ _ body => leaves body
  | binary _ left right => leaves left ++ leaves right
  | assign left right => leaves left ++ leaves right
  | truth _ => []
  | blank => []

def leavesAll : List Node → List Token
  | [] => []
  | n :: ns => leaves n ++ leavesAll ns

end

mutual

def alike : Node → Node → Bool
  | leaf t, leaf u => t.alike u
  | block xs, block ys => alikeAll xs ys
  | call f xs, call g ys => alike f g && alikeAll xs ys
  | rule a ps x, rule b qs y => a = b && ps = qs && alike x y
  | binary o a b, binary p c d => o = p && alike a c && alike b d
  | assign a b, assign c d => alike a c && alike b d
  | truth a, truth b => a = b
  | blank, blank => true
  | _, _ => false

def alikeAll : List Node → List Node → Bool
  | [], [] => true
  | x :: xs, y :: ys => alike x y && alikeAll xs ys
  | _, _ => false

end

/-- How many nodes of a list are unlike every later one. -/
def distinct : List Node → Nat
  | [] => 0
  | n :: ns => distinct ns + if ns.any (alike n) then 0 else 1

def className : Node → String
  | leaf _ => "Token"
  | block _ => "Block"
  | call _ _ => "Call"
  | rule _ _ _ => "Rule"
  | binary _ _ _ => "BinaryExpr"
  | assign _ _ => "Assign"
  | truth _ => "BoolLiteral"
  | blank => "ASTNode"

/-- A sequence in parentheses; a single item is followed by a comma. -/
def tuple : List String → String
  | [item] => "(" ++ item ++ ",)"
  | items => "(" ++ ", ".intercalate items ++ ")"

def fields (name : String) (parts : List (String × String)) : String :=
  name ++ "(" ++ ", ".intercalate (parts.map fun p => p.1 ++ "=" ++ p.2) ++ ")"

mutual

def render : Node → String
  | leaf t => t.render
  | block body => fields "Block" [("body", tuple (renderAll body))]
  | call callee args =>
    fields "Call" [("callee", render callee), ("args", tuple (renderAll args))]
  | rule name params body =>
    fields "Rule" [("name", (name.map Text.quoted).getD "None"),
      ("params", tuple (params.map Text.quoted)), ("body", render body)]
  | binary op left right =>
    fields "BinaryExpr" [("op", Text.quoted op), ("left", render left), ("right", render right)]
  | assign left right => fields "Assign" [("left", render left), ("right", render right)]
  | truth value => fields "BoolLiteral" [("value", if value then "True" else "False")]
  | blank => fields "ASTNode" []

def renderAll : List Node → List String
  | [] => []
  | n :: ns => render n :: renderAll ns

end

/-- Attempts to change a node. Nodes never change, so that each attempt has only a refusal. -/
inductive Change
  | set (name : String)
  | delete (name : String)

def refusal (n : Node) : Change → String
  | .set name => n.className ++ " is immutable; cannot set " ++ Text.quoted name
  | .delete name => n.className ++ " is immutable; cannot delete " ++ Text.quoted name

end Node

end RuleLang
