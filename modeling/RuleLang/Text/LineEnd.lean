/-!
Line ends. A file may end its lines with a line feed, a carriage return, or a carriage return
and a line feed together; a text read from it has a line feed for each.
-/
namespace RuleLang.Text

def unifyLineEnds : List Char → List Char
  | [] => []
  | '\r' :: '\n' :: rest => '\n' :: unifyLineEnds rest
  | '\r' :: rest => '\n' :: unifyLineEnds rest
  | c :: rest => c :: unifyLineEnds rest

end RuleLang.Text
