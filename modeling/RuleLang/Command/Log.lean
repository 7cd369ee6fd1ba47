import RuleLang.Failure

/-!
The log. Every record has a level and the part of the program that wrote it, and is shown if its
level is at least the one in force. Levels are named in capitals; letters without a capital of
their own in ASCII that share one are understood, and an unknown name stands for warnings.
-/
namespace RuleLang.Command

inductive Level
  | notSet | debug | info | warning | error | critical
  deriving DecidableEq, Repr

namespace Level

def rank : Level → Nat
  | notSet => 0
  | debug => 10
  | info => 20
  | warning => 30
  | error => 40
  | critical => 50

def name : Level → String
  | notSet => "NOTSET"
  | debug => "DEBUG"
  | info => "INFO"
  | warning => "WARNING"
  | error => "ERROR"
  | critical => "CRITICAL"

/-- The names in use; two levels have two. -/
def named : List (String × Level) :=
  [("NOTSET", notSet), ("DEBUG", debug), ("INFO", info), ("WARNING", warning),
   ("WARN", warning), ("ERROR", error), ("CRITICAL", critical), ("FATAL", critical)]

def capital (c : Char) : Char :=
  if c = 'ı' then 'I' else if c = 'ſ' then 'S' else c.toUpper

def ofName (s : String) : Level :=
  (named.lookup (String.ofList (s.toList.map capital))).getD warning

end Level

inductive LogRecord
  | reading (path : String)
  | malformed (error : SyntaxError)
  | parsed (statements : Nat)
  | wrote (what path : String)
  deriving DecidableEq

namespace LogRecord

def level : LogRecord → Level
  | wrote _ _ => .info
  | _ => .debug

def part : LogRecord → String
  | reading _ | wrote _ _ => "rulex.rulex_cli"
  | malformed _ => "rulex.rulex_lexer"
  | parsed _ => "rulex.rulex_parser"

def message : LogRecord → String
  | reading path => "Reading source from " ++ path
  | malformed e => "Syntax error at " ++ e.position.text ++ ": " ++ e.message
  | parsed n => "Parsed " ++ toString n ++ " top-level statement(s)"
  | wrote what path => "Wrote " ++ what ++ " to " ++ path

def line (r : LogRecord) : String := r.level.name ++ " " ++ r.part ++ ": " ++ r.message ++ "\n"

end LogRecord

end RuleLang.Command
