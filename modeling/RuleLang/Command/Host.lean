import RuleLang.Json
import RuleLang.Text.Quoted
import RuleLang.Text.Utf8

/-!
What the command asks of its surroundings: to read files, to open files and to fill them, to show
text to the user on two channels, and to hold documents in memory. What is refused has a numbered
reason. A path may be refused when it is opened, and an open file when it is read or filled; a
screen may break, or have no octets for a text. Reports always arrive.
-/
namespace RuleLang.Command

inductive Refusal
  | missing
  | notADirectory
  | isADirectory
  | nameTooLong
  | other (number : Nat) (text : String)
  deriving DecidableEq, Repr

namespace Refusal

def number : Refusal → Nat
  | missing => 2
  | notADirectory => 20
  | isADirectory => 21
  | nameTooLong => 36
  | other n _ => n

def text : Refusal → String
  | missing => "No such file or directory"
  | notADirectory => "Not a directory"
  | isADirectory => "Is a directory"
  | nameTooLong => "File name too long"
  | other _ s => s

end Refusal

/-- A refusal, with the path as it was given if it came from opening the path. -/
structure SystemError where
  refusal : Refusal
  path : Option String
  deriving DecidableEq

def SystemError.message (e : SystemError) : String :=
  "[Errno " ++ toString e.refusal.number ++ "] " ++ e.refusal.text ++
    match e.path with
    | none => ""
    | some path => ": " ++ Text.quoted path

/-- Octets that are no text, or a text that a screen has no octets for. -/
inductive EncodingError
  | undecodable (error : Text.Utf8.DecodeError)
  | unencodable (message : String)
  deriving DecidableEq

def EncodingError.message : EncodingError → String
  | undecodable e => e.message
  | unencodable message => message

inductive ScreenError
  | refused (refusal : Refusal)
  | unencodable (message : String)
  deriving DecidableEq

class Host (m : Type → Type) where
  Handle : Type
  readFile : String → m (Except SystemError (List UInt8))
  openFile : String → m (Except Refusal Handle)
  fill : Handle → List UInt8 → m (Except Refusal Unit)
  print : String → m (Except ScreenError Unit)
  report : String → m Unit
  holds : Option Int → Json → m Bool

instance {ε : Type} {m : Type → Type} [Monad m] [Host m] : Host (ExceptT ε m) where
  Handle := Host.Handle m
  readFile path := ExceptT.lift (Host.readFile path)
  openFile path := ExceptT.lift (Host.openFile path)
  fill file contents := ExceptT.lift (Host.fill file contents)
  print text := ExceptT.lift (Host.print text)
  report text := ExceptT.lift (Host.report text)
  holds width content := ExceptT.lift (Host.holds width content)

end RuleLang.Command
