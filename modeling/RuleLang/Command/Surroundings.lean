import RuleLang.Command.FileSystem

/-!
A file system whose surroundings decide how far things go once they have begun: which open files
are read, how much of a text the screen shows, how many octets a file takes, and which documents
memory holds.
-/
namespace RuleLang.Command

/-- What a screen makes of a text. Without octets for all of it, it shows nothing of it. -/
inductive Screening
  | takes
  | unencodable (message : String)
  | breaks (shown : Nat) (refusal : Refusal)

/-- A path may open a file that is not read. The screen knows what it has shown before. A device
that does not take all octets for a location gives the number of those it takes. -/
structure Surroundings where
  unreadable : String → Option Refusal
  screen : String → String → Screening
  device : List String → List UInt8 → Option (Nat × Refusal)
  holds : Option Int → Json → Bool

namespace Surroundings

/-- Surroundings in which nothing fails that has begun. -/
def generous : Surroundings :=
  ⟨fun _ => none, fun _ _ => .takes, fun _ _ => none, fun _ _ => true⟩

def read (w : Surroundings) (f : FileSystem) (path : String) : Except SystemError (List UInt8) :=
  match f.read path with
  | .error refusal => .error ⟨refusal, path⟩
  | .ok octets =>
    match w.unreadable path with
    | none => .ok octets
    | some refusal => .error ⟨refusal, none⟩

def fill (w : Surroundings) (location : List String) (contents : List UInt8) :
    StateM FileSystem (Except Refusal Unit) :=
  match w.device location contents with
  | none => Host.fill location contents
  | some (taken, refusal) => do
    let _ ← Host.fill location (contents.take taken)
    return .error refusal

def print (w : Surroundings) (text : String) : StateM FileSystem (Except ScreenError Unit) := do
  match w.screen (← get).printed text with
  | .takes => Host.print text
  | .unencodable message => return .error (.unencodable message)
  | .breaks shown refusal => do
    let _ ← Host.print (String.ofList (text.toList.take shown))
    return .error (.refused refusal)

end Surroundings

abbrev System := ReaderT Surroundings (StateM FileSystem)

instance : Host System where
  Handle := List String
  readFile path w := do return w.read (← get) path
  openFile path _ := Host.openFile path
  fill location contents w := w.fill location contents
  print text w := w.print text
  report text _ := Host.report text
  holds width content w := return w.holds width content

end RuleLang.Command
