import RuleLang.Command.Arguments
import RuleLang.Command.Log
import RuleLang.Command.Surroundings
import RuleLang.Grammar
import RuleLang.Json.OfNode
import RuleLang.Json.Write
import RuleLang.Text.LineEnd
import RuleLang.Text.Utf8

/-!
The command. It reads a source, from a file or from the command line itself, turns it into
tokens or trees, and puts the document that describes them into a file or on the screen. Nothing
is written or printed before the document is complete, so that a failure before leaves no trace but
its report; one after leaves a beginning of what was to be written or printed.
-/
namespace RuleLang.Command

inductive Trouble
  | language (failure : Failure)
  | path (error : SystemError)
  | encoding (error : EncodingError)
  | indentation (error : IndentationError)
  | embeddedNul
  deriving DecidableEq

def Trouble.message : Trouble → String
  | language (.malformed e) => e.report
  | language e => e.message
  | path e => e.message
  | encoding e => e.message
  | indentation e => e.message
  | embeddedNul => "embedded null byte"

/-- The troubles that the command reports; any other one ends it. -/
def Trouble.isReported : Trouble → Bool
  | language (.malformed _) | path _ | encoding (.undecodable _) => true
  | _ => false

def ScreenError.trouble : ScreenError → Trouble
  | refused refusal => .path ⟨refusal, none⟩
  | unencodable message => .encoding (.unencodable message)

def bannerWidth : Nat := 35

/-- A line of equals signs with a title in its middle, nearer the left if it cannot be. -/
def banner (title : String) : String :=
  let space := bannerWidth - title.length
  String.ofList (List.replicate (space / 2) '=') ++ title
    ++ String.ofList (List.replicate (space - space / 2) '=') ++ "\n"

variable {m : Type → Type} [Monad m] [Host m]

def log (threshold : Level) (r : LogRecord) : m Unit :=
  if threshold.rank ≤ r.level.rank then Host.report r.line else pure ()

def checkPath (path : String) : ExceptT Trouble m Unit :=
  if '\x00' ∈ path.toList then throw .embeddedNul else pure ()

def readSource (threshold : Level) (path : String) : ExceptT Trouble m (List Char) := do
  log threshold (.reading path)
  checkPath path
  match ← Host.readFile path with
  | .error e => throw (.path e)
  | .ok octets =>
    match Text.Utf8.decode octets with
    | .error e => throw (.encoding (.undecodable e))
    | .ok cs => return Text.unifyLineEnds cs

def noted {α : Type} (threshold : Level) : Except Failure α → ExceptT Trouble m α
  | .ok a => return a
  | .error e => do
    match e with
    | .malformed error => log threshold (.malformed error)
    | _ => pure ()
    throw (.language e)

def describe (threshold : Level) (tokens : Bool) (source : List Char) :
    ExceptT Trouble m Json := do
  if tokens then
    return .array ((← noted threshold (tokenize source)).map Token.toJson)
  else
    let nodes ← noted threshold (parse source)
    log threshold (.parsed nodes.length)
    return .array (Node.toJsonAll nodes)

def subject (tokens : Bool) : String := if tokens then "tokens" else "parsed"

def title (tokens : Bool) : String := if tokens then "TOKENS" else "PARSED"

def save (threshold : Level) (path what document : String) : ExceptT Trouble m Unit := do
  checkPath path
  match ← Host.openFile path with
  | .error refusal => throw (.path ⟨refusal, path⟩)
  | .ok file =>
    match ← Host.fill file (Text.Utf8.encode (document ++ "\n").toList) with
    | .error refusal => throw (.path ⟨refusal, none⟩)
    | .ok () => log threshold (.wrote what path)

def present (text : String) : ExceptT Trouble m Unit := do
  match ← Host.print text with
  | .error e => throw e.trouble
  | .ok () => pure ()

def display (s : Settings) (source : List Char) (document : String) : ExceptT Trouble m Unit :=
  if s.pretty then do
    present (banner "RAW CONTENT" ++ String.ofList source ++ "\n" ++ banner "")
    present (banner (title s.tokens) ++ document ++ "\n" ++ banner "")
  else present (document ++ "\n")

def layOut (indent : Indentation) (content : Json) : ExceptT Trouble m String := do
  match indent.width? with
  | .error e => throw (.indentation e)
  | .ok width =>
    if ← Host.holds width content then return content.document width
    else throw (.indentation .outOfMemory)

/-- Reads, describes and delivers; the result is the document. -/
def run (threshold : Level) (s : Settings) : ExceptT Trouble m String := do
  let source ← if s.literal then pure s.source.toList else readSource threshold s.source
  let document ← layOut s.indent (← describe threshold s.tokens source)
  let path := s.out.getD ""
  if path = "" then display s source document
  else save threshold path (subject s.tokens) document
  return document

inductive Exit
  | code (n : Nat)
  | broken (trouble : Trouble)
  deriving DecidableEq

def threshold (verbose : Bool) (level : Option String) : Level :=
  if verbose then .debug else (level.map Level.ofName).getD .warning

def conclude (threshold : Level) (s : Settings) : m Exit := do
  match ← (run threshold s).run with
  | .ok _ => return .code 0
  | .error trouble =>
    if trouble.isReported then do
      Host.report ("error: " ++ trouble.message ++ "\n")
      return .code 1
    else return .broken trouble

/-- Runs the command on its arguments, at the level of logging that its surroundings name. -/
def execute (level : Option String) (arguments : List String) : m Exit := do
  match settings arguments with
  | .error .help =>
    -- a screen that breaks is passed over, one without octets for the text is not
    match ← Host.print helpText with
    | .error (.unencodable message) => return .broken (.encoding (.unencodable message))
    | _ => return .code 0
  | .error (.usage e) =>
    Host.report e.report
    return .code 2
  | .ok s => conclude (threshold s.verbose level) s

end RuleLang.Command
