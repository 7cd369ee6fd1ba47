import RuleLang.Command.Indentation
import RuleLang.Command.Usage
import RuleLang.Text.Integer

/-!
Command line arguments. Each argument is a value, an option or the separator before which
options are looked for; a long option may be cut short as long as only one begins that way, and
letters after a dash may share it. Arguments act in their order, each option overriding an
earlier one of its kind; the first value is the source, and more values are too many. Two dashes
attached to an option that takes a value are no value: the output then is the screen, and the
indentation is missing.
-/
namespace RuleLang.Command

/-- What the command is asked for. Its texts are made of Unicode scalar values: they hold no
surrogates. -/
structure Settings where
  source : String
  literal : Bool
  tokens : Bool
  out : Option String
  pretty : Bool
  indent : Indentation
  verbose : Bool
  deriving DecidableEq

inductive Argument
  | value (text : String)
  | separator
  | switch (switch : Switch) (isLong : Bool) (attached : Option (List Char))
  | unknown (text : String)
  deriving DecidableEq

namespace Argument

/-- Digits after a dash, with or without a point before the last of them. -/
def looksNegative (cs : List Char) : Bool :=
  match cs with
  | '-' :: rest =>
    let body := if rest.getLast? = some '\n' then rest.dropLast else rest
    match body.dropWhile Text.isDigit with
    | [] => body ≠ []
    | '.' :: places => places ≠ [] && places.all Text.isDigit
    | _ => false
  | _ => false

def cutAtEquals (cs : List Char) : List Char × Option (List Char) :=
  match cs.dropWhile (· ≠ '=') with
  | [] => (cs, none)
  | _ :: rest => (cs.takeWhile (· ≠ '='), some rest)

def isLongName (cs : List Char) : Bool := ['-', '-'].isPrefixOf cs

/-- The options that an argument can be short for, with what it attaches to each. -/
def candidates (cs : List Char) : List (Switch × Bool × Option (List Char)) :=
  if isLongName cs then
    let (name, attached) := cutAtEquals cs
    (Switch.startingWith name).map fun s => (s, true, attached)
  else
    match cs with
    | _ :: c :: rest => ((Switch.ofShort? c).map fun s => (s, false, some rest)).toList
    | _ => []

def classify (text : String) : Except UsageError Argument :=
  let cs := text.toList
  if cs.head? ≠ some '-' ∨ cs = ['-'] then .ok (.value text)
  else match Switch.ofName? cs with
    | some s => .ok (.switch s (isLongName cs) none)
    | none =>
      match cutAtEquals cs with
      | (name, some attached) =>
        match Switch.ofName? name with
        | some s => .ok (.switch s (isLongName name) (some attached))
        | none => guess text cs
      | (_, none) => guess text cs
where
  guess (text : String) (cs : List Char) : Except UsageError Argument :=
    match candidates cs with
    | [] => .ok (if looksNegative cs || cs.contains ' ' then .value text else .unknown text)
    | [(s, isLong, attached)] => .ok (.switch s isLong attached)
    | several => .error (.ambiguous text (several.map (·.1)))

def classifyAll : List String → Except UsageError (List Argument)
  | [] => .ok []
  | text :: rest =>
    if text = "--" then .ok (separator :: rest.map value)
    else do
      let a ← classify text
      return a :: (← classifyAll rest)

end Argument

/-- What has been made of the arguments so far. -/
structure Progress where
  settings : Settings
  source : Option String
  extras : List String

namespace Progress

def initial : Progress := ⟨⟨"", false, false, none, false, .columns 2, false⟩, none, []⟩

def extra (p : Progress) (text : String) : Progress := ⟨p.settings, p.source, p.extras ++ [text]⟩

def adjust (p : Progress) (f : Settings → Settings) : Progress :=
  ⟨f p.settings, p.source, p.extras⟩

end Progress

/-- Why the arguments lead to no run: the user asked for help, or made a mistake. -/
inductive Halt
  | help
  | usage (error : UsageError)
  deriving DecidableEq

def setFlag (p : Progress) : Switch → Except Halt Progress
  | .help => .error .help
  | .string => .ok (p.adjust fun s => { s with literal := true })
  | .tokens => .ok (p.adjust fun s => { s with tokens := true })
  | .pretty => .ok (p.adjust fun s => { s with pretty := true })
  | .verbose => .ok (p.adjust fun s => { s with verbose := true })
  | .out | .indent => .ok p

def setValue (p : Progress) (text : String) : Switch → Except Halt Progress
  | .out => .ok (p.adjust fun s => { s with out := some (if text = "--" then "" else text) })
  | .indent =>
    if text = "--" then .ok (p.adjust fun s => { s with indent := .missing })
    else match Text.integer? text with
    | some n => .ok (p.adjust fun s => { s with indent := .columns n })
    | none => .error (.usage (.invalidInteger .indent text))
  | _ => .ok p

/-- The flags that share a dash, and the last option with what is left for it to take. -/
def unfold (s : Switch) : List Char → Except UsageError (List Switch × Switch × Option String)
  | [] => .ok ([], s, none)
  | c :: rest =>
    if s.takesValue then .ok ([], s, some (String.ofList (c :: rest)))
    else match Switch.ofShort? c with
      | none => .error (.ignoredArgument s (String.ofList (c :: rest)))
      | some s' => do
        let (flags, last, attached) ← unfold s' rest
        return (s :: flags, last, attached)

def unfoldAttached (s : Switch) (isLong : Bool) :
    Option (List Char) → Except UsageError (List Switch × Switch × Option String)
  | none => .ok ([], s, none)
  | some attached =>
    if s.takesValue then .ok ([], s, some (String.ofList attached))
    else if isLong || attached = [] then .error (.ignoredArgument s (String.ofList attached))
    else unfold s attached

def setFlags (p : Progress) (flags : List Switch) : Except Halt Progress := flags.foldlM setFlag p

def readArguments (p : Progress) : List Argument → Except Halt Progress
  | [] => .ok p
  | .unknown text :: rest => readArguments (p.extra text) rest
  | .value text :: .separator :: rest =>
    if p.source.isNone then readArguments ⟨p.settings, some text, p.extras⟩ rest
    else readArguments ((p.extra text).extra "--") rest
  | .value text :: rest =>
    if p.source.isNone then readArguments ⟨p.settings, some text, p.extras⟩ rest
    else readArguments (p.extra text) rest
  | .separator :: .value text :: rest =>
    if p.source.isNone then readArguments ⟨p.settings, some text, p.extras⟩ rest
    else readArguments ((p.extra "--").extra text) rest
  | .separator :: rest => readArguments (p.extra "--") rest
  | .switch s isLong attached :: rest =>
    match unfoldAttached s isLong attached with
    | .error e => .error (.usage e)
    | .ok (flags, last, value) =>
      if last.takesValue then
        match value, rest with
        | some text, rest => do
          readArguments (← setValue (← setFlags p flags) text last) rest
        | none, .value text :: rest => do
          readArguments (← setValue (← setFlags p flags) text last) rest
        | none, _ => .error (.usage (.missingArgument last))
      else do
        readArguments (← setFlag (← setFlags p flags) last) rest

def settings (arguments : List String) : Except Halt Settings :=
  match Argument.classifyAll arguments with
  | .error e => .error (.usage e)
  | .ok classified => do
    let p ← readArguments .initial classified
    match p.source, p.extras with
    | none, _ => throw (.usage .missingSource)
    | some source, [] => return { p.settings with source := source }
    | some _, extras => throw (.usage (.unrecognized extras))

end RuleLang.Command
