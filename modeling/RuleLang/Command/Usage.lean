import RuleLang.Text.Quoted

/-!
The options of the command line, what the command says about them, and how it can be misused.
-/
namespace RuleLang.Command

inductive Switch
  | help | string | tokens | out | pretty | indent | verbose
  deriving DecidableEq, Repr

namespace Switch

def all : List Switch := [help, string, tokens, out, pretty, indent, verbose]

def short? : Switch → Option Char
  | help => some 'h'
  | string => some 's'
  | out => some 'o'
  | pretty => some 'p'
  | tokens | indent | verbose => none

def long : Switch → String
  | help => "--help"
  | string => "--string"
  | tokens => "--tokens"
  | out => "--out"
  | pretty => "--pretty"
  | indent => "--indent"
  | verbose => "--verbose"

def takesValue : Switch → Bool
  | out | indent => true
  | _ => false

def names (s : Switch) : String :=
  match s.short? with
  | some c => String.ofList ['-', c] ++ "/" ++ s.long
  | none => s.long

def ofShort? (c : Char) : Option Switch := all.find? (·.short? = some c)

def ofLong? (cs : List Char) : Option Switch := all.find? (·.long.toList = cs)

def ofName? (cs : List Char) : Option Switch :=
  match cs with
  | ['-', c] => ofShort? c
  | _ => ofLong? cs

def startingWith (cs : List Char) : List Switch := all.filter (cs.isPrefixOf ·.long.toList)

end Switch

inductive UsageError
  | ambiguous (argument : String) (candidates : List Switch)
  | ignoredArgument (switch : Switch) (argument : String)
  | missingArgument (switch : Switch)
  | invalidInteger (switch : Switch) (argument : String)
  | missingSource
  | unrecognized (arguments : List String)
  deriving DecidableEq

def UsageError.message : UsageError → String
  | .ambiguous argument candidates =>
    "ambiguous option: " ++ argument ++ " could match "
      ++ ", ".intercalate (candidates.map Switch.long)
  | .ignoredArgument switch argument =>
    "argument " ++ switch.names ++ ": ignored explicit argument " ++ Text.quoted argument
  | .missingArgument switch => "argument " ++ switch.names ++ ": expected one argument"
  | .invalidInteger switch argument =>
    "argument " ++ switch.names ++ ": invalid int value: " ++ Text.quoted argument
  | .missingSource => "the following arguments are required: source"
  | .unrecognized arguments => "unrecognized arguments: " ++ " ".intercalate arguments

def usage : String :=
  "usage: rulex [-h] [-s] [--tokens] [-o OUTFILE] [-p] [--indent INDENT]\n" ++
  "             [--verbose]\n" ++
  "             source\n"

def helpText : String :=
  usage ++
  "\n" ++
  "Parse RULEX source into a JSON syntax tree.\n" ++
  "\n" ++
  "positional arguments:\n" ++
  "  source                Filename or raw source (with -s)\n" ++
  "\n" ++
  "options:\n" ++
  "  -h, --help            show this help message and exit\n" ++
  "  -s, --string          Interpret source as literal string\n" ++
  "  --tokens              Dump the token stream instead of the AST\n" ++
  "  -o OUTFILE, --out OUTFILE\n" ++
  "                        Output to file\n" ++
  "  -p, --pretty          Show source and result with banners\n" ++
  "  --indent INDENT       JSON indentation width (default: 2)\n" ++
  "  --verbose             Enable debug logging\n"

def UsageError.report (e : UsageError) : String := usage ++ "rulex: error: " ++ e.message ++ "\n"

end RuleLang.Command
