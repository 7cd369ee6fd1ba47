import RuleLang.Position
import RuleLang.Alphabet
import RuleLang.Text.Printable
import RuleLang.Number.Magnitude
import RuleLang.Number.Decimal
import RuleLang.Number.Shortest
import RuleLang.Number
import RuleLang.Text.Hex
import RuleLang.Text.Quoted
import RuleLang.Text.Utf8
import RuleLang.Text.LineEnd
import RuleLang.Token
import RuleLang.Failure
import RuleLang.Cursor
import RuleLang.Lexer
import RuleLang.Scan
import RuleLang.TokenSource
import RuleLang.Node
import RuleLang.Grammar.Expect
import RuleLang.Grammar.Production
import RuleLang.Grammar
import RuleLang.Json
import RuleLang.Json.Write
import RuleLang.Json.OfNode
import RuleLang.Call
import RuleLang.Session
import RuleLang.Text.Integer
import RuleLang.Command.Usage
import RuleLang.Command.Indentation
import RuleLang.Command.Arguments
import RuleLang.Command.Host
import RuleLang.Command.FileSystem
import RuleLang.Command.Surroundings
import RuleLang.Command.Log
import RuleLang.Command
import RuleLang.Main
import RuleLang.Proofs.Leaves
import RuleLang.Proofs.Outcome
import RuleLang.Proofs.Lockstep
import RuleLang.Proofs.Simulation
import RuleLang.Proofs.Progress
import RuleLang.Proofs.Rounds
import RuleLang.Proofs.Lookahead
import RuleLang.Proofs.Laziness
import RuleLang.Proofs.Binding
import RuleLang.Proofs.Reading
import RuleLang.Proofs.Returning
import RuleLang.Proofs.Language
import RuleLang.Proofs.Acceptance
import RuleLang.Proofs.FirstError
import RuleLang.Proofs.ReadingOrder
import RuleLang.Proofs.Decomposition
import RuleLang.Proofs.Fairness
import RuleLang.Proofs.Renaming
import RuleLang.Proofs.NextToken
import RuleLang.Proofs.Provenance
import RuleLang.Proofs.Framing
import RuleLang.Proofs.Replacement
import RuleLang.Proofs.Continuation
import RuleLang.Proofs.Levels
import RuleLang.Proofs.Relocation
import RuleLang.Proofs.Seam
import RuleLang.Proofs.Standing
import RuleLang.Proofs.Concatenation
import RuleLang.Proofs.Calls
import RuleLang.Proofs.Delivery
import RuleLang.Proofs.Sessions
import RuleLang.Proofs.Displacement
import RuleLang.Proofs.Likeness
import RuleLang.Proofs.Failures
import RuleLang.Proofs.Gauge
import RuleLang.Proofs.Nesting
import RuleLang.Proofs.Spacing
import RuleLang.Proofs.Encoding
import RuleLang.Proofs.Effects
import RuleLang.Proofs.AllOrNothing
import RuleLang.Proofs.LineEnds
import RuleLang.Proofs.JsonNumerals
import RuleLang.Proofs.JsonTexts
import RuleLang.Proofs.Rendering
import RuleLang.Proofs.Documents
import RuleLang.Proofs.Emission
import RuleLang.Proofs.Slots
import RuleLang.Proofs.UnaryPlus
import RuleLang.Proofs.Escapes
import RuleLang.Proofs.Declarations
import RuleLang.Proofs.Attachment
import RuleLang.Proofs.JsonGrammar
import RuleLang.Proofs.Overflow
import RuleLang.Proofs.DelimitedLists
import RuleLang.Proofs.Headway
import RuleLang.Proofs.Entries
