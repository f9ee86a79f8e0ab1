import CssSelector.Text.Basic
import CssSelector.Text.Offset
import CssSelector.NameMap
import CssSelector.Signature
import CssSelector.Feature
import CssSelector.Json.Basic
import CssSelector.Json.Reader
import CssSelector.Json.Writer
import CssSelector.Token.Basic
import CssSelector.Token.Scan
import CssSelector.Token.Lexeme
import CssSelector.Token.Lexer
import CssSelector.Formula
import CssSelector.Binary64
import CssSelector.Selector.Basic
import CssSelector.Selector.Json
import CssSelector.Module
import CssSelector.Config.Basic
import CssSelector.Config.Json
import CssSelector.Dialect.Basic
import CssSelector.Dialect.Compile
import CssSelector.Parse.Error
import CssSelector.Parse.Basic
import CssSelector.Parse.Formula
import CssSelector.Parse.Argument
import CssSelector.Parse.Selector
import CssSelector.Proofs.Mention
import CssSelector.Proofs.Run
import CssSelector.Proofs.Reads
import CssSelector.Proofs.Move
import CssSelector.Proofs.Reads.Attribute
import CssSelector.Proofs.Reads.Formula
import CssSelector.Proofs.Reads.Loose
import CssSelector.Proofs.Reads.Sound
import CssSelector.Proofs.Reads.Complete
import CssSelector.Proofs.Grammar
import CssSelector.Proofs.Inside
import CssSelector.Proofs.WellFormed
import CssSelector.Proofs.Conformance
import CssSelector.Proofs.Simulation
import CssSelector.Proofs.Filter
import CssSelector.Proofs.Tokens
import CssSelector.Proofs.Scan
import CssSelector.Proofs.Warnings
import CssSelector.Proofs.Grammar.Exact
import CssSelector.Proofs.Lexing
import CssSelector.Proofs.Composition
import CssSelector.Proofs.Formula.Blank
import CssSelector.Proofs.Lexing.Plain
import CssSelector.Proofs.Reads.Nested
import CssSelector.Proofs.Reads.Single
import CssSelector.Proofs.Nested
import CssSelector.Proofs.Written
import CssSelector.Proofs.Lexing.Written
import CssSelector.Proofs.Formula.Written
import CssSelector.Proofs.Spells
import CssSelector.Proofs.RoundTrip
import CssSelector.Proofs.NameMap
import CssSelector.Proofs.Signature
import CssSelector.Proofs.Definitions
import CssSelector.Proofs.Compile
import CssSelector.Proofs.Scan.Cut
import CssSelector.Proofs.Lexing.Cut
import CssSelector.Proofs.Tiling
import CssSelector.Proofs.Comment
import CssSelector.Proofs.Cursor
import CssSelector.Proofs.Report
import CssSelector.Proofs.Safety
import CssSelector.Proofs.Reported
import CssSelector.Proofs.Compile.Similar
import CssSelector.Proofs.Widen
import CssSelector.Proofs.Levels
import CssSelector.Proofs.Hexadecimal
import CssSelector.Proofs.Formula.Range
import CssSelector.Proofs.Formula.Microsyntax
import CssSelector.Proofs.Lexing.Spelling
import CssSelector.Proofs.Json.Text
import CssSelector.Proofs.Json.Written
import CssSelector.Proofs.Json.Abridged
import CssSelector.Proofs.Config.Json
import CssSelector.Proofs.Loose
import CssSelector.Proofs.Scan.Trim
import CssSelector.Proofs.Lexing.Trim
import CssSelector.Proofs.Captured
import CssSelector.Proofs.Lexing.Verbatim
import CssSelector.Proofs.Formula.Argument
import CssSelector.Proofs.Formula.Numbers
import CssSelector.Proofs.Position
import CssSelector.Proofs.Definitions.Ambiguous
import CssSelector.Proofs.Compile.Error
import CssSelector.Proofs.Role
import CssSelector.Proofs.Rename
import CssSelector.Proofs.Reads.Name
import CssSelector.Proofs.Reads.Space
import CssSelector.Proofs.Reads.Edit
import CssSelector.Proofs.Reads.Recast
import CssSelector.Proofs.Scan.Space
import CssSelector.Proofs.Lexing.Space
import CssSelector.Proofs.Insignificant
import CssSelector.Proofs.Scan.Case
import CssSelector.Proofs.Lexing.Case
import CssSelector.Proofs.Recase
import CssSelector.Proofs.Lexing.Error
import CssSelector.Proofs.Reported.Reading
import CssSelector.Proofs.Identifier
import CssSelector.Proofs.Place
import CssSelector.Proofs.Compile.Flatten
import CssSelector.Proofs.Scan.Line
import CssSelector.Proofs.Lexing.Line
import CssSelector.Proofs.Config.Strict
import CssSelector.Proofs.Selector.Json
import CssSelector.Proofs.Progress
import CssSelector.Proofs.Formula.Keyword
