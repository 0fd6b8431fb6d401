import Proto2.Cli.Arguments
import Proto2.Cli.Files
import Proto2.Cli.Run
import Proto2.Corpus.Draw
import Proto2.Corpus.Schema
import Proto2.Corpus.Twister
import Proto2.Corpus.Words
import Proto2.Documentation
import Proto2.Json.Basic
import Proto2.Json.Printer
import Proto2.Json.Schema
import Proto2.Literal.Integer
import Proto2.Literal.StringBody
import Proto2.Main
import Proto2.Model.Comparison
import Proto2.Model.Declaration
import Proto2.Model.Entries
import Proto2.Model.Error
import Proto2.Model.Options
import Proto2.Model.Scope
import Proto2.Model.Traversal
import Proto2.Model.Validation
import Proto2.Model.Value
import Proto2.Number.Binary64
import Proto2.Number.Decimal
import Proto2.Number.Numeral
import Proto2.Number.Shortest
import Proto2.Parser.Basic
import Proto2.Parser.Declaration
import Proto2.Parser.Error
import Proto2.Parser.File
import Proto2.Parser.Literal
import Proto2.Parser.Setting
import Proto2.Printer.Declaration
import Proto2.Printer.File
import Proto2.Printer.Setting
import Proto2.Proofs.Grammar.Basic
import Proto2.Proofs.Literal.Integer
import Proto2.Proofs.Literal.StringBody
import Proto2.Proofs.Number.Numeral
import Proto2.Proofs.Parser.Basic
import Proto2.Proofs.Parser.Literal
import Proto2.Proofs.Parser.Name
import Proto2.Proofs.Parser.Run
import Proto2.Proofs.Schema.Accepts
import Proto2.Proofs.Schema.Bodies
import Proto2.Proofs.Schema.Complete
import Proto2.Proofs.Schema.Files
import Proto2.Proofs.Schema.Grammar
import Proto2.Proofs.Schema.Messages
import Proto2.Proofs.Schema.Names
import Proto2.Proofs.Schema.Pieces
import Proto2.Proofs.Schema.Progress
import Proto2.Proofs.Schema.Stands
import Proto2.Proofs.Schema.Unique
import Proto2.Proofs.Schema.Valid
import Proto2.Proofs.Setting.Accepts
import Proto2.Proofs.Setting.Complete
import Proto2.Proofs.Setting.Grammar
import Proto2.Proofs.Setting.Longest
import Proto2.Proofs.Setting.Parts
import Proto2.Proofs.Setting.Stands
import Proto2.Proofs.Setting.Values
import Proto2.Proofs.Token.Lexed
import Proto2.Proofs.Token.Lexeme
import Proto2.Source.Position
import Proto2.Source.Span
import Proto2.Text.Blank
import Proto2.Text.DecimalDigit
import Proto2.Text.Lines
import Proto2.Text.Printable
import Proto2.Text.Quoted
import Proto2.Text.Utf8
import Proto2.Token.Basic
import Proto2.Token.Error
import Proto2.Token.Gap
import Proto2.Token.Lexeme
import Proto2.Token.Lexer
import Proto2.Token.Stream
import Proto2.Proofs.Documentation
import Proto2.Proofs.Layout.Indent
import Proto2.Proofs.Layout.Lays
import Proto2.Proofs.Layout.Lexed
import Proto2.Proofs.Layout.Sections
import Proto2.Proofs.Number.Text
import Proto2.Proofs.Schema.Legible
import Proto2.Proofs.Schema.Lines
import Proto2.Proofs.Schema.Printed
import Proto2.Proofs.Schema.Qualified
import Proto2.Proofs.Setting.Reread
import Proto2.Proofs.Schema.Reparsed
import Proto2.Proofs.Schema.RoundTrip
import Proto2.Proofs.Schema.Builds
import Proto2.Proofs.Schema.Ends
import Proto2.Proofs.Schema.Numbers
import Proto2.Proofs.Schema.Rejects
import Proto2.Proofs.Parser.Diagnosed
import Proto2.Proofs.Setting.Diagnosed
import Proto2.Proofs.Schema.Diagnosed
import Proto2.Proofs.Source.Place
import Proto2.Proofs.Token.Gap
import Proto2.Proofs.Token.Account
import Proto2.Proofs.Grammar.Viable
import Proto2.Proofs.Parser.Along
import Proto2.Proofs.Setting.Along
import Proto2.Proofs.Schema.Along
import Proto2.Proofs.Schema.Located
import Proto2.Proofs.Parser.Alike
import Proto2.Proofs.Setting.Alike
import Proto2.Proofs.Schema.Alike
import Proto2.Proofs.Parser.Walk
import Proto2.Proofs.Parser.Answers
import Proto2.Proofs.Token.Buffer
import Proto2.Proofs.Schema.Writable
import Proto2.Proofs.Cli.Arguments
import Proto2.Proofs.Cli.AllOrNothing
import Proto2.Proofs.Text.LineEndings
import Proto2.Proofs.Token.Blank
import Proto2.Proofs.Token.LineEndings
import Proto2.Proofs.Schema.LineEndings
import Proto2.Proofs.Corpus.Words
import Proto2.Proofs.Layout.Lines
import Proto2.Proofs.Number.Hexadecimal
import Proto2.Proofs.Corpus.Yields
import Proto2.Proofs.Corpus.Values
import Proto2.Proofs.Corpus.Settings
import Proto2.Proofs.Corpus.Lines
import Proto2.Proofs.Corpus.Fields
import Proto2.Proofs.Corpus.Enums
import Proto2.Proofs.Corpus.Services
import Proto2.Proofs.Corpus.Messages
import Proto2.Proofs.Corpus.Files
import Proto2.Proofs.Corpus.Sound
import Proto2.Proofs.Cli.Returns
import Proto2.Proofs.Token.Longest
import Proto2.Proofs.Token.Reached
import Proto2.Proofs.Token.Attachment
import Proto2.Proofs.Setting.Repeated
import Proto2.Proofs.Setting.Mapped
import Proto2.Proofs.Setting.Lookup
import Proto2.Proofs.Setting.Same
import Proto2.Proofs.Schema.Same
import Proto2.Proofs.Schema.Distinct
import Proto2.Proofs.Token.Continued
import Proto2.Proofs.Layout.Documented
import Proto2.Proofs.Layout.Styles
import Proto2.Proofs.Token.Spelled
import Proto2.Proofs.Token.Indented
import Proto2.Proofs.Setting.Local
import Proto2.Proofs.Schema.Local
import Proto2.Proofs.Schema.Unrelated
import Proto2.Proofs.Json.Values
import Proto2.Proofs.Json.Files
import Proto2.Proofs.Number.Positional
import Proto2.Proofs.Literal.Escapes
import Proto2.Proofs.Literal.Denoted
import Proto2.Proofs.Token.Brackets
import Proto2.Proofs.Parser.Passage
import Proto2.Proofs.Setting.Passage
import Proto2.Proofs.Schema.Passage
import Proto2.Proofs.Schema.Unclosed
import Proto2.Proofs.Schema.Loops
