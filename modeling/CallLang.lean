import CallLang.Text.Bytes
import CallLang.Text.Utf8
import CallLang.Text.Utf8.Laws
import CallLang.Text.Blank
import CallLang.Text.Printable
import CallLang.Text.Quoted
import CallLang.Text.Decimal
import CallLang.Source.Location
import CallLang.Source.Input
import CallLang.Token
import CallLang.Token.Scanner
import CallLang.Listing
import CallLang.Literal
import CallLang.Tree
import CallLang.Tree.ParseError
import CallLang.Tree.Parser
import CallLang.Program
import CallLang.Program.Lowering
import CallLang.C.StringLiteral
import CallLang.C.Emission
import CallLang.Host
import CallLang.Host.FileTree
import CallLang.Toolchain
import CallLang.Compiler
import CallLang.CommandLine.Options
import CallLang.CommandLine
import CallLang.Main
import CallLang.Proofs.Text.Symbols
import CallLang.Proofs.Source.Delivery
import CallLang.Proofs.Source.Account
import CallLang.Proofs.Source.Interruption
import CallLang.Proofs.Token.Cut
import CallLang.Proofs.Token.Scanning
import CallLang.Proofs.Token.Spans
import CallLang.Proofs.Token.Values
import CallLang.Proofs.Token.Traces
import CallLang.Proofs.Token.Account
import CallLang.Proofs.Tree.Braces
import CallLang.Proofs.Tree.Grammar
import CallLang.Proofs.C.StringReading
import CallLang.Proofs.C.Items
import CallLang.Proofs.C.Reading
import CallLang.Proofs.Compiler.Delivery
import CallLang.Proofs.Compiler.Reading
import CallLang.Proofs.Compiler.Account
import CallLang.Proofs.Token.Interruption
import CallLang.Proofs.Text.Boundaries
import CallLang.Proofs.Token.Layout
import CallLang.Proofs.Program.Relocation
import CallLang.Proofs.Compiler.Layout
import CallLang.Proofs.Token.Words
import CallLang.Proofs.Tree.Writing
import CallLang.Proofs.Source.Lines
import CallLang.Proofs.Compiler.Concatenation
import CallLang.Proofs.Token.Spelling
import CallLang.Proofs.Tree.Preorder
import CallLang.Proofs.Program.Preorder
import CallLang.Proofs.Compiler.Places
import CallLang.Proofs.Token.Numbers
import CallLang.Proofs.Compiler.ExitCodes
import CallLang.Proofs.C.Composition
import CallLang.Proofs.Compiler.CleanText
import CallLang.Proofs.CommandLine.Flags
import CallLang.Proofs.CommandLine.Starting
import CallLang.Proofs.CommandLine.Agreement
import CallLang.Proofs.Token.Strings
import CallLang.Proofs.Token.Maximal
import CallLang.Proofs.Tree.Extension
import CallLang.Proofs.C.Quoting
import CallLang.Proofs.Program.Reaching
import CallLang.Proofs.C.Generation
import CallLang.Proofs.C.Structure
import CallLang.Proofs.Token.Locations
import CallLang.Proofs.Listing
import CallLang.Proofs.Text.Quoted
import CallLang.Proofs.Tree.Failure
import CallLang.Proofs.Tree.Resumption
import CallLang.Proofs.Tree.Listing
import CallLang.Proofs.Program.Listing
import CallLang.Proofs.Program.Raising
import CallLang.Proofs.Token.Lookahead
