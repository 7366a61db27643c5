import IndentAsm.Machine
import IndentAsm.NameMap
import IndentAsm.Text.Quoted
import IndentAsm.Text.Blank
import IndentAsm.Token.Basic
import IndentAsm.Token.Scan
import IndentAsm.Token.Stream
import IndentAsm.Diagnostic.Error
import IndentAsm.Diagnostic.Event
import IndentAsm.Program.Operand
import IndentAsm.Program.Instruction
import IndentAsm.Program.Macro
import IndentAsm.Program.Basic
import IndentAsm.Parse.Literal
import IndentAsm.Parse.Operand
import IndentAsm.Parse.Block
import IndentAsm.Parse.Call
import IndentAsm.Parse.State
import IndentAsm.Parse.Progress
import IndentAsm.Parse.Run
import IndentAsm.Image.SymbolTable
import IndentAsm.Image.Encode
import IndentAsm.Image.Link
import IndentAsm.Assemble
import IndentAsm.Command.Arguments
import IndentAsm.Command.Path
import IndentAsm.Command.SystemError
import IndentAsm.Command.Disk
import IndentAsm.Command.Filter
import IndentAsm.Command.Session
import IndentAsm.Command.World
import IndentAsm.Main
import IndentAsm.Proofs.Image.Resolved
import IndentAsm.Proofs.Image.Placement
import IndentAsm.Proofs.Parse.Step
import IndentAsm.Proofs.Parse.Line
import IndentAsm.Proofs.Parse.Shape
import IndentAsm.Proofs.Parse.Nesting
import IndentAsm.Proofs.Expansion.Lines
import IndentAsm.Proofs.Token.Scanned
import IndentAsm.Proofs.Expansion.Definition
import IndentAsm.Proofs.Expansion.Transparent
import IndentAsm.Proofs.Parse.Limit
import IndentAsm.Proofs.Token.Splice
import IndentAsm.Proofs.Parse.Literal
import IndentAsm.Proofs.Parse.Operands
import IndentAsm.Proofs.Image.Safe
import IndentAsm.Proofs.Parse.Grammar
import IndentAsm.Proofs.Parse.Derivation
import IndentAsm.Proofs.Image.Decode
import IndentAsm.Proofs.Image.Outcome
import IndentAsm.Proofs.Image.Renumber
import IndentAsm.Proofs.Token.Lexeme
import IndentAsm.Proofs.Parse.Provenance
import IndentAsm.Proofs.Parse.Bodies
import IndentAsm.Proofs.Program.Listing
import IndentAsm.Proofs.Token.Lines
import IndentAsm.Proofs.Token.Padding
import IndentAsm.Proofs.Parse.Padding
import IndentAsm.Proofs.Program.BlankLines
import IndentAsm.Proofs.Program.Addresses
import IndentAsm.Proofs.Token.Pieces
import IndentAsm.Proofs.Parse.Citation
import IndentAsm.Proofs.Program.Diagnostics
import IndentAsm.Proofs.Program.Indent
import IndentAsm.Proofs.Token.Indents
import IndentAsm.Proofs.Parse.LineStarts
import IndentAsm.Proofs.Parse.Baseline
import IndentAsm.Proofs.Parse.Reindent
import IndentAsm.Proofs.Token.Joined
import IndentAsm.Proofs.Parse.Numeral
import IndentAsm.Proofs.Image.Passes
import IndentAsm.Proofs.Parse.CallLine
import IndentAsm.Proofs.Image.Rename
import IndentAsm.Proofs.Token.Headings
import IndentAsm.Proofs.Token.Unseen
import IndentAsm.Proofs.Parse.Recorded
import IndentAsm.Proofs.Program.Tree
import IndentAsm.Proofs.Parse.Kept
import IndentAsm.Proofs.Command.Delivery
