import NumScript.CommandLine.Run
import NumScript.Json.Datum
import NumScript.Main
import NumScript.Proofs.Compile
import NumScript.Proofs.Stmt.Render
import NumScript.Stmt.Progress
import NumScript.Proofs.Codegen.Check
import NumScript.Proofs.Codegen.Growth
import NumScript.Proofs.Codegen.Hoisting
import NumScript.Proofs.Number.ReadBack
import NumScript.Proofs.Codegen.Written
import NumScript.Proofs.Codegen.Calls
import NumScript.Proofs.Codegen.Session
import NumScript.Proofs.Codegen.Reading
import NumScript.Proofs.Codegen.Symbols
import NumScript.Proofs.Token.Decomposition
import NumScript.Proofs.Codegen.Fragments
import NumScript.Proofs.Codegen.Atoms
import NumScript.Proofs.Codegen.Lexical
import NumScript.Proofs.Codegen.Identifiers
import NumScript.Proofs.Codegen.Unplaced
import NumScript.Proofs.Positions
import NumScript.Proofs.Stmt.Lookahead
import NumScript.Proofs.Stmt.Completion
import NumScript.Proofs.ErrorPosition
import NumScript.Proofs.Token.Lines
import NumScript.Proofs.Sequence
import NumScript.Proofs.CommandLine.Conduct
import NumScript.Proofs.Json.Reader
import NumScript.Proofs.Json.Written
import NumScript.Proofs.Json.RoundTrip
import NumScript.Proofs.Flat.Conservation
import NumScript.Proofs.Flat.Separation
import NumScript.Proofs.CommandLine.Preservation
import NumScript.Proofs.Codegen.Blocks
import NumScript.Proofs.Codegen.Units
import NumScript.Proofs.Codegen.Returns
import NumScript.Proofs.Codegen.Isolation
import NumScript.Proofs.Codegen.Chains
import NumScript.Proofs.Codegen.Ledger
import NumScript.Proofs.Token.Joined
import NumScript.Proofs.CExpr.Value
import NumScript.Proofs.CExpr.Loop
import NumScript.Proofs.Codegen.Counting
import NumScript.Proofs.Stmt.Order
import NumScript.Proofs.CommandLine.Arrangement
import NumScript.Proofs.Json.Validity
import NumScript.Proofs.Cursor
import NumScript.Proofs.Flat.PostOrder
import NumScript.Proofs.Flat.WriteBack
import NumScript.Proofs.Json.Depth
