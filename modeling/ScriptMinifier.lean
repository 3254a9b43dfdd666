import ScriptMinifier.Byte
import ScriptMinifier.Symbol
import ScriptMinifier.Utf8
import ScriptMinifier.Position
import ScriptMinifier.Unterminated
import ScriptMinifier.Uncommented
import ScriptMinifier.Cursor
import ScriptMinifier.Literal
import ScriptMinifier.Decision
import ScriptMinifier.Machine
import ScriptMinifier.Outline
import ScriptMinifier.Minify
import ScriptMinifier.Log
import ScriptMinifier.ErrorPolicy
import ScriptMinifier.Value
import ScriptMinifier.Call
import ScriptMinifier.Command
import ScriptMinifier.Main
import ScriptMinifier.Fuzz.Supply
import ScriptMinifier.Fuzz.Fragment
import ScriptMinifier.Fuzz.Mutation
import ScriptMinifier.Fuzz.Check
import ScriptMinifier.Proofs.Reading
import ScriptMinifier.Proofs.Run
import ScriptMinifier.Proofs.Refinement
import ScriptMinifier.Proofs.Closing
import ScriptMinifier.Proofs.RawText
import ScriptMinifier.Proofs.Scan
import ScriptMinifier.Proofs.WellCut
import ScriptMinifier.Proofs.Recutting
import ScriptMinifier.Proofs.Trimming
import ScriptMinifier.Proofs.Idempotence
import ScriptMinifier.Proofs.CreatedComment
import ScriptMinifier.Proofs.Joining
import ScriptMinifier.Proofs.CommentLayout
import ScriptMinifier.Proofs.Concatenation
import ScriptMinifier.Proofs.Separation
import ScriptMinifier.Proofs.Decoding
import ScriptMinifier.Proofs.Normalization
import ScriptMinifier.Proofs.Extension
import ScriptMinifier.Proofs.Locality
import ScriptMinifier.Proofs.Stripping
import ScriptMinifier.Proofs.Preservation
import ScriptMinifier.Proofs.Subsequence
import ScriptMinifier.Proofs.Shape
import ScriptMinifier.Proofs.Interchange
import ScriptMinifier.Proofs.Uncommenting
import ScriptMinifier.Proofs.Positions
import ScriptMinifier.Proofs.Fragments
import ScriptMinifier.Proofs.Mutations
import ScriptMinifier.Proofs.Invariant
import ScriptMinifier.Proofs.Termination
import ScriptMinifier.Proofs.Requests
import ScriptMinifier.Proofs.Steps
