import MatrixScript.Main
import MatrixScript.Proofs.Program.Roundtrip
import MatrixScript.Proofs.Translation.Lockstep
import MatrixScript.Proofs.Translation.Safe
import MatrixScript.Proofs.Translation.Scalar
import MatrixScript.Proofs.Translation.Temporary
import MatrixScript.Proofs.Tree.OfProgram
import MatrixScript.Proofs.Tree.Raw
import MatrixScript.Proofs.Text.Words
import MatrixScript.Proofs.Translation.Again
import MatrixScript.Proofs.Translation.Next
import MatrixScript.Proofs.Translation.Mentions
import MatrixScript.Proofs.Translation.Orderly
import MatrixScript.Proofs.Translation.Placed
import MatrixScript.Proofs.Rule.BuiltinTwin
import MatrixScript.Proofs.Rule.Refusal
import MatrixScript.Proofs.Translation.Contained
import MatrixScript.Proofs.Translation.Isolated
import MatrixScript.Proofs.Translation.Typing
import MatrixScript.Proofs.Translation.Contagion
import MatrixScript.Proofs.Translation.Subscript
import MatrixScript.Proofs.Token.Layout
import MatrixScript.Proofs.Translation.Reserved
import MatrixScript.Proofs.Translation.Promotion
import MatrixScript.Proofs.Translation.Later
import MatrixScript.Proofs.Translation.Laid
import MatrixScript.Proofs.Translation.Called
import MatrixScript.Proofs.Translation.Journal
import MatrixScript.Proofs.Token.Dotted
import MatrixScript.Proofs.Translation.Ratio
import MatrixScript.Proofs.Translation.Handed
import MatrixScript.Proofs.Translation.Logical
import MatrixScript.Proofs.Translation.Shifted
import MatrixScript.Proofs.Translation.Tokens
import MatrixScript.Proofs.Translation.Quotients
import MatrixScript.Proofs.Translation.Truths
import MatrixScript.Proofs.Translation.Vector
import MatrixScript.Proofs.Translation.Destination
import MatrixScript.Proofs.Translation.Returned
import MatrixScript.Proofs.Translation.Commuted
import MatrixScript.Proofs.Translation.Dimensions
import MatrixScript.Proofs.Translation.Sized
import MatrixScript.Proofs.Translation.Literal
import MatrixScript.Proofs.Program.Row
import MatrixScript.Proofs.Translation.Dangling
import MatrixScript.Proofs.Program.Unclosed
import MatrixScript.Proofs.Text.Pattern
import MatrixScript.Proofs.Program.Loops
import MatrixScript.Proofs.Config.Declared
import MatrixScript.Proofs.Translation.Timer
