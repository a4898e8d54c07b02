import CudaToHip.Main
import CudaToHip.CommandLine.Run
import CudaToHip.Session
import CudaToHip.Tree.Codec
import CudaToHip.Proofs.Plan.FirstClaim
import CudaToHip.Proofs.Replacement.Sweep
import CudaToHip.Proofs.Scan.Agreement
import CudaToHip.Proofs.Scan.Views
import CudaToHip.Proofs.Scan.Reported
import CudaToHip.Proofs.Scan.Faithful
import CudaToHip.Proofs.FileSystem
import CudaToHip.Proofs.Staging
import CudaToHip.Proofs.CommandLine.Run
import CudaToHip.Proofs.Plan.Apply
import CudaToHip.Proofs.Plan.Isolation
import CudaToHip.Proofs.Plan.Balance
import CudaToHip.Proofs.Token.Respell
import CudaToHip.Proofs.Rules.Renaming
import CudaToHip.Proofs.Scan.Hiding
import CudaToHip.Proofs.Rules.Splice
import CudaToHip.Proofs.Rules.Parameters
import CudaToHip.Proofs.Rules.Folding
import CudaToHip.Proofs.Text.Bytes
import CudaToHip.Proofs.Token.Geometry
import CudaToHip.Proofs.Plan.AllOrNothing
import CudaToHip.Proofs.Scan.StepOrder
import CudaToHip.Proofs.Scan.TextOrder
import CudaToHip.Proofs.Token.Cursor
import CudaToHip.Proofs.Token.CursorTokens
import CudaToHip.Proofs.Token.Gaps
import CudaToHip.Proofs.Token.Cut
import CudaToHip.Proofs.Scan.ConfigTokens
import CudaToHip.Proofs.Token.Range
import CudaToHip.Proofs.Token.LineEndTokens
import CudaToHip.Proofs.Rules.Markers
import CudaToHip.Proofs.Rules.Literals
import CudaToHip.Proofs.Token.Configurations
import CudaToHip.Proofs.Scan.Qualifiers
import CudaToHip.Proofs.Scan.TemplateArguments
import CudaToHip.Proofs.Staging.Leftover
import CudaToHip.Proofs.Scan.Nested
import CudaToHip.Proofs.Scan.Declarations
import CudaToHip.Proofs.Scan.Shows
import CudaToHip.Proofs.Scan.InType
import CudaToHip.Proofs.Scan.LeftOut
import CudaToHip.Proofs.Scan.DeclaredTypes
import CudaToHip.Proofs.Replacement.Pairs
import CudaToHip.Proofs.Scan.SyntaxErrors
import CudaToHip.Proofs.Replacement.Stricter
import CudaToHip.Proofs.Plan.Rediscovery
import CudaToHip.Proofs.Staging.Undo
import CudaToHip.Proofs.Config.RoundTrip
import CudaToHip.Proofs.Token.Brackets
import CudaToHip.Proofs.Scan.Readable
