import Simuless.Telemetry.Soundness
import Simuless.Telemetry.RoundTrip
import Simuless.Telemetry.Resync
import Simuless.Foundation.Framing
import Simuless.Telemetry.Delivery
import Simuless.Runtime.RingBuffer
import Simuless.Runtime.Gain
import Simuless.Runtime.Integrator
import Simuless.Runtime.DiffEq
import Simuless.Runtime.NodeApi
import Simuless.Runtime.Validation
import Simuless.Runtime.Extents
import Simuless.Foundation.Machine
import Simuless.Runtime.Run
import Simuless.Foundation.DifferenceEquation
import Simuless.Runtime.DiffEqLaw
import Simuless.Runtime.Reset
import Simuless.Foundation.Returns
import Simuless.Runtime.Failure
import Simuless.Telemetry.StaleBytes
import Simuless.Telemetry.Handover
import Simuless.Telemetry.Bounds
import Simuless.Runtime.IntegratorLaw
import Simuless.Foundation.Dialogue
import Simuless.Foundation.Ledger
import Simuless.Io.Socket
import Simuless.Io.Object
import Simuless.Io.Tcp
import Simuless.Io.Api
import Simuless.Io.Ownership
import Simuless.Io.FailedCreate
import Simuless.Io.Disconnect
import Simuless.Io.StatusCodes
import Simuless.Foundation.Spoiled
import Simuless.Telemetry.Corruption
import Simuless.Runtime.ShapeInference
import Simuless.Runtime.Agreement
import Simuless.Runtime.EdgeInit
import Simuless.Runtime.ElementCount
import Simuless.Io.UrlGrammar
import Simuless.Runtime.Plot
import Simuless.Foundation.Loop
import Simuless.Linalg.Buffer
import Simuless.Foundation.RankOne
import Simuless.Linalg.CholUpdate
import Simuless.Linalg.CholDowndate
import Simuless.Foundation.Elimination
import Simuless.Foundation.Pivoting
import Simuless.Linalg.Lup
import Simuless.Foundation.Triangular
import Simuless.Linalg.LinsolveLup
import Simuless.Linalg.MatOps
import Simuless.Linalg.Inv
import Simuless.Foundation.Displacement
import Simuless.Linalg.Det
import Simuless.Foundation.RowOperations
import Simuless.Linalg.LinsolveGauss
import Simuless.Linalg.SolverAgreement
import Simuless.Linalg.Tikhonov
import Simuless.Linalg.Hankel
import Simuless.Foundation.TruncatedExp
import Simuless.Linalg.Norm
import Simuless.Linalg.Expm
import Simuless.Linalg.CrowdedPivots
import Simuless.Foundation.Lyapunov
import Simuless.Foundation.Stall
import Simuless.Linalg.Dlyap
import Simuless.Foundation.Response
import Simuless.Foundation.Schedule
import Simuless.Runtime.Chain
import Simuless.Foundation.Cholesky
import Simuless.Linalg.Chol
import Simuless.Linalg.LinsolveChol
import Simuless.Linalg.CholRuns
import Simuless.Foundation.OrthogonalPivots
import Simuless.Foundation.Reflection
import Simuless.Linalg.InvOrthogonal
import Simuless.Linalg.Qr
import Simuless.Linalg.LinsolveQr
import Simuless.Foundation.PlaneRotation
import Simuless.Foundation.DescendingSort
import Simuless.Linalg.SvdJacobi
import Simuless.Linalg.SvdFinish
import Simuless.Linalg.SvdRuns
import Simuless.Linalg.Pinv
import Simuless.Linalg.NormTwo
import Simuless.Foundation.Fuel
import Simuless.Foundation.Balancing
import Simuless.Linalg.Balance
import Simuless.Foundation.Tridiagonal
import Simuless.Foundation.Bulge
import Simuless.Foundation.Residual
import Simuless.Linalg.Tridiag
import Simuless.Linalg.TridiagProduct
import Simuless.Linalg.EigSym
import Simuless.Linalg.EigSymRuns
import Simuless.Foundation.Hessenberg
import Simuless.Linalg.Hessenberg
import Simuless.Foundation.BestSoFar
import Simuless.Linalg.Nonlinsolve
import Simuless.Linalg.Submatrix
