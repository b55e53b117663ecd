import Trellis.Contract.Text
import Trellis.Script
import Trellis.Proofs.Features
import Trellis.Proofs.Pipeline
import Trellis.Proofs.Arena.Navigation
import Trellis.Proofs.Tree.Retracing
import Trellis.Proofs.Planner.Circularity
import Trellis.Proofs.Planner.Gating
import Trellis.Proofs.Planner.Leastness
import Trellis.Proofs.Planner.Registration
import Trellis.Proofs.Planner.RemovalFree
import Trellis.Proofs.Planner.Shortage
import Trellis.Proofs.Execution.Books
import Trellis.Proofs.Execution.Chronicle
import Trellis.Proofs.Execution.Cloning
import Trellis.Proofs.Execution.MarkerReach
import Trellis.Proofs.Execution.Nodewise
import Trellis.Proofs.Execution.Ownership
import Trellis.Proofs.Execution.Supply
