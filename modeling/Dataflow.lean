import Dataflow.Builder
import Dataflow.Operator.Totals
import Dataflow.Operators.Builtin
import Dataflow.Proofs.Arguments
import Dataflow.Proofs.Arranged
import Dataflow.Proofs.Descent
import Dataflow.Proofs.Elementwise
import Dataflow.Proofs.Incremental
import Dataflow.Proofs.Indexed
import Dataflow.Proofs.Interpolated
import Dataflow.Proofs.Invalidated
import Dataflow.Proofs.Latest
import Dataflow.Proofs.Lookups
import Dataflow.Proofs.Ordered
import Dataflow.Proofs.Phrased
import Dataflow.Proofs.Placed
import Dataflow.Proofs.Refused
import Dataflow.Proofs.Rerun
import Dataflow.Proofs.Recalled
import Dataflow.Proofs.Rooted
import Dataflow.Proofs.Selected
import Dataflow.Proofs.Topological
import Dataflow.Proofs.Unlost
