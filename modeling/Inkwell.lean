import Inkwell.Host.Function
import Inkwell.Main
import Inkwell.Scope.Survey
import Inkwell.Proofs.Heap.AnyOrder
import Inkwell.Proofs.Heap.FiniteMap
import Inkwell.Proofs.Heap.Rendering
import Inkwell.Proofs.Heap.Spellings
import Inkwell.Proofs.Host.AnyOrder
import Inkwell.Proofs.Engine.Determined
import Inkwell.Proofs.Token.Coverage
import Inkwell.Proofs.Expr.Nested
import Inkwell.Proofs.Expr.Progress
import Inkwell.Proofs.Optimizer.Shared
import Inkwell.Proofs.Optimizer.Folded
import Inkwell.Proofs.Optimizer.Pruned
