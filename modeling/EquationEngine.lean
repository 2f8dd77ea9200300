import EquationEngine.Workbench
import EquationEngine.Numeric.Compare
import EquationEngine.Double.Reader
import EquationEngine.Proofs.Expr.Batch
import EquationEngine.Proofs.Expr.RoundTrip
import EquationEngine.Proofs.Expr.ReadBack
import EquationEngine.Proofs.Expr.Marking
import EquationEngine.Proofs.Expr.Names
import EquationEngine.Proofs.Expr.Viability
import EquationEngine.Proofs.Expr.Walks
import EquationEngine.Proofs.Simplify.Idempotence
import EquationEngine.Proofs.Simplify.Meaning
import EquationEngine.Proofs.Simplify.Canonical
import EquationEngine.Proofs.Simplify.Merging
import EquationEngine.Proofs.Simplify.Rearranging
import EquationEngine.Proofs.Simplify.Divisors
import EquationEngine.Proofs.Simplify.Flat
import EquationEngine.Proofs.Simplify.Folding
import EquationEngine.Proofs.Double.Reciprocal
import EquationEngine.Proofs.Solve.Rational
import EquationEngine.Proofs.Solve.Bounds
import EquationEngine.Proofs.Solve.WellFormed
import EquationEngine.Proofs.Solve.Path
import EquationEngine.Proofs.Solve.OddRoots
import EquationEngine.Proofs.Solve.Collapsed
import EquationEngine.Proofs.Workbench.Actions
import EquationEngine.Proofs.Workbench.Errors
import EquationEngine.Proofs.Workbench.Settings
import EquationEngine.Proofs.Workbench.Reporting
import EquationEngine.Proofs.Workbench.Levels
