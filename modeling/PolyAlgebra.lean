import PolyAlgebra.Calculus
import PolyAlgebra.Double.Arithmetic
import PolyAlgebra.Double.Scientific
import PolyAlgebra.Equation
import PolyAlgebra.Interpolation
import PolyAlgebra.Proofs.ChainRule
import PolyAlgebra.Proofs.CheckedRuns
import PolyAlgebra.Proofs.DefiniteIntegral
import PolyAlgebra.Proofs.DifferentiationDomain
import PolyAlgebra.Proofs.Divisibility
import PolyAlgebra.Proofs.Double.Rereading
import PolyAlgebra.Proofs.Double.Sums
import PolyAlgebra.Proofs.Equality
import PolyAlgebra.Proofs.ErrorPositions
import PolyAlgebra.Proofs.Evaluation
import PolyAlgebra.Proofs.GridSearch
import PolyAlgebra.Proofs.Integration
import PolyAlgebra.Proofs.IntegrationDomain
import PolyAlgebra.Proofs.Interpolation
import PolyAlgebra.Proofs.Iteration
import PolyAlgebra.Proofs.NormalForm
import PolyAlgebra.Proofs.NumberReplacement
import PolyAlgebra.Proofs.OrderIndependence
import PolyAlgebra.Proofs.OrderLaws
import PolyAlgebra.Proofs.QuotientRule
import PolyAlgebra.Proofs.Residual
import PolyAlgebra.Proofs.RingLaws
import PolyAlgebra.Proofs.Simplification
import PolyAlgebra.Proofs.SimplifiedDegree
import PolyAlgebra.Proofs.TermGroup
import PolyAlgebra.Proofs.TermReading
import PolyAlgebra.Proofs.Tokenization
import PolyAlgebra.Proofs.Variables
import PolyAlgebra.Proofs.VectorValues
