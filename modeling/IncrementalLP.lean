import IncrementalLP.Main
import IncrementalLP.Registry
import IncrementalLP.Reading.Models
import IncrementalLP.Proofs.Simplex.Selection
import IncrementalLP.Proofs.Simplex.Certificate
import IncrementalLP.Proofs.Simplex.Trail
import IncrementalLP.Proofs.Simplex.Primal
import IncrementalLP.Proofs.Simplex.Phases
import IncrementalLP.Proofs.Simplex.Dual
import IncrementalLP.Proofs.Simplex.Circuit
import IncrementalLP.Proofs.Simplex.Cycling
import IncrementalLP.Proofs.Simplex.Repeats
import IncrementalLP.Proofs.Form.Layout
import IncrementalLP.Proofs.Instance.Changes
import IncrementalLP.Proofs.Instance.Feasible
import IncrementalLP.Proofs.Instance.History
import IncrementalLP.Proofs.Form.Correspondence
import IncrementalLP.Proofs.Form.Points
import IncrementalLP.Proofs.Form.Start
import IncrementalLP.Proofs.Form.Carry
import IncrementalLP.Proofs.Instance.Growth
import IncrementalLP.Proofs.Form.Prefix
import IncrementalLP.Proofs.Form.Rebuilds
import IncrementalLP.Proofs.Form.Repeats
import IncrementalLP.Proofs.Form.Costs
import IncrementalLP.Proofs.Form.Growth
import IncrementalLP.Proofs.Instance.Verdicts
import IncrementalLP.Proofs.Instance.ColdSolves
import IncrementalLP.Proofs.Instance.WarmSolves
import IncrementalLP.Proofs.Instance.Limits
import IncrementalLP.Proofs.Simplex.Visits
import IncrementalLP.Proofs.Instance.Visits
import IncrementalLP.Proofs.Simplex.Budgets
import IncrementalLP.Proofs.Instance.Budgets
import IncrementalLP.Proofs.Instance.Duality
import IncrementalLP.Proofs.Form.Prices
import IncrementalLP.Proofs.Instance.StoredBases
import IncrementalLP.Proofs.Instance.Repeats
import IncrementalLP.Proofs.Instance.Certificates
import IncrementalLP.Proofs.Instance.Translation
import IncrementalLP.Proofs.Session.Resolves
import IncrementalLP.Proofs.Session.Roots
import IncrementalLP.Proofs.Session.Repeats
import IncrementalLP.Proofs.Session.Handles
import IncrementalLP.Proofs.Session.Yields
import IncrementalLP.Proofs.Instance.Failures
import IncrementalLP.Proofs.Matrix.Builds
import IncrementalLP.Proofs.Matrix.Views
import IncrementalLP.Proofs.Matrix.Arrays
import IncrementalLP.Proofs.Session.Assembly
import IncrementalLP.Proofs.Instance.Tables
import IncrementalLP.Proofs.Instance.Naming
import IncrementalLP.Proofs.Instance.Loading
import IncrementalLP.Proofs.Session.Choice
import IncrementalLP.Proofs.Workbench.Sessions
import IncrementalLP.Proofs.Registry
import IncrementalLP.Proofs.Matrix.RoundTrips
import IncrementalLP.Proofs.Problem.Documents
import IncrementalLP.Proofs.Instance.Reports
import IncrementalLP.Proofs.Random.Outcomes
import IncrementalLP.Proofs.Simplex.Iterations
import IncrementalLP.Proofs.Instance.Repairs
import IncrementalLP.Proofs.Matrix.Refusals
