import Sygus.CommandLine
import Sygus.Enumerator.Session
import Sygus.Example.Reader
import Sygus.Feasibility.Decision
import Sygus.Main
import Sygus.Proofs.Label
import Sygus.Strategy.Session
import Sygus.Proofs.Growth
import Sygus.Proofs.Stitching
import Sygus.Proofs.DivideAndConquer.Soundness
import Sygus.Proofs.Derivation
import Sygus.Proofs.Enumeration
import Sygus.Proofs.Accounting
import Sygus.Proofs.Potential
import Sygus.Proofs.Answer
import Sygus.Proofs.DivideAndConquer.Totality
import Sygus.Proofs.Arithmetic.Syntax
import Sygus.Proofs.Arithmetic.Meaning
import Sygus.Proofs.Arithmetic.Labels
import Sygus.Proofs.DivideAndConquer.Arithmetic
import Sygus.Proofs.Satisfied
import Sygus.Proofs.DivideAndConquer.Bounded
import Sygus.Proofs.Feasibility.Divisors
import Sygus.Proofs.Feasibility.Values
import Sygus.Proofs.Feasibility.Sketching
import Sygus.Proofs.Feasibility.Decision
import Sygus.Proofs.Feasibility.Soundness
import Sygus.Proofs.Arithmetic.Exact
import Sygus.Proofs.Feasibility.Pruning
import Sygus.Proofs.Feasibility.Members
import Sygus.Proofs.Feasibility.Fillings
import Sygus.Proofs.Feasibility.Exactness
import Sygus.Proofs.Search.Turns
import Sygus.Proofs.Search.Thinning
import Sygus.Proofs.Search.Agreement
import Sygus.Proofs.Search.Survivors
import Sygus.Proofs.Choices
import Sygus.Proofs.Enumeration.Sweep
import Sygus.Proofs.Enumeration.Calls
import Sygus.Proofs.Enumeration.Order
import Sygus.Proofs.Enumeration.Depth
import Sygus.Proofs.Work
import Sygus.Proofs.Termination
import Sygus.Proofs.Search.Testing
import Sygus.Proofs.Search.Fairness
import Sygus.Proofs.DivideAndConquer.Recalling
import Sygus.Proofs.Search.Smallest
import Sygus.Proofs.DivideAndConquer.Turns
import Sygus.Proofs.Drawing
import Sygus.Proofs.DivideAndConquer.Branches
import Sygus.Proofs.Languages
import Sygus.Proofs.Stopping
import Sygus.Proofs.Machines
import Sygus.Proofs.Search.Cancellation
import Sygus.Proofs.DivideAndConquer.Cancellation
import Sygus.Proofs.Cancellation
import Sygus.Proofs.Readings
import Sygus.Proofs.Alike
import Sygus.Proofs.DivideAndConquer.Readings
import Sygus.Proofs.DivideAndConquer.Strength
import Sygus.Proofs.Search.Solving
import Sygus.Proofs.Search.Interference
import Sygus.Proofs.Search.Solvers
import Sygus.Proofs.Faults
import Sygus.Proofs.Arithmetic.Faults
import Sygus.Proofs.DivideAndConquer.Exhaustion
import Sygus.Proofs.Sessions
import Sygus.Proofs.Looking
import Sygus.Proofs.Attention
import Sygus.Proofs.Hosting
import Sygus.Proofs.Enumeration.Interruptions
import Sygus.Proofs.Enumeration.Sessions
import Sygus.Proofs.Text.Cutting
import Sygus.Proofs.Text.Integers
import Sygus.Proofs.Example.Format
import Sygus.Proofs.Example.RoundTrip
import Sygus.Proofs.CommandLine
import Sygus.Proofs.Chains
import Sygus.Proofs.Pieces
import Sygus.Proofs.Sifting
import Sygus.Proofs.DivideAndConquer.SingleEntry
import Sygus.Proofs.DivideAndConquer.Attempts
import Sygus.Proofs.DivideAndConquer.Progress
import Sygus.Proofs.Expansion
import Sygus.Proofs.Evaluation.Forms
import Sygus.Proofs.Text.Terms
import Sygus.Proofs.Evaluation.Visits
import Sygus.Proofs.Evaluation.Finality
import Sygus.Proofs.Evaluation.Wrapping
import Sygus.Proofs.Catalogue
import Sygus.Proofs.Interleaving
import Sygus.Proofs.Marking
