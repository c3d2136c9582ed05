import FiniteAutomata.Logged
import FiniteAutomata.Limits
import FiniteAutomata.Search
import FiniteAutomata.Index
import FiniteAutomata.PowerState
import FiniteAutomata.Simulation
import FiniteAutomata.Determinization
import FiniteAutomata.Structure
import FiniteAutomata.Language.Samples
import FiniteAutomata.Language.Description
import FiniteAutomata.Table
import FiniteAutomata.Summary
import FiniteAutomata.Minimization.Minimize
import FiniteAutomata.Regex.Thompson
import FiniteAutomata.Decimal.Digit
import FiniteAutomata.Decimal.Numeral
import FiniteAutomata.Decimal.Scaled
import FiniteAutomata.Decimal.Shortest
import FiniteAutomata.Json.Quoted
import FiniteAutomata.Json.Reader
import FiniteAutomata.Json.Writer
import FiniteAutomata.Json.Record
import FiniteAutomata.Exchange
import FiniteAutomata.Reports
import FiniteAutomata.Dot
import FiniteAutomata.CommandLine.Run
import FiniteAutomata.Main
import FiniteAutomata.Proofs.Regex.Equivalence
import FiniteAutomata.Proofs.Regex.Verdict
import FiniteAutomata.Proofs.Lockstep
import FiniteAutomata.Proofs.Structure
import FiniteAutomata.Proofs.Pumping
import FiniteAutomata.Proofs.Minimization.Repetition
import FiniteAutomata.Proofs.Description
import FiniteAutomata.Proofs.Tabulation
import FiniteAutomata.Proofs.Refusal
import FiniteAutomata.Proofs.Presentation
import FiniteAutomata.Proofs.Exchange
import FiniteAutomata.Proofs.Faults
import FiniteAutomata.Proofs.Pipeline
import FiniteAutomata.Proofs.Samples
import FiniteAutomata.Proofs.Redeterminization
import FiniteAutomata.Proofs.Validation
import FiniteAutomata.Proofs.Minimization.Rounds
import FiniteAutomata.Proofs.Regex.NormalForm
import FiniteAutomata.Proofs.Closure
import FiniteAutomata.Proofs.Indexing
