import Reckon.Automaton
import Reckon.Descent.Lemmas
import Reckon.Expr.Dismantle
import Reckon.Expr.Exact
import Reckon.Grammar
import Reckon.Main
import Reckon.Proofs.Counting
import Reckon.Proofs.Cursor
import Reckon.Proofs.Derivation
import Reckon.Proofs.Descent
import Reckon.Proofs.Evaluation
import Reckon.Proofs.Lines
import Reckon.Proofs.Locality
import Reckon.Proofs.Pushdown
import Reckon.Proofs.Reading
import Reckon.Proofs.Simulation
import Reckon.Proofs.Spelling
import Reckon.Proofs.Nesting
import Reckon.Proofs.Phrasing
import Reckon.Proofs.Infix
import Reckon.Proofs.Substitution
import Reckon.Proofs.OnDemand
import Reckon.Proofs.Answers
import Reckon.Proofs.Sessions
import Reckon.Proofs.Listings
import Reckon.Proofs.FailureCount
import Reckon.Proofs.Accounting
import Reckon.Proofs.Stacks
import Reckon.Proofs.Release
import Reckon.Proofs.Calls
import Reckon.Proofs.Pointing
import Reckon.Proofs.Insertion
import Reckon.Proofs.Logging
import Reckon.Proofs.Replay
import Reckon.Proofs.Rules
import Reckon.Proofs.Tracing
import Reckon.Proofs.Operations
import Reckon.Proofs.Rendering
import Reckon.Proofs.Concatenation
