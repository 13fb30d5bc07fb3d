import Packrat.Grammar.Session
import Packrat.Main
import Packrat.Proofs.Assembly
import Packrat.Proofs.Composition
import Packrat.Proofs.Budget
import Packrat.Proofs.Indifference
import Packrat.Proofs.Bookkeeping
import Packrat.Proofs.Advance
import Packrat.Proofs.Halting
import Packrat.Proofs.Termination
import Packrat.Proofs.Alignment
import Packrat.Proofs.Simulation
import Packrat.Proofs.Replay
import Packrat.Proofs.Directness
import Packrat.Proofs.Transparency
import Packrat.Proofs.Independence
import Packrat.Proofs.Derivation
import Packrat.Proofs.Scanning
import Packrat.Proofs.Recognition
import Packrat.Proofs.Containment
import Packrat.Proofs.Visits
import Packrat.Proofs.Locality
import Packrat.Proofs.Meaning
import Packrat.Proofs.Rebinding
import Packrat.Proofs.Refinement
import Packrat.Proofs.Iteration
import Packrat.Proofs.Recursion
import Packrat.Proofs.WellFormed
import Packrat.Proofs.Balance
import Packrat.Proofs.Backtracking
import Packrat.Proofs.Taint
import Packrat.Proofs.Printing
import Packrat.Proofs.Snapshots
import Packrat.Proofs.Moments
import Packrat.Proofs.WriteOnce
import Packrat.Proofs.Depths
import Packrat.Proofs.Storage
import Packrat.Proofs.Rounds
import Packrat.Proofs.Viability
import Packrat.Proofs.Settings
import Packrat.Proofs.Protocol
import Packrat.Proofs.Observation
import Packrat.Proofs.Frames
import Packrat.Proofs.Reporting
import Packrat.Proofs.Arithmetic
import Packrat.Proofs.Repetition
import Packrat.Proofs.CharRuns
import Packrat.Proofs.Labelling
import Packrat.Proofs.Positions
import Packrat.Proofs.Indentation
import Packrat.Proofs.Arguments
