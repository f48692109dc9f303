import TimedTrace.Formula.Tree
import TimedTrace.Session
import TimedTrace.Proofs.Soundness
import TimedTrace.Proofs.Finality
import TimedTrace.Proofs.Linearization
import TimedTrace.Proofs.CatchingUp
import TimedTrace.Proofs.Detection
import TimedTrace.Proofs.Values
import TimedTrace.Proofs.Agreement
import TimedTrace.Proofs.Coverage
import TimedTrace.Proofs.Survival
import TimedTrace.Proofs.Hindsight
import TimedTrace.Proofs.Tokens
import TimedTrace.Proofs.Derived
import TimedTrace.Proofs.Durations
import TimedTrace.Proofs.Retrospection
import TimedTrace.Proofs.Abreast
import TimedTrace.Proofs.Standing
import TimedTrace.Proofs.Refusals
import TimedTrace.Proofs.Termination
import TimedTrace.Proofs.Widening
import TimedTrace.Proofs.Retries
import TimedTrace.Proofs.Nesting
import TimedTrace.Proofs.Packing
import TimedTrace.Proofs.ChangePoints
