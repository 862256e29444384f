import Nucleus.Console
import Nucleus.Session
import Nucleus.Proofs.Consistency
import Nucleus.Proofs.Counts
import Nucleus.Proofs.Ending
import Nucleus.Proofs.Units
import Nucleus.Proofs.Delivery
import Nucleus.Proofs.Checkpoint
import Nucleus.Proofs.Wakeups
import Nucleus.Proofs.Recurrence
import Nucleus.Proofs.PassingUp
import Nucleus.Proofs.Finality
import Nucleus.Proofs.Fairness
import Nucleus.Proofs.Computer.Metering
import Nucleus.Proofs.Accounting
import Nucleus.Proofs.Redirection
import Nucleus.Proofs.Isolation
import Nucleus.Proofs.Vacancy
import Nucleus.Proofs.Integrity
import Nucleus.Proofs.Semaphore.Refinement
import Nucleus.Proofs.PseudoClock
import Nucleus.Proofs.LineInterrupts
import Nucleus.Proofs.Forest
import Nucleus.Proofs.RoundTrip
import Nucleus.Proofs.Creation
