import LispEngines.Main
import LispEngines.Host.Folder
import LispEngines.Proofs.Assembly.Reference
import LispEngines.Proofs.Course.Nesting
import LispEngines.Proofs.Engines.BadBinding
import LispEngines.Proofs.Engines.Depth
import LispEngines.Proofs.Engines.MachineAgreement
import LispEngines.Proofs.Frame.Invariant
import LispEngines.Proofs.Frame.Restart
import LispEngines.Proofs.Machine.Factorial
import LispEngines.Proofs.Reader.Allocation
import LispEngines.Proofs.Schedule.Fairness
import LispEngines.Proofs.Schedule.Ledger
import LispEngines.Proofs.Machine.Registers
import LispEngines.Proofs.Assembly.Listing
import LispEngines.Proofs.Schedule.Reach
import LispEngines.Proofs.Schedule.PlainLoop
import LispEngines.Proofs.Schedule.Company
import LispEngines.Proofs.Machine.Failing
import LispEngines.Proofs.Frame.Stopping
import LispEngines.Proofs.Schedule.Visits
import LispEngines.Proofs.Schedule.Draining
import LispEngines.Proofs.Store.Shadowing
import LispEngines.Proofs.Assembly.Parts
import LispEngines.Proofs.Assembly.Lines
import LispEngines.Proofs.Engines.ProgramForm
import LispEngines.Proofs.Assembly.Writing
import LispEngines.Proofs.Schedule.Rotation
import LispEngines.Proofs.Settings.FromVariables
import LispEngines.Proofs.Engines.Session
