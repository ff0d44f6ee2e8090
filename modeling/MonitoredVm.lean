import MonitoredVm.Main
import MonitoredVm.Proofs.Arguments
import MonitoredVm.Proofs.BranchDelivery
import MonitoredVm.Proofs.BranchDisabling
import MonitoredVm.Proofs.Clearing
import MonitoredVm.Proofs.Configuration
import MonitoredVm.Proofs.Entering
import MonitoredVm.Proofs.InstructionEvents
import MonitoredVm.Proofs.Keywords
import MonitoredVm.Proofs.LineReports
import MonitoredVm.Proofs.Listing
import MonitoredVm.Proofs.Literals
import MonitoredVm.Proofs.LoopEnds
import MonitoredVm.Proofs.Lossless
import MonitoredVm.Proofs.MainInterpreter
import MonitoredVm.Proofs.Progress
import MonitoredVm.Proofs.References
import MonitoredVm.Proofs.Roles
import MonitoredVm.Proofs.Sessions
import MonitoredVm.Proofs.SourceLines
import MonitoredVm.Proofs.Tracebacks
import MonitoredVm.Proofs.Transparency
