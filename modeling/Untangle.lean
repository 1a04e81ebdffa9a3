import Untangle.Main
import Untangle.Proofs.Code.Arena
import Untangle.Proofs.Code.RoundTrip
import Untangle.Proofs.Machine.LiteralRules
import Untangle.Proofs.Simplification.StackBalance
import Untangle.Proofs.ClassUnit.Preservation
import Untangle.Proofs.Engine.ChangeCount
import Untangle.Proofs.ClassFile.Canonical
import Untangle.Proofs.Engine.Settling
import Untangle.Proofs.Job.Schedules
import Untangle.Proofs.Simplification.Pruning
import Untangle.Proofs.Simplification.Forwarding
import Untangle.Proofs.Pool.References
import Untangle.Proofs.Decryption.Removal
import Untangle.Proofs.Code.Widening
import Untangle.Proofs.Code.Tiling
import Untangle.Proofs.Code.ProtectedRanges
import Untangle.Proofs.Members.Forwarders
import Untangle.Proofs.Text.ShortestForms
import Untangle.Proofs.Evaluation
import Untangle.Proofs.Decryption.Recovery
import Untangle.Proofs.CallSites.Names
import Untangle.Proofs.Decryption.Providers
import Untangle.Proofs.Graphs
