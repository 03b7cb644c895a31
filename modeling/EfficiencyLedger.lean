import EfficiencyLedger.Model.Enums
import EfficiencyLedger.Lib.CheckedU64
import EfficiencyLedger.Lib.Counters
import EfficiencyLedger.Model.Entry
import EfficiencyLedger.Model.Attribution
import EfficiencyLedger.Model.Ledger
import EfficiencyLedger.Lib.Apportion
import EfficiencyLedger.Proof.Split
import EfficiencyLedger.Proof.Postings
import EfficiencyLedger.Lib.Wire
import EfficiencyLedger.Model.Codec
import EfficiencyLedger.Proof.Append
import EfficiencyLedger.Proof.Codec
import EfficiencyLedger.Model.Persistence
import EfficiencyLedger.Proof.Persistence
import EfficiencyLedger.Lib.Machine
import EfficiencyLedger.Model.Run
import EfficiencyLedger.Model.Reconcile
import EfficiencyLedger.Model.Queries
import EfficiencyLedger.Model.Cli
import EfficiencyLedger.Model.Coordinator
import EfficiencyLedger.Lib.Session
import EfficiencyLedger.Lib.Progress
import EfficiencyLedger.Model.Network
import EfficiencyLedger.Model.Worker
import EfficiencyLedger.Proof.Network
import EfficiencyLedger.Proof.Run
import EfficiencyLedger.Proof.Books
import EfficiencyLedger.Proof.Refusal
import EfficiencyLedger.Proof.Replay
import EfficiencyLedger.Proof.Reload
import EfficiencyLedger.Proof.Coordinator
import EfficiencyLedger.Law.Atomicity
import EfficiencyLedger.Law.RoundTrip
import EfficiencyLedger.Law.AttemptFences
import EfficiencyLedger.Law.Durability
import EfficiencyLedger.Law.Closure
import EfficiencyLedger.Law.Conservation
import EfficiencyLedger.Law.Revision
import EfficiencyLedger.Law.Attempts
import EfficiencyLedger.Law.DeadAttempts
import EfficiencyLedger.Law.Persistence
import EfficiencyLedger.Law.Lifecycle
import EfficiencyLedger.Law.Resubmission
import EfficiencyLedger.Law.OrderIndependence
import EfficiencyLedger.Law.Interleaving
import EfficiencyLedger.Law.WorkerFencing
import EfficiencyLedger.Law.ReplayEquiv
import EfficiencyLedger.Law.Authority
import EfficiencyLedger.Lib.Crc
import EfficiencyLedger.Proof.Checksum
import EfficiencyLedger.Law.Corruption
import EfficiencyLedger.Lib.Stream
import EfficiencyLedger.Model.Protocol
import EfficiencyLedger.Proof.Protocol
import EfficiencyLedger.Law.Framing
import EfficiencyLedger.Law.Delivery
import EfficiencyLedger.Law.Replacement
import EfficiencyLedger.Lib.Interrupt
import EfficiencyLedger.Model.Storage
import EfficiencyLedger.Law.Apportionment
import EfficiencyLedger.Law.Reconciliation
import EfficiencyLedger.Law.Overflow
import EfficiencyLedger.Lib.Mixing
import EfficiencyLedger.Law.Digest
import EfficiencyLedger.Law.Decoding
import EfficiencyLedger.Law.UsageAddition
import EfficiencyLedger.Law.Epochs
import EfficiencyLedger.Law.Residual
import EfficiencyLedger.Law.Disk
import EfficiencyLedger.Law.Network
import EfficiencyLedger.Law.Growth
import EfficiencyLedger.Law.Refusals
import EfficiencyLedger.Law.Reclassification
import EfficiencyLedger.Law.Workers
import EfficiencyLedger.Law.Journal
import EfficiencyLedger.Law.Refinement
import EfficiencyLedger.Law.Progress
import EfficiencyLedger.Law.Usage
import EfficiencyLedger.Law.Queries
import EfficiencyLedger.Law.Incarnations
import EfficiencyLedger.Law.Cli
