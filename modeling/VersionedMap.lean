import VersionedMap.Bucket.Lemmas
import VersionedMap.Bucket.Session
import VersionedMap.Pool.Session
import VersionedMap.Proofs.Aftermath
import VersionedMap.Proofs.Ahead
import VersionedMap.Proofs.Clears
import VersionedMap.Proofs.Clients
import VersionedMap.Proofs.Collisions
import VersionedMap.Proofs.Deadlock
import VersionedMap.Proofs.Disjoint
import VersionedMap.Proofs.Identifiers
import VersionedMap.Proofs.Lifetimes
import VersionedMap.Proofs.Overrun
import VersionedMap.Proofs.PendingMarks
import VersionedMap.Proofs.Representation
import VersionedMap.Proofs.ScanOrder
import VersionedMap.Proofs.Scans
import VersionedMap.Proofs.Snapshots
import VersionedMap.Proofs.Splitting
import VersionedMap.Proofs.Traces
import VersionedMap.Script.Run
import VersionedMap.Script.Setup
import VersionedMap.Table.Session
import VersionedMap.Version.Session
