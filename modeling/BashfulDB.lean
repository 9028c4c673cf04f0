import BashfulDB.Library.Steps
import BashfulDB.Clock.Hlc
import BashfulDB.Clock.WallClock
import BashfulDB.Clock.Restart
import BashfulDB.Clock.Exhaustion
import BashfulDB.Clock.VectorClock
import BashfulDB.Clock.Lattice
import BashfulDB.Cluster.Gossip
import BashfulDB.Cluster.Exchange
import BashfulDB.Cluster.Runs
import BashfulDB.Cluster.Merge
import BashfulDB.Cluster.Detection
import BashfulDB.Cluster.Owners
import BashfulDB.Data.Codec
import BashfulDB.Data.RoundTrip
import BashfulDB.Data.Canonical
import BashfulDB.Data.Machine
import BashfulDB.Library.Selection
import BashfulDB.Replication.Coordinator
import BashfulDB.Replication.History
import BashfulDB.Replication.Latest
import BashfulDB.Replication.Provenance
import BashfulDB.Replication.Alone
import BashfulDB.Replication.Acks
import BashfulDB.Replication.Repair
import BashfulDB.Replication.Idempotent
import BashfulDB.Replication.Retention
import BashfulDB.Storage.Engine
import BashfulDB.Storage.Contract
import BashfulDB.Storage.Prefixes
import BashfulDB.Auth.Users
import BashfulDB.Auth.Uniqueness
import BashfulDB.Ops.Restore
import BashfulDB.Ops.Cut
import BashfulDB.Ops.Checksum
import BashfulDB.Ops.Yielding
import BashfulDB.Protocol.Panic
import BashfulDB.Protocol.Server
import BashfulDB.Protocol.Injection
import BashfulDB.Schema.Faithful
import BashfulDB.Schema.References
import BashfulDB.Schema.Availability
import BashfulDB.Schema.Versions
import BashfulDB.Schema.Recovery
import BashfulDB.Schema.KeyOrder
import BashfulDB.Schema.Rows
import BashfulDB.Schema.Atomic
import BashfulDB.Schema.Quota
import BashfulDB.Api.ETag
import BashfulDB.Api.Isolation
import BashfulDB.Api.Echo
import BashfulDB.Api.Conditional
import BashfulDB.Api.Precondition
import BashfulDB.Data.Json
import BashfulDB.Api.Encodable
import BashfulDB.Auth.Tokens
import BashfulDB.Auth.Sessions
import BashfulDB.Api.Traversal
import BashfulDB.Api.Gate
import BashfulDB.Protocol.Accept
import BashfulDB.Cluster.Accrual
import BashfulDB.Cluster.Silence
import BashfulDB.Replication.AntiEntropy
