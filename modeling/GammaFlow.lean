import GammaFlow.Lib.Quorum
import GammaFlow.Lib.OrderStatistic
import GammaFlow.Lib.Execution
import GammaFlow.Lib.Consensus.Commit
import GammaFlow.Storage.Record
import GammaFlow.Storage.Replay
import GammaFlow.Storage.Codec
import GammaFlow.Storage.WalFiles
import GammaFlow.Storage.TornWrite
import GammaFlow.Raft.Refinement
import GammaFlow.Raft.Safety
import GammaFlow.Raft.Writes
import GammaFlow.Raft.Recovery
import GammaFlow.Raft.Restart
import GammaFlow.Raft.EventLoop
import GammaFlow.Raft.Durability
import GammaFlow.Raft.Clients
import GammaFlow.Raft.Redirect
import GammaFlow.Storage.Directory
import GammaFlow.Storage.Corruption
import GammaFlow.Storage.FailedAppends
import GammaFlow.Raft.Senders
import GammaFlow.Raft.Lifetime
import GammaFlow.Raft.Rollback
import GammaFlow.Lib.Consensus.Loyalty
import GammaFlow.Raft.Replicas
import GammaFlow.Raft.CommitRule
import GammaFlow.Raft.Redelivery
import GammaFlow.Raft.Hints
import GammaFlow.Raft.Elections
import GammaFlow.Raft.Wire
import GammaFlow.Kv.Store
import GammaFlow.Kv.Server
import GammaFlow.Raft.FailedSubmit
import GammaFlow.Kv.Location
import GammaFlow.Storage.Rotation
import GammaFlow.Lib.ReplicatedMachine
import GammaFlow.Raft.History
import GammaFlow.Kv.History
import GammaFlow.Kv.Api
import GammaFlow.Raft.Provenance
import GammaFlow.Kv.Answers
import GammaFlow.Kv.Reads
import GammaFlow.Raft.Lockstep
import GammaFlow.Raft.Disk
import GammaFlow.Raft.Survival
import GammaFlow.Raft.Partition
import GammaFlow.Raft.Majorities
import GammaFlow.Raft.Availability
import GammaFlow.Raft.Asleep
import GammaFlow.Raft.Numbers
import GammaFlow.Transport.Connections
import GammaFlow.Startup.Flags
import GammaFlow.Startup.Deployment
