import RaftKV.Bytes
import RaftKV.Framing
import RaftKV.Resp
import RaftKV.RespGrammar
import RaftKV.RequestId
import RaftKV.CommandBuffer
import RaftKV.SessionQueue
import RaftKV.RaftCodec
import RaftKV.PeerManager
import RaftKV.PeerRegistry
import RaftKV.SerialApplyExecutor
import RaftKV.Wp
import RaftKV.Store
import RaftKV.StateMachine
import RaftKV.KvSnapshot
import RaftKV.SnapshotDecoder
import RaftKV.StoreFaults
import RaftKV.AbstractLog
import RaftKV.RaftLog
import RaftKV.LogRefinement
import RaftKV.Consensus.Protocol
import RaftKV.Consensus.Safety
import RaftKV.Cluster
import RaftKV.GhostWp
import RaftKV.Refinement.Runs
import RaftKV.Accounts
import RaftKV.Bookkeeping.Runs
import RaftKV.Guarantees.Safety
import RaftKV.Guarantees.Logs
import RaftKV.Guarantees.Reads
import RaftKV.Guarantees.Outcomes
import RaftKV.Guarantees.Applying
import RaftKV.Guarantees.Snapshots
import RaftKV.Wire
import RaftKV.ConflictSearch
import RaftKV.Server.Counters
import RaftKV.Server.Flushing
import RaftKV.Server.Namespaces
import RaftKV.Local.Commits
import RaftKV.Local.Promises
import RaftKV.Local.Retention
