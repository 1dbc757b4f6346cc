import MyK8s.Lib.Ledger
import MyK8s.Lib.LedgerSteps
import MyK8s.Raft.Log
import MyK8s.Raft.Core
import MyK8s.Raft.Storage
import MyK8s.Raft.Steps
import MyK8s.Raft.Node
import MyK8s.Raft.Durability
import MyK8s.Raft.Cluster
import MyK8s.Raft.Refinement
import MyK8s.Raft.Simulation
import MyK8s.Raft.Invariant
import MyK8s.Raft.Leaders
import MyK8s.Raft.Safety
import MyK8s.Raft.Bookkeeping
import MyK8s.Lib.Runs
import MyK8s.Raft.Shell
import MyK8s.ApiServer.RaftGlue
import MyK8s.Lib.Replay
import MyK8s.Lib.Serde
import MyK8s.Resource.Kinds
import MyK8s.ApiServer.Storage
import MyK8s.ApiServer.Applier
import MyK8s.ApiServer.Restart
import MyK8s.Resource.RoundTrip
import MyK8s.ApiServer.Stores
import MyK8s.ApiServer.Revisions
import MyK8s.ApiServer.Faults
import MyK8s.ApiServer.Streams
import MyK8s.ApiServer.Emission
import MyK8s.ApiServer.Submit
import MyK8s.Lib.Process
import MyK8s.ApiServer.Clients
import MyK8s.ApiServer.Assignments
import MyK8s.ApiServer.Allocation
import MyK8s.ApiServer.Outcomes
import MyK8s.Controller.WorkQueue
import MyK8s.Lib.Chains
import MyK8s.KubeProxy.Plan
import MyK8s.KubeProxy.Balance
import MyK8s.KubeProxy.Sync
import MyK8s.ApiServer.Paths
import MyK8s.ApiServer.Skipped
import MyK8s.Kubelet.Loop
import MyK8s.Lib.Leases
import MyK8s.Lib.Text
import MyK8s.Lib.Fallible
import MyK8s.Kubelet.Ipam
import MyK8s.Kubelet.Sandbox
import MyK8s.Kubelet.Reconciler
import MyK8s.Kubelet.Startup
import MyK8s.Kubelet.Addresses
import MyK8s.Kubelet.Reserve
import MyK8s.Kubelet.Steady
import MyK8s.Kubelet.Contract
import MyK8s.Kubelet.Recovery
import MyK8s.Kubelet.Traced
import MyK8s.Kubelet.Generations
import MyK8s.Raft.Delivery
import MyK8s.Raft.Repair
import MyK8s.Raft.Rearm
import MyK8s.ApiServer.Alone
import MyK8s.ApiServer.Exhaustion
import MyK8s.ApiServer.Lifecycle
import MyK8s.ApiServer.Listing
import MyK8s.Controller.Endpoints
import MyK8s.Controller.ReplicaSets
import MyK8s.Controller.Adoption
import MyK8s.Controller.Converge
import MyK8s.Kubelet.Rollback
import MyK8s.ApiServer.Wire
import MyK8s.Controller.WakeUps
import MyK8s.Kubelet.Pool
import MyK8s.ApiServer.Placement
import MyK8s.ApiServer.Versions
import MyK8s.Controller.Canonical
import MyK8s.Kubelet.Backoff
import MyK8s.Kubelet.Ids
import MyK8s.Kubelet.Push
import MyK8s.Raft.Tree
import MyK8s.ApiServer.Among
import MyK8s.ApiServer.Replicated
import MyK8s.Controller.EndpointsManager
import MyK8s.Controller.Retries
import MyK8s.Controller.SchedulerManager
import MyK8s.Kubelet.Strays
import MyK8s.Raft.Proposals
import MyK8s.KubeProxy.Entry
import MyK8s.Raft.Progress
import MyK8s.Controller.ReplicaSetManager
import MyK8s.ApiServer.Availability
import MyK8s.Kubelet.Healing
