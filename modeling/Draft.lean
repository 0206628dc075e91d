import Draft.Foundation.Bytes
import Draft.Foundation.Addresses
import Draft.Foundation.Texts
import Draft.Foundation.EntryLogger
import Draft.Foundation.ConfigChain
import Draft.Foundation.ConsecutiveLog
import Draft.Foundation.EntryChain
import Draft.Foundation.FullLog
import Draft.Foundation.Replay
import Draft.Foundation.FileSystem
import Draft.Disk.Image
import Draft.Disk.LogFile
import Draft.Disk.Layout
import Draft.Disk.Storing
import Draft.Disk.Operations
import Draft.Disk.Reopening
import Draft.Disk.Growing
import Draft.Disk.Chain
import Draft.Disk.BasedLog
import Draft.Disk.Crash
import Draft.Disk.FailingCalls
import Draft.Kv.CommandParser
import Draft.Kv.CommandLanguage
import Draft.Kv.Storage
import Draft.Kv.Session
import Draft.Kv.Snapshot
import Draft.Consensus.Run
import Draft.Consensus.Atomic
import Draft.Consensus.Monitor
import Draft.Consensus.History
import Draft.Consensus.Majority
import Draft.Consensus.LogMatching
import Draft.Consensus.Protocol
import Draft.Consensus.Safety
import Draft.Consensus.Adoption
import Draft.Raft.Messages
import Draft.Raft.Transfer
import Draft.Raft.State
import Draft.Raft.Replication
import Draft.Raft.Elections
import Draft.Raft.Service
import Draft.Raft.ConfigEntries
import Draft.Raft.Administration
import Draft.Raft.Cluster
import Draft.Raft.ConfigRequests
import Draft.Raft.ApplyLoop
import Draft.Raft.ConcurrentQueue
import Draft.Raft.ApplyThread
import Draft.Raft.FailedRequests
import Draft.Raft.Turns
import Draft.Raft.Moves
import Draft.Raft.Steps
import Draft.Raft.Membership
import Draft.Raft.Voting
import Draft.Raft.ElectionSafety
import Draft.Raft.Speaking
import Draft.Raft.Merging
import Draft.Raft.CommitRule
import Draft.Raft.MajorityRule
import Draft.Raft.LogMatching
import Draft.Raft.Refinement
import Draft.Raft.Simulation
import Draft.Raft.StateMachineSafety
import Draft.Raft.MatchIndex
import Draft.Raft.Retention
import Draft.Raft.Permanence
import Draft.Raft.Upkeep
import Draft.Raft.CommittedWork
import Draft.Raft.Parcels
import Draft.Raft.Frames
import Draft.Raft.Progress
import Draft.Raft.Enrolled
import Draft.Raft.RunningConfig
import Draft.Raft.Serialising
import Draft.Raft.Merged
import Draft.Raft.VoteFile
import Draft.Raft.VoteCrash
import Draft.Raft.VoteTruth
import Draft.Raft.Creation
import Draft.Raft.Plans
import Draft.Raft.Reactions
import Draft.Raft.CatchingUp
import Draft.Raft.OwnEntries
import Draft.Raft.Completions
import Draft.Raft.Custody
import Draft.Raft.UnderWay
import Draft.Raft.PreVotes
import Draft.Raft.Marks
import Draft.Raft.Electable
import Draft.Raft.Reconfiguring
import Draft.Raft.Receiving
import Draft.Raft.Sending
import Draft.Raft.Delivering
import Draft.Raft.Exchange
import Draft.Raft.Retrying
import Draft.Raft.Pairs
import Draft.Raft.Repairing
import Draft.Raft.Converging
import Draft.Kv.Server
import Draft.Kv.Durability
import Draft.Kv.Cluster
import Draft.Kv.Acknowledging
import Draft.Kv.OneHistory
import Draft.Kv.Shipping
import Draft.Raft.Restarting
import Draft.Raft.Surviving
