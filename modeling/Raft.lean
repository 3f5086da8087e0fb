import Raft.Apply.Applier
import Raft.Apply.Machine
import Raft.Apply.Sessions
import Raft.Apply.Waiters
import Raft.Client.Backoff
import Raft.Client.Error
import Raft.Client.Gateway
import Raft.Codec.Digits
import Raft.Codec.Error
import Raft.Codec.Form
import Raft.Codec.Utf8
import Raft.Codec.Values
import Raft.Codec.Wire
import Raft.Data.Basic
import Raft.Data.Layer
import Raft.Data.Values
import Raft.Election
import Raft.Entry
import Raft.Error
import Raft.HardStateStore
import Raft.Log.Basic
import Raft.Log.Key
import Raft.Log.Keyed
import Raft.Log.Store
import Raft.Log.Tree
import Raft.Membership
import Raft.Message
import Raft.Metrics
import Raft.Node.Basic
import Raft.Node.Candidate
import Raft.Node.Event
import Raft.Node.Follower
import Raft.Node.Inspect
import Raft.Node.Leader
import Raft.Node.Loop
import Raft.Proofs.Action
import Raft.Proofs.Apply.Applier
import Raft.Proofs.Apply.Effective
import Raft.Proofs.Apply.Registrations
import Raft.Proofs.Apply.Registry
import Raft.Proofs.Apply.Remembered
import Raft.Proofs.Apply.Replay
import Raft.Proofs.Apply.Restart
import Raft.Proofs.Apply.Rounds
import Raft.Proofs.Apply.Sessions
import Raft.Proofs.Apply.Steady
import Raft.Proofs.Apply.Waiters
import Raft.Proofs.Apply.Window
import Raft.Proofs.CatchUp
import Raft.Proofs.Client.Attempts
import Raft.Proofs.Client.Backoff
import Raft.Proofs.Client.Bench
import Raft.Proofs.Client.Requests
import Raft.Proofs.Codec.Digits
import Raft.Proofs.Codec.Utf8
import Raft.Proofs.Codec.Values
import Raft.Proofs.Codec.Wire
import Raft.Proofs.Handover.Acts
import Raft.Proofs.Handover.Basic
import Raft.Proofs.Handover.Complete
import Raft.Proofs.Handover.Leader
import Raft.Proofs.Handover.Loop
import Raft.Proofs.Log.Append
import Raft.Proofs.Log.Hints
import Raft.Proofs.Log.Key
import Raft.Proofs.Log.Lawful
import Raft.Proofs.Log.Majority
import Raft.Proofs.Log.Matching
import Raft.Proofs.Log.Merge
import Raft.Proofs.Log.Mirror
import Raft.Proofs.Log.Position
import Raft.Proofs.Log.Probes
import Raft.Proofs.Log.Refinement
import Raft.Proofs.Log.Search
import Raft.Proofs.Log.Sorted
import Raft.Proofs.Log.Stored
import Raft.Proofs.Log.Tree
import Raft.Proofs.Lookup
import Raft.Proofs.Network.Answers
import Raft.Proofs.Network.Basic
import Raft.Proofs.Network.Clients
import Raft.Proofs.Network.Exchange
import Raft.Proofs.Network.Indexes
import Raft.Proofs.Network.Matched
import Raft.Proofs.Network.Moves
import Raft.Proofs.Network.Past
import Raft.Proofs.Network.Progress
import Raft.Proofs.Network.Runs
import Raft.Proofs.Network.Safety
import Raft.Proofs.Network.Servers
import Raft.Proofs.Network.Sorted
import Raft.Proofs.Network.Sound
import Raft.Proofs.Network.Status
import Raft.Proofs.Network.Tally
import Raft.Proofs.Network.Turns
import Raft.Proofs.Node.Candidate
import Raft.Proofs.Node.Committed
import Raft.Proofs.Node.Follower
import Raft.Proofs.Node.Leader
import Raft.Proofs.Node.LogFaults
import Raft.Proofs.Node.Loop
import Raft.Proofs.Node.Outline
import Raft.Proofs.Node.PeerMap
import Raft.Proofs.Node.Runs
import Raft.Proofs.Probing
import Raft.Proofs.Profile.Basic
import Raft.Proofs.Profile.Leader
import Raft.Proofs.Profile.Loop
import Raft.Proofs.Profile.Roles
import Raft.Proofs.Profile.Terms
import Raft.Proofs.Profile.Transfers
import Raft.Proofs.Protocol.Basic
import Raft.Proofs.Protocol.Completeness
import Raft.Proofs.Protocol.Growth
import Raft.Proofs.Protocol.Safety
import Raft.Proofs.Protocol.Sound
import Raft.Proofs.Protocol.Steps
import Raft.Proofs.Quorum
import Raft.Proofs.Replication
import Raft.Proofs.Settings
import Raft.Proofs.Solo.Ballots
import Raft.Proofs.Solo.Basic
import Raft.Proofs.Solo.Committed
import Raft.Proofs.Solo.Leadership
import Raft.Proofs.Solo.Reign
import Raft.Proofs.Solo.Tenures
import Raft.Proofs.Solo.Terms
import Raft.Proofs.Solo.Transfers
import Raft.Proofs.Solo.Turns
import Raft.Proofs.Solo.Votes
import Raft.Proofs.Solo.Waiting
import Raft.Proofs.Solo.WriteAhead
import Raft.Proofs.Sums
import Raft.Proofs.Tenure.Basic
import Raft.Proofs.Tenure.Books
import Raft.Proofs.Tenure.Credits
import Raft.Proofs.Tenure.Leader
import Raft.Proofs.Tenure.Loop
import Raft.Proofs.Tenure.Roles
import Raft.Proofs.Tenure.Servers
import Raft.Proofs.Tenure.Waiting
import Raft.Proofs.WriteAhead.Basic
import Raft.Proofs.WriteAhead.Roles
import Raft.Random
import Raft.Replication
import Raft.Role
import Raft.Script.Cluster
import Raft.Script.Errors
import Raft.Script.Fields
import Raft.Script.Testbed
import Raft.Script.Values
import Raft.Server
import Raft.Settings.Basic
import Raft.Settings.Inspect
import Raft.Settings.Load
import Raft.Settings.Read
import Raft.Settings.Tree
import Raft.Settings.Validate
import Raft.Sim.ApplyBench
import Raft.Sim.Callers
import Raft.Sim.Cluster.Basic
import Raft.Sim.Cluster.Clients
import Raft.Sim.Cluster.Inspect
import Raft.Sim.Cluster.Run
import Raft.Sim.GatewayBench
import Raft.Sim.Testbed.Basic
import Raft.Sim.Testbed.Clock
import Raft.Sim.Testbed.Delivery
import Raft.Sim.Testbed.View
import Raft.Text.Decimal
import Raft.Text.Duration
import Raft.Text.Inspect
import Raft.Timer
import Raft.Toml.Document
import Raft.Toml.Parser
import Raft.Toml.Scalar
import Raft.Toml.Table
import Raft.Word
