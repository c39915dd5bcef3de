import StakeConsensus.Arithmetic.Checked
import StakeConsensus.Bench.Basic
import StakeConsensus.Block.Basic
import StakeConsensus.Block.Header
import StakeConsensus.Block.Receipt
import StakeConsensus.Block.Transaction
import StakeConsensus.Bytes.Encoding
import StakeConsensus.Bytes.Fixed
import StakeConsensus.Bytes.LittleEndian
import StakeConsensus.Chain.Basic
import StakeConsensus.Chain.State
import StakeConsensus.Clock
import StakeConsensus.Collaborator
import StakeConsensus.Command.Execution
import StakeConsensus.Command.Help
import StakeConsensus.Command.LocalNetwork
import StakeConsensus.Command.Options
import StakeConsensus.Command.Parser
import StakeConsensus.Crypto.Blake3
import StakeConsensus.Crypto.Ed25519
import StakeConsensus.Crypto.Key
import StakeConsensus.Crypto.Sha512
import StakeConsensus.Decimal.Shortest
import StakeConsensus.Devnet
import StakeConsensus.Fetch
import StakeConsensus.Json.Basic
import StakeConsensus.Json.Parser
import StakeConsensus.Json.Printer
import StakeConsensus.Json.Reader
import StakeConsensus.Main
import StakeConsensus.Manager
import StakeConsensus.Merkle
import StakeConsensus.Message
import StakeConsensus.Metrics.Basic
import StakeConsensus.Metrics.Page
import StakeConsensus.Network
import StakeConsensus.Node
import StakeConsensus.OrderedMap
import StakeConsensus.Proposal.Basic
import StakeConsensus.Proposal.Cache
import StakeConsensus.Quorum
import StakeConsensus.Reexecution
import StakeConsensus.Report.Basic
import StakeConsensus.Report.Bench
import StakeConsensus.Report.Block
import StakeConsensus.Report.Command
import StakeConsensus.Report.Devnet
import StakeConsensus.Report.Key
import StakeConsensus.Report.Message
import StakeConsensus.Report.Proposal
import StakeConsensus.Report.Settings
import StakeConsensus.Report.Verdict
import StakeConsensus.Resend
import StakeConsensus.Role
import StakeConsensus.Schedule.Basic
import StakeConsensus.Schedule.Rotation
import StakeConsensus.Schedule.Service
import StakeConsensus.Schedule.Timing
import StakeConsensus.Settings.Logging
import StakeConsensus.Settings.Node
import StakeConsensus.Settings.Node.Toml
import StakeConsensus.Settings.Verifier
import StakeConsensus.Settings.Verifier.Json
import StakeConsensus.Station
import StakeConsensus.Text.Hex
import StakeConsensus.Text.Quote
import StakeConsensus.Text.Unprintable
import StakeConsensus.Toml.Lexical
import StakeConsensus.Toml.Parser
import StakeConsensus.Toml.Table
import StakeConsensus.TransactionPool
import StakeConsensus.Turn
import StakeConsensus.Verdict
import StakeConsensus.Verification.Basic
import StakeConsensus.Verification.Step
import StakeConsensus.Verifier
import StakeConsensus.Vote.Ledger
import StakeConsensus.Vote.Parked
import StakeConsensus.Proofs.Quorum
import StakeConsensus.Proofs.Verification.Move
import StakeConsensus.Proofs.Verification.Chain
import StakeConsensus.Proofs.Verification.Run
import StakeConsensus.Proofs.Verification.Coherence
import StakeConsensus.Proofs.Verification.Finality
import StakeConsensus.Proofs.Verification.Ledger
import StakeConsensus.Proofs.Verification.Accountability
import StakeConsensus.Proofs.Verification.Fence
import StakeConsensus.Proofs.Verification.Interleaving
import StakeConsensus.Proofs.Verification.Provenance
import StakeConsensus.Proofs.Verification.Warrant
import StakeConsensus.Proofs.Verification.Ballot
import StakeConsensus.Proofs.Verification.Endorsement
import StakeConsensus.Proofs.Verification.Rest
import StakeConsensus.Proofs.Station
import StakeConsensus.Proofs.Parked
import StakeConsensus.Proofs.Verification.Counting
import StakeConsensus.Proofs.Verification.Canvass
import StakeConsensus.Proofs.Verification.Arrival
import StakeConsensus.Proofs.Agreement.Council
import StakeConsensus.Proofs.Reexecution
import StakeConsensus.Proofs.Schedule
import StakeConsensus.Proofs.Agreement.Leadership
import StakeConsensus.Proofs.Agreement.Turnwise
import StakeConsensus.Proofs.Agreement.Course
import StakeConsensus.Proofs.Agreement.Fork
import StakeConsensus.Proofs.Encoding
import StakeConsensus.Proofs.Replica
import StakeConsensus.Proofs.Window
import StakeConsensus.Proofs.Pool
import StakeConsensus.Proofs.Proposing
import StakeConsensus.Proofs.Faithful
import StakeConsensus.Proofs.Committing
import StakeConsensus.Proofs.Merkle
import StakeConsensus.Proofs.Chain.Lineage
import StakeConsensus.Proofs.Chain.Pinning
import StakeConsensus.Proofs.Chain.Race
import StakeConsensus.Proofs.Chain.Conservation
import StakeConsensus.Proofs.Schedule.Independence
import StakeConsensus.Proofs.Schedule.Succession
import StakeConsensus.Proofs.Schedule.Pace
import StakeConsensus.Proofs.Ticking
import StakeConsensus.Proofs.Roll
import StakeConsensus.Proofs.Verification.Recovery
import StakeConsensus.Proofs.Verification.Admission
import StakeConsensus.Proofs.Verification.Forgery
import StakeConsensus.Proofs.Manager.Product
import StakeConsensus.Proofs.Sending
import StakeConsensus.Proofs.Schedule.Operation
import StakeConsensus.Proofs.Schedule.Clock
import StakeConsensus.Proofs.Schedule.Failure
import StakeConsensus.Proofs.Schedule.Fairness
import StakeConsensus.Proofs.Schedule.Lookup
import StakeConsensus.Proofs.Schedule.Progress
import StakeConsensus.Proofs.Schedule.Leftover
import StakeConsensus.Proofs.Schedule.Restart
import StakeConsensus.Proofs.Participation
import StakeConsensus.Proofs.Reaction
import StakeConsensus.Proofs.Announcing
import StakeConsensus.Proofs.Quorum.Threshold
import StakeConsensus.Proofs.Verification.Broadcast
import StakeConsensus.Proofs.BucketQueue
import StakeConsensus.Proofs.Reexecution.Mismatch
import StakeConsensus.Proofs.Cache
import StakeConsensus.Proofs.Resending
import StakeConsensus.Proofs.Fetching
import StakeConsensus.Proofs.Merkle.Commitment
import StakeConsensus.Proofs.Encoding.Exact
import StakeConsensus.Proofs.Network.Delivery
import StakeConsensus.Proofs.Selection
import StakeConsensus.Proofs.Turnout
import StakeConsensus.Proofs.Hexadecimal
import StakeConsensus.Proofs.Bloom
import StakeConsensus.Proofs.Schedule.Begins
