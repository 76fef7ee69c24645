import DcopSearch.Config.Options
import DcopSearch.Decimal.Shortest
import DcopSearch.Network.Pool
import DcopSearch.Proofs.Bandit.Converged
import DcopSearch.Proofs.Bandit.Counted
import DcopSearch.Proofs.Bandit.Draws
import DcopSearch.Proofs.Bandit.Fair
import DcopSearch.Proofs.Bandit.Learned
import DcopSearch.Proofs.Bandit.Picks
import DcopSearch.Proofs.Bandit.Radius
import DcopSearch.Proofs.Bandit.Rounds
import DcopSearch.Proofs.Bandit.Statistics
import DcopSearch.Proofs.Bandit.Steady
import DcopSearch.Proofs.Bandit.Values
import DcopSearch.Proofs.Constraint.Edited
import DcopSearch.Proofs.Constraint.JointValues
import DcopSearch.Proofs.Constraint.Tabulated
import DcopSearch.Proofs.Constraint.WellFormed
import DcopSearch.Proofs.Cost.Exact
import DcopSearch.Proofs.Cost.Ordered
import DcopSearch.Proofs.Cost.Preferred
import DcopSearch.Proofs.Network.Agents
import DcopSearch.Proofs.Network.Agreement
import DcopSearch.Proofs.Network.Called
import DcopSearch.Proofs.Network.Commuting
import DcopSearch.Proofs.Network.Completion
import DcopSearch.Proofs.Network.Confluence
import DcopSearch.Proofs.Network.Delivery
import DcopSearch.Proofs.Network.Handling
import DcopSearch.Proofs.Network.Normalized
import DcopSearch.Proofs.Network.Normalizers
import DcopSearch.Proofs.Network.Optimal
import DcopSearch.Proofs.Network.Outcome
import DcopSearch.Proofs.Network.Precision
import DcopSearch.Proofs.Network.Reachable
import DcopSearch.Proofs.Network.Reckoned
import DcopSearch.Proofs.Network.Refutations
import DcopSearch.Proofs.Network.Reported
import DcopSearch.Proofs.Network.Reports
import DcopSearch.Proofs.Network.Safety
import DcopSearch.Proofs.Network.Shows
import DcopSearch.Proofs.Network.Sized
import DcopSearch.Proofs.Normalization.Exact
import DcopSearch.Proofs.Normalization.Extents
import DcopSearch.Proofs.Normalization.Owned
import DcopSearch.Proofs.Normalization.Range
import DcopSearch.Proofs.Normalization.Rising
import DcopSearch.Proofs.Normalization.Settled
import DcopSearch.Proofs.Normalization.Shape
import DcopSearch.Proofs.Normalization.Undercut
import DcopSearch.Proofs.Protocol.Account
import DcopSearch.Proofs.Protocol.Attuned
import DcopSearch.Proofs.Protocol.Bounded
import DcopSearch.Proofs.Protocol.Component
import DcopSearch.Proofs.Protocol.Divisor
import DcopSearch.Proofs.Protocol.Exchange
import DcopSearch.Proofs.Protocol.Flight
import DcopSearch.Proofs.Protocol.Gathered
import DcopSearch.Proofs.Protocol.Gathering
import DcopSearch.Proofs.Protocol.Height
import DcopSearch.Proofs.Protocol.Held
import DcopSearch.Proofs.Protocol.Honest
import DcopSearch.Proofs.Protocol.Invariant
import DcopSearch.Proofs.Protocol.Learned
import DcopSearch.Proofs.Protocol.Optimal
import DcopSearch.Proofs.Protocol.Preserved
import DcopSearch.Proofs.Protocol.Progress
import DcopSearch.Proofs.Protocol.Refuted
import DcopSearch.Proofs.Protocol.Scaled
import DcopSearch.Proofs.Protocol.Subtree
import DcopSearch.Proofs.Protocol.Tally
import DcopSearch.Proofs.Protocol.Totals
import DcopSearch.Proofs.Protocol.World
import DcopSearch.Proofs.Random.Reversible
import DcopSearch.Proofs.Run.Backends
import DcopSearch.Proofs.Run.Counted
import DcopSearch.Proofs.Run.Course
import DcopSearch.Proofs.Run.Cut
import DcopSearch.Proofs.Run.Journal
import DcopSearch.Proofs.Run.Ordered
import DcopSearch.Proofs.Run.Simulated
import DcopSearch.Proofs.Run.Solved
import DcopSearch.Proofs.Sampling.Acts
import DcopSearch.Proofs.Sampling.Arrivals
import DcopSearch.Proofs.Sampling.Calls
import DcopSearch.Proofs.Sampling.Coherent
import DcopSearch.Proofs.Sampling.Context
import DcopSearch.Proofs.Sampling.Filed
import DcopSearch.Proofs.Sampling.Forward
import DcopSearch.Proofs.Sampling.Grounds
import DcopSearch.Proofs.Sampling.Learned
import DcopSearch.Proofs.Sampling.Tallied
import DcopSearch.Proofs.Sampling.Working
import DcopSearch.Proofs.Tree.Component
import DcopSearch.Proofs.Tree.DepthFirst
import DcopSearch.Proofs.Tree.Descend
import DcopSearch.Proofs.Tree.Enforced
import DcopSearch.Proofs.Tree.Linked
import DcopSearch.Proofs.Tree.Listing
import DcopSearch.Proofs.Tree.Neighbours
import DcopSearch.Proofs.Tree.Recorded
import DcopSearch.Proofs.Tree.Search
import DcopSearch.Proofs.Tree.Spanning
import DcopSearch.Random.ChaCha
import DcopSearch.Run.Solution
