import BranchBound.Scalar.Binary64
import BranchBound.Search.Serial
import BranchBound.Settings.Text
import BranchBound.Team.Schedule
import BranchBound.Team.Wire
import BranchBound.Proofs.Box.Points
import BranchBound.Proofs.Brancher.Branching
import BranchBound.Proofs.Brancher.Children
import BranchBound.Proofs.Frontier.Collection
import BranchBound.Proofs.Search.Failing
import BranchBound.Proofs.Search.StrongBranching
import BranchBound.Proofs.Team.Cutoffs
import BranchBound.Proofs.Team.Draining
import BranchBound.Proofs.Team.HandOut
import BranchBound.Proofs.Team.SoloRuns
import BranchBound.Proofs.Search.Exhaustion
import BranchBound.Proofs.Scalar.Binary64Laws
import BranchBound.Proofs.Box.Halving
import BranchBound.Proofs.Brancher.Choosing
import BranchBound.Proofs.Brancher.Kinship
import BranchBound.Proofs.Brancher.Offspring
import BranchBound.Proofs.Node.Barren
import BranchBound.Proofs.Node.Dominating
import BranchBound.Proofs.Search.Budgets
import BranchBound.Proofs.Search.Deepening
import BranchBound.Proofs.Search.Depths
import BranchBound.Proofs.Search.Starving
import BranchBound.Proofs.Search.Retaining
import BranchBound.Proofs.Search.Verdicts
import BranchBound.Proofs.Search.Climbing
import BranchBound.Proofs.Search.Commuting
import BranchBound.Proofs.Node.Noting
import BranchBound.Proofs.Search.Converging
import BranchBound.Proofs.Search.Salvaging
import BranchBound.Proofs.Search.Ceiling
import BranchBound.Proofs.Search.Targets
import BranchBound.Proofs.Team.Outstanding
import BranchBound.Proofs.Team.Serving
import BranchBound.Proofs.Team.Targets
import BranchBound.Proofs.Team.Finishing
import BranchBound.Proofs.Team.Messages
import BranchBound.Proofs.Settings.Members
import BranchBound.Proofs.Settings.RoundTrip
import BranchBound.Proofs.Box.Finite
import BranchBound.Proofs.Node.Conforming
import BranchBound.Proofs.Brancher.Dividing
import BranchBound.Proofs.Brancher.Chronicle
import BranchBound.Proofs.Brancher.Pedigree
import BranchBound.Proofs.Brancher.Averages
import BranchBound.Proofs.Brancher.Means
import BranchBound.Proofs.Frontier.Examining
import BranchBound.Proofs.Search.Descending
import BranchBound.Proofs.Brancher.Selecting
import BranchBound.Proofs.Brancher.Comparing
import BranchBound.Proofs.Brancher.Refusing
import BranchBound.Proofs.Search.Refusing
import BranchBound.Proofs.Scalar.Reversal
import BranchBound.Proofs.Search.Queuing
import BranchBound.Proofs.Team.Ancestry
import BranchBound.Proofs.Search.Fixing
import BranchBound.Proofs.Box.Admission
import BranchBound.Proofs.Frontier.Slots
