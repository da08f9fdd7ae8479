import PairedMarkov.Command.Desk
import PairedMarkov.Search.Journal
import PairedMarkov.Main
import PairedMarkov.Proofs.LinearProgram.Equivalence
import PairedMarkov.Proofs.Search.Completeness
import PairedMarkov.Proofs.Buckets.Caching
import PairedMarkov.Proofs.Buckets.Scores
import PairedMarkov.Proofs.Knapsack.Optimality
import PairedMarkov.Proofs.Search.Exactness
import PairedMarkov.Proofs.Search.Safety
import PairedMarkov.Proofs.Uai.Overload
import PairedMarkov.Proofs.Search.Retention
import PairedMarkov.Proofs.Search.Progress
import PairedMarkov.Proofs.Search.Moves
import PairedMarkov.Proofs.Graph.Traversal
import PairedMarkov.Proofs.Knapsack.Verdict
import PairedMarkov.Proofs.Decomposition.Greedy
import PairedMarkov.Proofs.Decomposition.Orders
import PairedMarkov.Proofs.Buckets.Partition
import PairedMarkov.Proofs.Uai.Prefix
import PairedMarkov.Proofs.Search.Frame
import PairedMarkov.Proofs.LinearProgram.Reading
import PairedMarkov.Proofs.Merging
import PairedMarkov.Proofs.Uai.Pairing
import PairedMarkov.Proofs.Quantiles
import PairedMarkov.Proofs.Sampling
