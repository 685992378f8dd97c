import Lookahead.Requested
import Lookahead.Proofs.Depth
import Lookahead.Proofs.Grouping
import Lookahead.Proofs.Pruning
import Lookahead.Proofs.Matching
import Lookahead.Proofs.Precedence
import Lookahead.Proofs.LiteralPatterns
import Lookahead.Proofs.Covering
import Lookahead.Proofs.RepeatedNodes
import Lookahead.Proofs.Expansion
import Lookahead.Proofs.Erasure
import Lookahead.Proofs.Hiding
import Lookahead.Proofs.Absorption
import Lookahead.Proofs.Joining
import Lookahead.Proofs.Reordering
import Lookahead.Proofs.Nesting
import Lookahead.Proofs.Visiting
import Lookahead.Proofs.LevelOrder
import Lookahead.Proofs.Decoding
import Lookahead.Proofs.Restricting
import Lookahead.Proofs.Variables
import Lookahead.Proofs.Sameness
import Lookahead.Proofs.OptionForms
import Lookahead.Proofs.Refusals
import Lookahead.Proofs.Growth
import Lookahead.Proofs.Descent
import Lookahead.Proofs.Filling
import Lookahead.Proofs.Rounding
