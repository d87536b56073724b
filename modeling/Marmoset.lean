import Marmoset.Main
import Marmoset.Proofs.Absorption
import Marmoset.Proofs.Accepted
import Marmoset.Proofs.Activation
import Marmoset.Proofs.Arithmetic
import Marmoset.Proofs.Chunk
import Marmoset.Proofs.Contract
import Marmoset.Proofs.Data
import Marmoset.Proofs.Derivable
import Marmoset.Proofs.Footprint
import Marmoset.Proofs.Grammar
import Marmoset.Proofs.LineByLine
import Marmoset.Proofs.Lines
import Marmoset.Proofs.OneError
import Marmoset.Proofs.Relocation.Machine
import Marmoset.Proofs.Relocation.Program
import Marmoset.Proofs.Scoping
import Marmoset.Proofs.Concatenation
import Marmoset.Proofs.Spelling
import Marmoset.Proofs.Tiling
import Marmoset.Proofs.Separated
import Marmoset.Proofs.Layout
import Marmoset.Proofs.Canonical
import Marmoset.Proofs.Policy
import Marmoset.Proofs.Standing
import Marmoset.Proofs.CallStack
import Marmoset.Proofs.CallSite
import Marmoset.Proofs.Operands
import Marmoset.Proofs.Hashes
import Marmoset.Proofs.Lookup
import Marmoset.Proofs.Rules
import Marmoset.Proofs.Folding
import Marmoset.Proofs.MapReduce.Reading
import Marmoset.Proofs.Congruence
import Marmoset.Proofs.Limit.Machine
import Marmoset.Proofs.Limit.Program
import Marmoset.Proofs.Transaction
import Marmoset.Proofs.Parameters
import Marmoset.Proofs.Checks.Scan
import Marmoset.Proofs.Checks.Parser
import Marmoset.Proofs.Checks.Source
import Marmoset.Proofs.Lookahead
import Marmoset.Proofs.Recovery
import Marmoset.Proofs.Nodes
import Marmoset.Proofs.Completion
import Marmoset.Proofs.Guided
import Marmoset.Proofs.FirstError
import Marmoset.Proofs.MapReduce.Running
import Marmoset.Proofs.Resilience
import Marmoset.Proofs.Literals
