import FlatForth.Main
import FlatForth.Extension
import FlatForth.Queue
import FlatForth.Watching
import FlatForth.Proofs.Loops
import FlatForth.Proofs.Pairing
import FlatForth.Proofs.Frame
import FlatForth.Proofs.Scan
import FlatForth.Proofs.SelfContained
import FlatForth.Proofs.Tree
import FlatForth.Proofs.TreeMachine
import FlatForth.Proofs.Depth
import FlatForth.Proofs.TreeRun
import FlatForth.Proofs.Spelling
import FlatForth.Proofs.Folding
import FlatForth.Proofs.Caseless
import FlatForth.Proofs.Reading
import FlatForth.Proofs.Contract
import FlatForth.Proofs.Calls
import FlatForth.Proofs.WellFormed
import FlatForth.Proofs.ByItself
import FlatForth.Proofs.Undefining
import FlatForth.Proofs.Nesting
import FlatForth.Proofs.Legible
import FlatForth.Proofs.Decimal
import FlatForth.Proofs.Postfix
import FlatForth.Proofs.Vocabulary
import FlatForth.Proofs.Rereading
import FlatForth.Proofs.Inlining
import FlatForth.Proofs.PrintedStack
import FlatForth.Proofs.Unmentioned
import FlatForth.Proofs.Unrolling
import FlatForth.Proofs.Renaming
import FlatForth.Proofs.Equivariance
import FlatForth.Proofs.Verbosity
import FlatForth.Proofs.Asking
import FlatForth.Proofs.Wording
import FlatForth.Proofs.Conversation
import FlatForth.Proofs.Innermost
import FlatForth.Proofs.Reordering
import FlatForth.Proofs.Consumption
import FlatForth.Proofs.Operands
import FlatForth.Proofs.Refusal
import FlatForth.Proofs.Installing
import FlatForth.Proofs.Ranges
import FlatForth.Proofs.Numerals
import FlatForth.Proofs.Rescanning
import FlatForth.Proofs.Sharing
