import Stylesheet.Compiler
import Stylesheet.Node.Build
import Stylesheet.Proofs.Discipline
import Stylesheet.Proofs.Faults
import Stylesheet.Proofs.Value
import Stylesheet.Proofs.Walk
import Stylesheet.Proofs.Stack
import Stylesheet.Proofs.Conditional
import Stylesheet.Proofs.Flattening
import Stylesheet.Proofs.Precedence
import Stylesheet.Proofs.Reduction
import Stylesheet.Proofs.Substitution
import Stylesheet.Proofs.Outcome
import Stylesheet.Proofs.Alphabet
import Stylesheet.Proofs.Position
import Stylesheet.Proofs.Sheet
import Stylesheet.Proofs.Composition
import Stylesheet.Proofs.Lines
import Stylesheet.Proofs.Binding
import Stylesheet.Proofs.Captured
import Stylesheet.Proofs.Layout
import Stylesheet.Proofs.Containment
import Stylesheet.Proofs.Inclusion
import Stylesheet.Proofs.Simultaneous
import Stylesheet.Proofs.Origin
import Stylesheet.Proofs.Reach
import Stylesheet.Proofs.Nesting
import Stylesheet.Proofs.Blocks
import Stylesheet.Proofs.Template
import Stylesheet.Proofs.Copies
import Stylesheet.Proofs.Unrolling
import Stylesheet.Proofs.LoopOrder
import Stylesheet.Proofs.Wording
import Stylesheet.Proofs.Steady
import Stylesheet.Proofs.Frame
import Stylesheet.Proofs.Simulation
import Stylesheet.Proofs.Agreement
import Stylesheet.Proofs.Location
import Stylesheet.Proofs.Omission
import Stylesheet.Proofs.Slots
import Stylesheet.Proofs.Marks
import Stylesheet.Proofs.Exchange
import Stylesheet.Proofs.Limit
import Stylesheet.Proofs.Rounds
import Stylesheet.Proofs.Kinds
import Stylesheet.Proofs.Interleaving
import Stylesheet.Proofs.Spelling
import Stylesheet.Proofs.Snapshot
import Stylesheet.Proofs.Stencil
import Stylesheet.Proofs.Placing
import Stylesheet.Proofs.Patterns
import Stylesheet.Proofs.Recognition
import Stylesheet.Proofs.Inference
import Stylesheet.Proofs.Rounding
import Stylesheet.Proofs.Decimals
import Stylesheet.Proofs.Grouping
import Stylesheet.Proofs.Threshold
import Stylesheet.Proofs.Arity
import Stylesheet.Proofs.History
import Stylesheet.Proofs.Gradient
import Stylesheet.Proofs.Following
import Stylesheet.Proofs.Waiting
import Stylesheet.Proofs.Tokens
import Stylesheet.Proofs.Backing
import Stylesheet.Proofs.Chronicle
import Stylesheet.Proofs.Weaving
import Stylesheet.Proofs.References
