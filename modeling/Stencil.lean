import Stencil.Main
import Stencil.Proofs.Nesting
import Stencil.Proofs.Parsing.Steady
import Stencil.Proofs.Binding
import Stencil.Proofs.Parsing.Statements
import Stencil.Proofs.Fragment
import Stencil.Proofs.Islands
import Stencil.Proofs.ControlFlow
import Stencil.Proofs.Elements.Balance
import Stencil.Proofs.Parsing.Operands
import Stencil.Proofs.Elements.Documents
import Stencil.Proofs.Relocation
import Stencil.Proofs.BoundTokens
import Stencil.Proofs.Parsing.Printing
import Stencil.Proofs.Spelling
import Stencil.Proofs.Caching.Transparency
import Stencil.Proofs.Assignment.Slots
import Stencil.Proofs.Assignment.Accesses
import Stencil.Proofs.Assignment.Targets
import Stencil.Proofs.Resources
import Stencil.Proofs.Forms.Augmenting
import Stencil.Proofs.Stages.Artifacts
import Stencil.Proofs.Ending.Limits
import Stencil.Proofs.Caching.Keeping
import Stencil.Proofs.Caching.Sharing
import Stencil.Proofs.Assignment.Building
import Stencil.Proofs.Sequencing
import Stencil.Proofs.Guard
import Stencil.Proofs.Untouched
import Stencil.Proofs.Including
import Stencil.Proofs.Numbers.Words
import Stencil.Proofs.Assets.Sources
import Stencil.Proofs.Assignment.Compound
import Stencil.Proofs.Iteration
import Stencil.Proofs.Restoring
import Stencil.Proofs.Scanning.Alone
import Stencil.Proofs.Switches
import Stencil.Proofs.Quoting
import Stencil.Proofs.Comparison
import Stencil.Proofs.Assignment.Copying
import Stencil.Proofs.Emptiness
import Stencil.Proofs.Commented
import Stencil.Proofs.Assets.Collapsing
import Stencil.Proofs.Forms.Repeating
import Stencil.Proofs.Forms.Escaping
import Stencil.Proofs.Occurrences
import Stencil.Proofs.Elements.Shapes
import Stencil.Proofs.Pointing
import Stencil.Proofs.Scanning.Attributes
import Stencil.Proofs.Merging
