import LetLang.Collection
import LetLang.Comparison
import LetLang.Token.Label
import LetLang.Workspace.Command
import LetLang.Proofs.Layout
import LetLang.Proofs.Stream
import LetLang.Proofs.Spacing
import LetLang.Proofs.Lossless
import LetLang.Proofs.Production
import LetLang.Proofs.Run
import LetLang.Proofs.Accounting
import LetLang.Proofs.Grammar
import LetLang.Proofs.Locality
import LetLang.Proofs.Place
import LetLang.Proofs.Transcript
import LetLang.Proofs.Extension
import LetLang.Proofs.Composition
import LetLang.Proofs.Recovery
import LetLang.Proofs.Order
import LetLang.Proofs.Limit
import LetLang.Proofs.Likeness
import LetLang.Proofs.Printing
import LetLang.Proofs.Boundary
import LetLang.Proofs.Naming
import LetLang.Proofs.Pulling
import LetLang.Proofs.Refusal
import LetLang.Proofs.Sharing
import LetLang.Proofs.Expectation
import LetLang.Proofs.LeastIndex
import LetLang.Proofs.Logging
import LetLang.Proofs.Recording
import LetLang.Proofs.Walk
import LetLang.Proofs.Excerpt
import LetLang.Proofs.Readback
import LetLang.Proofs.Wraparound
import LetLang.Proofs.Precedence
import LetLang.Proofs.Block
import LetLang.Proofs.Rendering
