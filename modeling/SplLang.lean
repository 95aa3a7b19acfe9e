import SplLang.Syntax.Numbering
import SplLang.Compilation
import SplLang.Report.Frames
import SplLang.Report.Scopes
import SplLang.Proofs.Consistency
import SplLang.Proofs.Linkable
import SplLang.Proofs.Blocks
import SplLang.Proofs.Subscripts
import SplLang.Proofs.Preservation
import SplLang.Proofs.Registers
import SplLang.Proofs.Convention
import SplLang.Proofs.Extent
import SplLang.Proofs.WellTyped
import SplLang.Proofs.Nominal
import SplLang.Proofs.Locality
import SplLang.Proofs.Histories
import SplLang.Proofs.Lasting
import SplLang.Proofs.Reordered
import SplLang.Proofs.FirstErrors
import SplLang.Proofs.Tiling
import SplLang.Proofs.Immediates
import SplLang.Proofs.Computed
import SplLang.Proofs.Flow
import SplLang.Proofs.LargestCall
import SplLang.Proofs.Registering
import SplLang.Proofs.Annotations
import SplLang.Proofs.Repeating
import SplLang.Proofs.InBounds
import SplLang.Proofs.Requests
import SplLang.Proofs.Readable
import SplLang.Proofs.Unfinished
import SplLang.Proofs.Unseen
import SplLang.Proofs.Halfway
import SplLang.Proofs.Building
import SplLang.Proofs.Underway
import SplLang.Proofs.WellFormed
