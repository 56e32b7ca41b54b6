import Sigil.Build.Directory
import Sigil.Main
import Sigil.Proofs.Aggregates.Construction
import Sigil.Proofs.Arithmetic
import Sigil.Proofs.Control.Lowering
import Sigil.Proofs.Division
import Sigil.Proofs.Emission.Arguments
import Sigil.Proofs.Emission.Discipline
import Sigil.Proofs.Emission.Encoding
import Sigil.Proofs.Frees.Branches
import Sigil.Proofs.Frees.Reports
import Sigil.Proofs.Locations.Carets
import Sigil.Proofs.Locations.Program
import Sigil.Proofs.Machine.Lowering
import Sigil.Proofs.Machine.Wrapping
import Sigil.Proofs.Order.Program
import Sigil.Proofs.Parsing.Progress
import Sigil.Proofs.Printing.RoundTrip
import Sigil.Proofs.Ranges.Program
import Sigil.Proofs.References
import Sigil.Proofs.Routines.Numbers
import Sigil.Proofs.Scanning.Literals
import Sigil.Proofs.Scopes
import Sigil.Proofs.Signs
import Sigil.Proofs.Structs.Layouts
import Sigil.Proofs.Texts
