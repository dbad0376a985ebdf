import ModuleResolution.Files.Held
import ModuleResolution.Main
import ModuleResolution.Proofs.Circles
import ModuleResolution.Proofs.Denoting
import ModuleResolution.Proofs.FirstLoad
import ModuleResolution.Proofs.Outcome
import ModuleResolution.Proofs.Rules
import ModuleResolution.Proofs.Segments
import ModuleResolution.Proofs.Lexing
import ModuleResolution.Proofs.Tiling
import ModuleResolution.Proofs.Printing
import ModuleResolution.Proofs.Locality
import ModuleResolution.Proofs.Moving
import ModuleResolution.Proofs.Joining
import ModuleResolution.Proofs.Recovery
import ModuleResolution.Proofs.Spacing
import ModuleResolution.Proofs.Asking
import ModuleResolution.Proofs.Freezing
import ModuleResolution.Proofs.Showing
import ModuleResolution.Proofs.Respelling
import ModuleResolution.Proofs.Refusing
import ModuleResolution.Proofs.Entering
import ModuleResolution.Proofs.Rereading
import ModuleResolution.Proofs.Naming
import ModuleResolution.Proofs.Confinement
import ModuleResolution.Proofs.Repeating
import ModuleResolution.Proofs.Termination
import ModuleResolution.Proofs.Appending
import ModuleResolution.Proofs.Slicing
import ModuleResolution.Proofs.Brackets
import ModuleResolution.Proofs.Clashes
import ModuleResolution.Proofs.Listings
import ModuleResolution.Proofs.Mistakes
import ModuleResolution.Proofs.Faults
import ModuleResolution.Proofs.Kinds
import ModuleResolution.Proofs.Uncut
