import Marginalia.Json.Plain
import Marginalia.Main
import Marginalia.Outline.Decode
import Marginalia.Outline.Layout
import Marginalia.Proofs.Lines
import Marginalia.Proofs.Extraction
import Marginalia.Proofs.Ownership
import Marginalia.Proofs.Grouping
import Marginalia.Proofs.Annotation
import Marginalia.Proofs.Placement
import Marginalia.Proofs.Checked
import Marginalia.Proofs.Codec
import Marginalia.Proofs.Erasure
import Marginalia.Proofs.Accounting
import Marginalia.Proofs.Nearest
import Marginalia.Proofs.Acceptance
import Marginalia.Proofs.Building
import Marginalia.Proofs.Storage
import Marginalia.Proofs.LineComment
import Marginalia.Proofs.Loading
import Marginalia.Proofs.Disk
import Marginalia.Proofs.Rotation
import Marginalia.Proofs.Directories
import Marginalia.Proofs.AtomicWrite
import Marginalia.Proofs.Confinement
import Marginalia.Proofs.Stages
import Marginalia.Proofs.Delivery
import Marginalia.Proofs.AllOrNothing
import Marginalia.Proofs.Joining
import Marginalia.Proofs.Heading
import Marginalia.Proofs.Neighbours
import Marginalia.Proofs.Insertion
import Marginalia.Proofs.Resumption
import Marginalia.Proofs.Opacity
import Marginalia.Proofs.Openings
import Marginalia.Proofs.Innermost
import Marginalia.Proofs.Policies
import Marginalia.Proofs.LineEndings
import Marginalia.Proofs.Wanted
import Marginalia.Proofs.Compact
import Marginalia.Proofs.Spanless
import Marginalia.Proofs.Replacement
import Marginalia.Proofs.Calls
import Marginalia.Proofs.FirstFault
import Marginalia.Proofs.SettingsFile
import Marginalia.Proofs.NormalForm
import Marginalia.Proofs.SizeLimit
import Marginalia.Proofs.Containment
import Marginalia.Proofs.Shortening
import Marginalia.Proofs.Literals
import Marginalia.Proofs.Offsets
import Marginalia.Proofs.Naming
