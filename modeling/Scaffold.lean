import Scaffold.FileSystem.Scene
import Scaffold.FileSystem.Vacancy
import Scaffold.Main
import Scaffold.Proofs.Instantiation.Harmless
import Scaffold.Proofs.Instantiation.Outcome
import Scaffold.Proofs.Registry.Links
import Scaffold.Registry.Memory
import Scaffold.Proofs.Instantiation.Refused
import Scaffold.Proofs.Instantiation.Confined
import Scaffold.Proofs.Registry.Runs
import Scaffold.Proofs.Registry.History
import Scaffold.Proofs.Registry.Mirror
import Scaffold.Proofs.Registry.Refinement
import Scaffold.Proofs.Placeholder.Spelling
import Scaffold.Proofs.Template.Extraction
import Scaffold.Proofs.Value.Assigned
import Scaffold.Proofs.FileSystem.Canonical
import Scaffold.Proofs.Capture.Scan
import Scaffold.Proofs.Capture.Rendered
import Scaffold.Proofs.Capture.RoundTrip
import Scaffold.Proofs.Instantiation.Collision
import Scaffold.Proofs.Registry.Failure
import Scaffold.Proofs.Argument.Collect
import Scaffold.Proofs.Argument.Resolve
import Scaffold.Proofs.Placeholder.Rendering
import Scaffold.Proofs.Template.Defaults
import Scaffold.Proofs.Capture.Nested
import Scaffold.Proofs.Instantiation.Consults
import Scaffold.Proofs.Capture.Captured
import Scaffold.Proofs.Instantiation.Renaming
import Scaffold.Proofs.Value.Asked
import Scaffold.Proofs.Value.Kept
import Scaffold.Proofs.Capture.Shape
import Scaffold.Proofs.Registry.Parsed
import Scaffold.Proofs.Capture.Recapture
import Scaffold.Proofs.Ignore.Components
import Scaffold.Proofs.Capture.Pruned
import Scaffold.Proofs.Registry.Removal
import Scaffold.Proofs.Registry.Footprint
import Scaffold.Proofs.Placeholder.Scanning
import Scaffold.Proofs.Placeholder.Seams
import Scaffold.Proofs.Template.Spelled
import Scaffold.Proofs.Template.Conflict
import Scaffold.Proofs.Template.Reordered
import Scaffold.Proofs.Capture.Outline
