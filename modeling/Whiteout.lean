import Whiteout.Branch.Listed
import Whiteout.CommandLine.Run
import Whiteout.Config.OfJson
import Whiteout.Config.Store
import Whiteout.FileSystem.Effects
import Whiteout.Main
import Whiteout.Marker.Create
import Whiteout.Marker.Listing
import Whiteout.Marker.Remove
import Whiteout.Proofs.Branch.Listed
import Whiteout.Proofs.CommandLine.Stateless
import Whiteout.Proofs.Config.FailedSave
import Whiteout.Proofs.Config.Saved
import Whiteout.Proofs.Hash.Exact
import Whiteout.Proofs.Lookup.Deletion
import Whiteout.Proofs.Lookup.FirstProvider
import Whiteout.Proofs.Lookup.Recreation
import Whiteout.Proofs.Lookup.Spelling
import Whiteout.Proofs.Marker.Containment
import Whiteout.Proofs.Marker.Frame
import Whiteout.Proofs.Marker.Fronts
import Whiteout.Proofs.Marker.Isolation
import Whiteout.Proofs.Marker.Order
import Whiteout.Proofs.Marker.Ownership
import Whiteout.Proofs.Marker.Rendering
import Whiteout.Proofs.Marker.Reordering
import Whiteout.Proofs.Marker.Requests
import Whiteout.Proofs.Marker.Restored
import Whiteout.Proofs.Marker.Uncovered
import Whiteout.Proofs.Mirror.Run
import Whiteout.Proofs.Path.Assembly
import Whiteout.Proofs.Path.Buffer
import Whiteout.Proofs.Tag.Decoding
import Whiteout.Proofs.Union.HomeExpansion
