import Wayfinder.Admin.MediaType
import Wayfinder.Admin.Request
import Wayfinder.Admin.RolesBody
import Wayfinder.Admin.Service
import Wayfinder.Ascending
import Wayfinder.Baseline
import Wayfinder.Breadcrumbs
import Wayfinder.Builtin
import Wayfinder.Captures
import Wayfinder.Catalog
import Wayfinder.CommandLine.Arguments
import Wayfinder.CommandLine.Commands
import Wayfinder.Defect
import Wayfinder.Endpoint
import Wayfinder.Folder
import Wayfinder.Forest
import Wayfinder.Host
import Wayfinder.Journey
import Wayfinder.Json.Number
import Wayfinder.Json.Token
import Wayfinder.Json.Value
import Wayfinder.Main
import Wayfinder.Menu
import Wayfinder.Node
import Wayfinder.Page
import Wayfinder.Path
import Wayfinder.Pattern
import Wayfinder.Permission
import Wayfinder.Proofs.Acceptance
import Wayfinder.Proofs.Compilation
import Wayfinder.Proofs.Confinement
import Wayfinder.Proofs.History
import Wayfinder.Proofs.Hits
import Wayfinder.Proofs.Inspection
import Wayfinder.Proofs.Journey
import Wayfinder.Proofs.Legality
import Wayfinder.Proofs.Lookup
import Wayfinder.Proofs.Matching
import Wayfinder.Proofs.Places
import Wayfinder.Proofs.Precedence
import Wayfinder.Proofs.Pruning
import Wayfinder.Proofs.Reversal
import Wayfinder.Proofs.Revocation
import Wayfinder.Proofs.Segments
import Wayfinder.Proofs.Startup
import Wayfinder.Proofs.Survival
import Wayfinder.Proofs.Thinning
import Wayfinder.Proofs.Views
import Wayfinder.Proofs.Way
import Wayfinder.Proofs.Writing
import Wayfinder.Report
import Wayfinder.Roles
import Wayfinder.RouteFile.Declaration
import Wayfinder.RouteFile.Unfolding
import Wayfinder.Router
import Wayfinder.Session
import Wayfinder.Settings.Basic
import Wayfinder.Settings.File
import Wayfinder.Settings.Validation
import Wayfinder.Shutdown
import Wayfinder.Table
import Wayfinder.Tally
import Wayfinder.Text.Blank
import Wayfinder.Text.Form
import Wayfinder.Text.Letters
import Wayfinder.Text.Magnitude
import Wayfinder.Text.Pieces
import Wayfinder.Text.Scan
import Wayfinder.Text.Utf8
import Wayfinder.Toml.Document
import Wayfinder.Toml.Record
import Wayfinder.Toml.Scalar
import Wayfinder.Toml.Tree
import Wayfinder.Toml.Value
import Wayfinder.Proofs.Lifecycle
import Wayfinder.Proofs.Blindness
import Wayfinder.Proofs.Trail
import Wayfinder.Proofs.Links
import Wayfinder.Proofs.Administration
import Wayfinder.Proofs.Keys
import Wayfinder.Proofs.Counting
import Wayfinder.Proofs.References
import Wayfinder.Proofs.Assembly
import Wayfinder.Proofs.Hops
import Wayfinder.Proofs.Lossless
import Wayfinder.Proofs.Reachability
import Wayfinder.Proofs.Collisions
import Wayfinder.Proofs.Pruned
import Wayfinder.Proofs.Faults
import Wayfinder.Proofs.Placement
import Wayfinder.Proofs.Cycles
import Wayfinder.Proofs.Retracing
import Wayfinder.Proofs.Canonical
import Wayfinder.Proofs.Recovery
import Wayfinder.Proofs.Sources
import Wayfinder.Proofs.Listing
import Wayfinder.Proofs.Descent
import Wayfinder.Proofs.Dormant
import Wayfinder.Proofs.Forwarding
import Wayfinder.Proofs.Landing
import Wayfinder.Proofs.Anchors
