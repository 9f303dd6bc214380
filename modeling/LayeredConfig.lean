import LayeredConfig.Ancestry.Lineage
import LayeredConfig.Ancestry.Package
import LayeredConfig.Ancestry.Walk
import LayeredConfig.Clock
import LayeredConfig.Combined.Access
import LayeredConfig.Combined.Compiled
import LayeredConfig.Combined.Invocation
import LayeredConfig.Combined.Merge
import LayeredConfig.CommandLine.Arguments
import LayeredConfig.CommandLine.Run
import LayeredConfig.Document.Load
import LayeredConfig.Document.Placeholder
import LayeredConfig.Document.Shape
import LayeredConfig.Document.Stamp
import LayeredConfig.Edit
import LayeredConfig.Expr.Basic
import LayeredConfig.Expr.Deferred
import LayeredConfig.Expr.Evaluation
import LayeredConfig.Expr.Fault
import LayeredConfig.Expr.Grammar
import LayeredConfig.Expr.Pick
import LayeredConfig.Expr.Reader
import LayeredConfig.Fault
import LayeredConfig.FileTree.Basic
import LayeredConfig.Json.Printer
import LayeredConfig.Json.Reader
import LayeredConfig.Json.Skip
import LayeredConfig.Location.Basic
import LayeredConfig.Main
import LayeredConfig.Number.Binary64
import LayeredConfig.Number.Decimal
import LayeredConfig.Origin.Declarations
import LayeredConfig.Origin.Sources
import LayeredConfig.Outcome
import LayeredConfig.Proofs.Ancestry.Visit
import LayeredConfig.Proofs.Combined.Override
import LayeredConfig.Proofs.Document.Load
import LayeredConfig.Proofs.Location.Absolute
import LayeredConfig.Proofs.FileTree.Frame
import LayeredConfig.Proofs.FileTree.Places
import LayeredConfig.Proofs.Location.Canonical
import LayeredConfig.Proofs.Outcome
import LayeredConfig.Proofs.Value.Overlay
import LayeredConfig.Settings.Basic
import LayeredConfig.Settings.Fault
import LayeredConfig.Settings.Load
import LayeredConfig.Sidecar.Basic
import LayeredConfig.Sidecar.Store
import LayeredConfig.Text.Blank
import LayeredConfig.Text.Hidden
import LayeredConfig.Toml.DateTime
import LayeredConfig.Toml.Entries
import LayeredConfig.Toml.Reader
import LayeredConfig.Toml.Scalar
import LayeredConfig.Value.Basic
import LayeredConfig.Value.KeyPath
import LayeredConfig.Value.Overlay
import LayeredConfig.Workspace
import LayeredConfig.Yaml.Cursor
import LayeredConfig.Yaml.Layout
import LayeredConfig.Yaml.Node
import LayeredConfig.Yaml.PlainScalar
import LayeredConfig.Yaml.Printer
import LayeredConfig.Yaml.Reader
import LayeredConfig.Yaml.ScalarText
import LayeredConfig.Yaml.Sheet
import LayeredConfig.Yaml.Style
import LayeredConfig.Yaml.Tag
import LayeredConfig.Yaml.Token
import LayeredConfig.Proofs.Ancestry.Run
import LayeredConfig.Proofs.Ancestry.Cycle
import LayeredConfig.Proofs.Ancestry.Package
import LayeredConfig.Proofs.Value.WellFormed
import LayeredConfig.Proofs.Yaml.WellFormed
import LayeredConfig.Proofs.Ancestry.Order
import LayeredConfig.Proofs.Combined.Precedence
import LayeredConfig.Proofs.Value.Equality
import LayeredConfig.Proofs.Value.MapText
import LayeredConfig.Proofs.Document.Placeholder
import LayeredConfig.Proofs.Clock
import LayeredConfig.Proofs.Document.Transparency
import LayeredConfig.Proofs.Expr.Reader
import LayeredConfig.Proofs.Expr.Printer
import LayeredConfig.Proofs.Combined.Origin
import LayeredConfig.Proofs.Document.Repeat
import LayeredConfig.Proofs.Value.KeyPath
import LayeredConfig.Proofs.Edit
import LayeredConfig.Proofs.Document.Rest
import LayeredConfig.Proofs.Location.Descent
import LayeredConfig.Proofs.Ancestry.Containment
import LayeredConfig.Proofs.Location.Relative
import LayeredConfig.Proofs.Sidecar.Emission
import LayeredConfig.Proofs.Ancestry.Retrace
import LayeredConfig.Proofs.Combined.Calm
import LayeredConfig.Proofs.Sidecar.Repeat
import LayeredConfig.Proofs.Workspace
import LayeredConfig.Proofs.Combined.DottedPath
import LayeredConfig.Proofs.EntityEdit
import LayeredConfig.Proofs.Ancestry.Evidence
import LayeredConfig.Proofs.Expr.Offset
import LayeredConfig.Proofs.Ancestry.Traversal
import LayeredConfig.Proofs.Ancestry.Termination
import LayeredConfig.Proofs.Ancestry.Detection
import LayeredConfig.Proofs.Document.Footprint
import LayeredConfig.Proofs.Footprint
import LayeredConfig.Proofs.Origin.Sources
import LayeredConfig.Proofs.EditIfAbsent
import LayeredConfig.Proofs.Document.Effect
import LayeredConfig.Proofs.FieldEdit
import LayeredConfig.Proofs.Value.KeyOrder
import LayeredConfig.Proofs.Value.Algebra
import LayeredConfig.Proofs.Location.Way
import LayeredConfig.Proofs.Combined.Invocation
import LayeredConfig.Proofs.Combined.Keys
import LayeredConfig.Proofs.FileTree.Canonical
import LayeredConfig.Proofs.Document.Probe
import LayeredConfig.Proofs.Ancestry.Probe
import LayeredConfig.Proofs.Locality
import LayeredConfig.Proofs.Combined.Merge
import LayeredConfig.Proofs.Combined.Malformed
import LayeredConfig.Proofs.Combined.CanonicalForm
import LayeredConfig.Proofs.Combined.Child
import LayeredConfig.Proofs.Ancestry.Reference
import LayeredConfig.Proofs.Location.NormalForm
import LayeredConfig.Proofs.Expr.Pick
import LayeredConfig.Proofs.Expr.NestedJoin
import LayeredConfig.Proofs.Value.Lens
import LayeredConfig.Proofs.Document.Content
import LayeredConfig.Proofs.Document.Stamp
import LayeredConfig.Proofs.Location.Ancestors
import LayeredConfig.Proofs.Ancestry.Lookup
import LayeredConfig.Proofs.Ancestry.Drawing
import LayeredConfig.Proofs.Document.Substitution
import LayeredConfig.Proofs.Toml.Keys
import LayeredConfig.Proofs.Settings.Precedence
import LayeredConfig.Proofs.FileTree.Sound
import LayeredConfig.Proofs.Sidecar.Clearing
import LayeredConfig.Proofs.Text.Cut
import LayeredConfig.Proofs.Ancestry.PackageName
import LayeredConfig.Proofs.Text.Lines
import LayeredConfig.Proofs.Origin.Declarations
