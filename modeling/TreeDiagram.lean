import TreeDiagram.Main
import TreeDiagram.Tree.Traversal
import TreeDiagram.Proofs.Exact
import TreeDiagram.Proofs.Tree.Items
import TreeDiagram.Proofs.Tree.Links
import TreeDiagram.Proofs.Layout.Placement
import TreeDiagram.Proofs.Layout.Separation
import TreeDiagram.Proofs.Layout.Extent
import TreeDiagram.Proofs.Description.Grammar
import TreeDiagram.Proofs.Description.Machine
import TreeDiagram.Proofs.Description.Growth
import TreeDiagram.Proofs.Description.Acceptance
import TreeDiagram.Proofs.Property.LastValue
import TreeDiagram.Proofs.Property.Style
import TreeDiagram.Proofs.Property.Resolver
import TreeDiagram.Proofs.Property.Table
import TreeDiagram.Proofs.Property.Line
import TreeDiagram.Proofs.Stylesheet
import TreeDiagram.Proofs.Text.Numeral
import TreeDiagram.Proofs.Text.Runs
import TreeDiagram.Proofs.Property.Meaning
import TreeDiagram.Proofs.Property.Grammar
import TreeDiagram.Proofs.Property.Styling
import TreeDiagram.Proofs.Cascade
import TreeDiagram.Proofs.Property.Scanning
import TreeDiagram.Proofs.Property.Acceptance
import TreeDiagram.Proofs.Text.Lines
import TreeDiagram.Proofs.Offence
import TreeDiagram.Proofs.Property.Offence
import TreeDiagram.Proofs.Description.Offence
import TreeDiagram.Proofs.Location
import TreeDiagram.Proofs.Document
import TreeDiagram.Proofs.Layout.Family
import TreeDiagram.Proofs.Layout.Overlap
import TreeDiagram.Proofs.Property.Validity
import TreeDiagram.Proofs.Property.Pass
import TreeDiagram.Proofs.Property.Atomicity
import TreeDiagram.Proofs.Drawing.Scene
import TreeDiagram.Proofs.Tree.Paths
import TreeDiagram.Proofs.Layout.Picture
import TreeDiagram.Proofs.Layout.Translation
import TreeDiagram.Proofs.Layout.Parents
import TreeDiagram.Layout.Passes
import TreeDiagram.Proofs.Tree.Traversal
import TreeDiagram.Proofs.Layout.Levels
import TreeDiagram.Proofs.Layout.Climbing
import TreeDiagram.Proofs.Layout.Siblings
import TreeDiagram.Proofs.Layout.Upward
import TreeDiagram.Proofs.Layout.LeastShift
import TreeDiagram.Proofs.Layout.Downward
import TreeDiagram.Proofs.Layout.InPlace
import TreeDiagram.Proofs.Layout.Rerun
import TreeDiagram.Proofs.Layout.Order
import TreeDiagram.Proofs.Layout.Scaling
import TreeDiagram.Proofs.Drawing.Clipping
import TreeDiagram.Proofs.Drawing.Trimming
import TreeDiagram.Proofs.Drawing.Edges
import TreeDiagram.Proofs.Property.Merging
import TreeDiagram.Proofs.Description.Words
import TreeDiagram.Proofs.Description.Mistake
import TreeDiagram.Proofs.Report
import TreeDiagram.Proofs.Text.Deletion
import TreeDiagram.Proofs.Influence
import TreeDiagram.Proofs.Text.Insertion
import TreeDiagram.Proofs.Relocation
import TreeDiagram.Proofs.Silence
import TreeDiagram.Proofs.Property.Writing
import TreeDiagram.Proofs.Defaults
import TreeDiagram.Proofs.Layout.Leftmost
import TreeDiagram.Proofs.Measures
import TreeDiagram.Proofs.Text.Digits
import TreeDiagram.Proofs.Property.Numbers
import TreeDiagram.Proofs.Text.Pieces
import TreeDiagram.Proofs.Description.Lexing
import TreeDiagram.Proofs.Drawing.Escaping
import TreeDiagram.Proofs.Drawing.Dashes
import TreeDiagram.Proofs.Description.Lockstep
import TreeDiagram.Proofs.Tree.Walks
import TreeDiagram.Proofs.Decimal.Canonical
import TreeDiagram.Proofs.Drawing.Coordinate
import TreeDiagram.Proofs.Command.Directory
import TreeDiagram.Proofs.Command.Files
import TreeDiagram.Proofs.Command.Run
import TreeDiagram.Proofs.Property.Lens
import TreeDiagram.Proofs.Property.Trimming
import TreeDiagram.Proofs.Bytewise.Boundaries
