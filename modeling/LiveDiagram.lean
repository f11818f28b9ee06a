import LiveDiagram.Text.Blank
import LiveDiagram.Text.Word
import LiveDiagram.Text.Literal
import LiveDiagram.Number.Numeral
import LiveDiagram.Number.Quantity
import LiveDiagram.Assoc
import LiveDiagram.Props.Merge
import LiveDiagram.Props.Codec
import LiveDiagram.Connector.Style
import LiveDiagram.Source.Token
import LiveDiagram.Context
import LiveDiagram.Source.Forest
import LiveDiagram.Source.Cursor
import LiveDiagram.Source.Reader
import LiveDiagram.Source.Quoted
import LiveDiagram.Source.Highlight
import LiveDiagram.Geometry.Placement
import LiveDiagram.Config
import LiveDiagram.Document.Basic
import LiveDiagram.Document.Transaction
import LiveDiagram.Document.History
import LiveDiagram.Reconcile
import LiveDiagram.Session
import LiveDiagram.Main
import LiveDiagram.Proofs.Reached
import LiveDiagram.Proofs.History.Run
import LiveDiagram.Proofs.Document.RoundTrip
import LiveDiagram.Proofs.Reconcile.Report
import LiveDiagram.Proofs.Edit.Leading
import LiveDiagram.Proofs.Reconcile.Sites
import LiveDiagram.Proofs.Reconcile.Building
import LiveDiagram.Proofs.Props.Repeating
import LiveDiagram.Proofs.Reconcile.Settled
import LiveDiagram.Proofs.Reconcile.Converging
import LiveDiagram.Proofs.Reconcile.Strides
import LiveDiagram.Proofs.Reconcile.Frame
import LiveDiagram.Proofs.Reconcile.Treading
import LiveDiagram.Proofs.Edit.Sweeping
import LiveDiagram.Proofs.Reconcile.Labelling
import LiveDiagram.Proofs.Reconcile.Touching
import LiveDiagram.Proofs.History.Revert
import LiveDiagram.Proofs.Document.Formatting
import LiveDiagram.Proofs.Document.Mirroring
import LiveDiagram.Proofs.Document.Canonical
import LiveDiagram.Proofs.Document.Showing
import LiveDiagram.Proofs.Edit.Transact
import LiveDiagram.Proofs.History.Calls
import LiveDiagram.Proofs.Document.Applying
import LiveDiagram.Proofs.Props.Discerning
import LiveDiagram.Proofs.Document.Printing
import LiveDiagram.Proofs.Document.Unreported
import LiveDiagram.Proofs.Document.Selecting
import LiveDiagram.Proofs.Document.Reordering
import LiveDiagram.Proofs.Source.Accepting
import LiveDiagram.Proofs.Source.Isolating
import LiveDiagram.Proofs.Edit.Classifying
import LiveDiagram.Proofs.Document.Writing
import LiveDiagram.Proofs.Props.Again
import LiveDiagram.Proofs.Connector.Splitting
import LiveDiagram.Proofs.Connector.Rejoining
import LiveDiagram.Proofs.Edit.Removing
import LiveDiagram.Proofs.Reconcile.Supplanting
import LiveDiagram.Proofs.Reconcile.Relabelling
import LiveDiagram.Proofs.Geometry.Placing
import LiveDiagram.Proofs.Reconcile.Housing
import LiveDiagram.Proofs.Document.Spacing
import LiveDiagram.Proofs.Source.Reporting
import LiveDiagram.Proofs.Edit.Refusing
import LiveDiagram.Proofs.Source.Halting
import LiveDiagram.Proofs.Source.Confining
import LiveDiagram.Proofs.Source.Naming
import LiveDiagram.Proofs.Source.Respacing
import LiveDiagram.Proofs.Source.Markup
import LiveDiagram.Proofs.Source.Marking
import LiveDiagram.Proofs.Props.Overriding
