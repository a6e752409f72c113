import LexicalScopes.Analysis
import LexicalScopes.Cache
import LexicalScopes.Cli.Arguments
import LexicalScopes.Cli.Command
import LexicalScopes.Cli.FileTree
import LexicalScopes.Cli.Grammar
import LexicalScopes.Cli.Usage
import LexicalScopes.Decimal.Shortest
import LexicalScopes.Digest.Sha256
import LexicalScopes.Fault
import LexicalScopes.Frontend
import LexicalScopes.Json.Basic
import LexicalScopes.Json.Order
import LexicalScopes.Json.Printer
import LexicalScopes.Json.Reader
import LexicalScopes.Json.Text
import LexicalScopes.Linked
import LexicalScopes.Main
import LexicalScopes.Parse
import LexicalScopes.Proofs.Alike
import LexicalScopes.Proofs.Answers
import LexicalScopes.Proofs.Assignments
import LexicalScopes.Proofs.Binders
import LexicalScopes.Proofs.Binders.Nodes
import LexicalScopes.Proofs.Binders.Patterns
import LexicalScopes.Proofs.Binders.Recorded
import LexicalScopes.Proofs.BlockScopes
import LexicalScopes.Proofs.Bookkeeping
import LexicalScopes.Proofs.Bookkeeping.Bare
import LexicalScopes.Proofs.Chains
import LexicalScopes.Proofs.ComputedKeys
import LexicalScopes.Proofs.Consistency
import LexicalScopes.Proofs.Consistency.Faults
import LexicalScopes.Proofs.Containment
import LexicalScopes.Proofs.Cursor
import LexicalScopes.Proofs.Cursor.Enclosing
import LexicalScopes.Proofs.Cursor.Places
import LexicalScopes.Proofs.Cursor.Search
import LexicalScopes.Proofs.DataModel
import LexicalScopes.Proofs.DataModel.Accesses
import LexicalScopes.Proofs.DataModel.Names
import LexicalScopes.Proofs.Delivery
import LexicalScopes.Proofs.Delivery.Contents
import LexicalScopes.Proofs.Delivery.Files
import LexicalScopes.Proofs.Delivery.Texts
import LexicalScopes.Proofs.Destructuring
import LexicalScopes.Proofs.Destructuring.Meetings
import LexicalScopes.Proofs.Destructuring.Receivers
import LexicalScopes.Proofs.Dissolution
import LexicalScopes.Proofs.Encapsulation
import LexicalScopes.Proofs.Encapsulation.Bodies
import LexicalScopes.Proofs.Encapsulation.Confined
import LexicalScopes.Proofs.Encapsulation.Hollow
import LexicalScopes.Proofs.Encapsulation.Lockstep
import LexicalScopes.Proofs.Encapsulation.Mirrors
import LexicalScopes.Proofs.Encapsulation.Parallel
import LexicalScopes.Proofs.Encapsulation.Readings
import LexicalScopes.Proofs.Encapsulation.Runs
import LexicalScopes.Proofs.Encapsulation.Walks
import LexicalScopes.Proofs.Graph.Additions
import LexicalScopes.Proofs.Graph.Chain
import LexicalScopes.Proofs.Graph.Dissolve
import LexicalScopes.Proofs.Graph.Dissolved
import LexicalScopes.Proofs.Graph.Growth
import LexicalScopes.Proofs.Graph.Overwriting
import LexicalScopes.Proofs.Graph.Views
import LexicalScopes.Proofs.Introduced
import LexicalScopes.Proofs.Introduced.Names
import LexicalScopes.Proofs.Likeness.Actions
import LexicalScopes.Proofs.Likeness.Names
import LexicalScopes.Proofs.Likeness.Paths
import LexicalScopes.Proofs.Likeness.Values
import LexicalScopes.Proofs.Missing
import LexicalScopes.Proofs.Missing.Holes
import LexicalScopes.Proofs.ModuleLayer
import LexicalScopes.Proofs.ModuleLayer.Evidence
import LexicalScopes.Proofs.Order
import LexicalScopes.Proofs.Placement
import LexicalScopes.Proofs.Placement.Hoisting
import LexicalScopes.Proofs.Placement.Kinds
import LexicalScopes.Proofs.Placement.Layers
import LexicalScopes.Proofs.Positions
import LexicalScopes.Proofs.Preorder
import LexicalScopes.Proofs.Ranges.Contained
import LexicalScopes.Proofs.Ranges.Covering
import LexicalScopes.Proofs.Ranges.Located
import LexicalScopes.Proofs.Ranges.Parts
import LexicalScopes.Proofs.Reading
import LexicalScopes.Proofs.Reads
import LexicalScopes.Proofs.Receiver
import LexicalScopes.Proofs.Recording
import LexicalScopes.Proofs.Renaming
import LexicalScopes.Proofs.Renaming.Actions
import LexicalScopes.Proofs.Renaming.Tree
import LexicalScopes.Proofs.Resolution
import LexicalScopes.Proofs.Run.Bound
import LexicalScopes.Proofs.Run.Contribution
import LexicalScopes.Proofs.Run.Declaring
import LexicalScopes.Proofs.Run.Events
import LexicalScopes.Proofs.Run.Home
import LexicalScopes.Proofs.Run.Induction
import LexicalScopes.Proofs.Run.Later
import LexicalScopes.Proofs.Run.Ordinary
import LexicalScopes.Proofs.Run.Performs
import LexicalScopes.Proofs.Run.Pointer
import LexicalScopes.Proofs.Run.Program
import LexicalScopes.Proofs.Run.Replay
import LexicalScopes.Proofs.Run.Script
import LexicalScopes.Proofs.Run.Visit
import LexicalScopes.Proofs.Run.Walk
import LexicalScopes.Proofs.Samples
import LexicalScopes.Proofs.Settled
import LexicalScopes.Proofs.Shape.Export
import LexicalScopes.Proofs.Shape.Numbering
import LexicalScopes.Proofs.Shape.Outline
import LexicalScopes.Proofs.Shape.Shown
import LexicalScopes.Proofs.Shape.Tree
import LexicalScopes.Proofs.Shape.Walk
import LexicalScopes.Proofs.Sharing
import LexicalScopes.Proofs.Sharing.History
import LexicalScopes.Proofs.Sharing.Interleaving
import LexicalScopes.Proofs.Sharing.Runs
import LexicalScopes.Proofs.Sharing.Steps
import LexicalScopes.Proofs.Sorting
import LexicalScopes.Proofs.Spelling
import LexicalScopes.Proofs.Spelling.Actions
import LexicalScopes.Proofs.Spelling.Paths
import LexicalScopes.Proofs.Spelling.Readings
import LexicalScopes.Proofs.Spelling.Script
import LexicalScopes.Proofs.Transparency
import LexicalScopes.Proofs.Traversal
import LexicalScopes.Proofs.Traversal.Occurrences
import LexicalScopes.Proofs.Ways
import LexicalScopes.Proofs.Wrapping
import LexicalScopes.Proofs.Wrapping.Forms
import LexicalScopes.Proofs.Wrapping.Ranges
import LexicalScopes.Scope.Action
import LexicalScopes.Scope.Builder
import LexicalScopes.Scope.Cursor
import LexicalScopes.Scope.Finish
import LexicalScopes.Scope.Graph
import LexicalScopes.Scope.Location
import LexicalScopes.Scope.Tree
import LexicalScopes.Scope.Written
import LexicalScopes.Syntax.FunctionName
import LexicalScopes.Syntax.Node
import LexicalScopes.Syntax.Path
import LexicalScopes.Syntax.Pattern
import LexicalScopes.Syntax.Reference
import LexicalScopes.Syntax.Traversal
import LexicalScopes.Syntax.Wrapper
import LexicalScopes.Text.CodePoint
import LexicalScopes.Text.Printable
import LexicalScopes.Text.Quoted
import LexicalScopes.Text.Whole
