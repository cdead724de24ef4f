import Workbench.Commit
import Workbench.Decimal.Binary64
import Workbench.Decimal.Fixed
import Workbench.Decimal.Integer
import Workbench.Decimal.Numeral
import Workbench.Energy.Reader
import Workbench.Energy.Sample
import Workbench.Environment
import Workbench.Executable
import Workbench.Expression.Brackets
import Workbench.Expression.Escape
import Workbench.Expression.Mode
import Workbench.Expression.Reader
import Workbench.Failure
import Workbench.Files.Basic
import Workbench.Files.Build
import Workbench.Files.Content
import Workbench.Files.Locate
import Workbench.Files.Physical
import Workbench.Host
import Workbench.Json.Enumerated
import Workbench.Json.Reader
import Workbench.Json.Sample
import Workbench.Json.Value
import Workbench.Log.Event
import Workbench.Log.Filter
import Workbench.Log.Setup
import Workbench.Path.Base
import Workbench.Path.Basic
import Workbench.Path.Normal
import Workbench.Path.SearchList
import Workbench.Pattern.Basic
import Workbench.Pattern.Search
import Workbench.Payload
import Workbench.Printing
import Workbench.Process.Child
import Workbench.Process.Command
import Workbench.Process.Launch
import Workbench.Process.Output
import Workbench.Process.Signal
import Workbench.Proofs.Commit
import Workbench.Proofs.Commit.Arguments
import Workbench.Proofs.Decimal.Fixed
import Workbench.Proofs.Decimal.Integer
import Workbench.Proofs.Decimal.Rounding
import Workbench.Proofs.Energy.Reader
import Workbench.Proofs.Energy.Sample
import Workbench.Proofs.Executable
import Workbench.Proofs.Files.Absolute
import Workbench.Proofs.Files.Append
import Workbench.Proofs.Files.Behind
import Workbench.Proofs.Files.Physical
import Workbench.Proofs.Files.Realpath
import Workbench.Proofs.Files.Route
import Workbench.Proofs.Files.Trace
import Workbench.Proofs.Files.Tree
import Workbench.Proofs.Files.Walk
import Workbench.Proofs.Json.Grammar
import Workbench.Proofs.Json.Number
import Workbench.Proofs.Json.Reader
import Workbench.Proofs.Json.Sample
import Workbench.Proofs.Json.Text
import Workbench.Proofs.Path.Base
import Workbench.Proofs.Path.Components
import Workbench.Proofs.Path.Join
import Workbench.Proofs.Path.Normal
import Workbench.Proofs.Pattern.Depth
import Workbench.Proofs.Pattern.Descent
import Workbench.Proofs.Pattern.Entries
import Workbench.Proofs.Pattern.Matching
import Workbench.Proofs.Pattern.Reference
import Workbench.Proofs.Pattern.Renaming
import Workbench.Proofs.Pattern.Repetition
import Workbench.Proofs.Payload
import Workbench.Proofs.Process.Child
import Workbench.Proofs.Result
import Workbench.Proofs.Text.Code
import Workbench.Proofs.Text.FirstLine
import Workbench.Proofs.Text.Lines
import Workbench.Proofs.Text.Placeholders
import Workbench.Proofs.Utf8
import Workbench.Proofs.Utf8.Exact
import Workbench.Proofs.Utf8.Faults
import Workbench.Proofs.Utf8.Order
import Workbench.Proofs.Variables
import Workbench.Proofs.Variables.Pieces
import Workbench.Proofs.Xml.Action
import Workbench.Proofs.Xml.Acyclic
import Workbench.Proofs.Xml.Attribute
import Workbench.Proofs.Xml.Compact
import Workbench.Proofs.Xml.Forest
import Workbench.Proofs.Xml.Frame
import Workbench.Proofs.Xml.Graph
import Workbench.Proofs.Xml.Indented
import Workbench.Proofs.Xml.Insertion
import Workbench.Proofs.Xml.Junction
import Workbench.Proofs.Xml.Locality
import Workbench.Proofs.Xml.Nesting
import Workbench.Proofs.Xml.Order
import Workbench.Proofs.Xml.Pieces
import Workbench.Proofs.Xml.Record
import Workbench.Proofs.Xml.Reference
import Workbench.Proofs.Xml.Reformat
import Workbench.Proofs.Xml.Reordering
import Workbench.Proofs.Xml.Stacks
import Workbench.Proofs.Xml.Tag
import Workbench.Proofs.Xml.Tags
import Workbench.Proofs.Xml.Tree
import Workbench.Proofs.Xml.Truncation
import Workbench.Proofs.Xml.Unescape
import Workbench.Proofs.Xml.Values
import Workbench.Selection
import Workbench.Text.Alphabetic
import Workbench.Text.Alphanumeric
import Workbench.Text.Blank
import Workbench.Text.Code
import Workbench.Text.Line
import Workbench.Text.Split
import Workbench.Text.Utf8
import Workbench.Variables
import Workbench.Xml.Attribute
import Workbench.Xml.Document
import Workbench.Xml.Element
import Workbench.Xml.Fault
import Workbench.Xml.Markup
import Workbench.Xml.Reference
import Workbench.Xml.Session
import Workbench.Xml.Store
import Workbench.Xml.Writer
