import Swatch.Color.Basic
import Swatch.CommandLine.Arguments
import Swatch.CommandLine.Command
import Swatch.CommandLine.Output
import Swatch.CommandLine.Run
import Swatch.Cover
import Swatch.Decoration.Host
import Swatch.Decoration.Paint
import Swatch.Decoration.Pool
import Swatch.Document.Basic
import Swatch.Document.Edit
import Swatch.Document.Position
import Swatch.Editor
import Swatch.Files.Locations
import Swatch.Files.Path
import Swatch.Files.Script
import Swatch.Files.Tree
import Swatch.Ignored.Entry
import Swatch.Ignored.Json
import Swatch.Ignored.Registry
import Swatch.Ignored.Store
import Swatch.Json.Printer
import Swatch.Json.Reader
import Swatch.Json.Value
import Swatch.Literal.Basic
import Swatch.Literal.GameText
import Swatch.Literal.Hex
import Swatch.Literal.Tuple
import Swatch.Main
import Swatch.Proofs.Decoration.Host
import Swatch.Proofs.Decoration.Pool
import Swatch.Proofs.Document.Difference
import Swatch.Proofs.Document.Lines
import Swatch.Proofs.Document.Position
import Swatch.Proofs.Ignored.Follow
import Swatch.Proofs.Ignored.Reload
import Swatch.Proofs.Ignored.Tracking
import Swatch.Proofs.Session.Cache
import Swatch.Proofs.Session.Capacity
import Swatch.Proofs.Session.History
import Swatch.Proofs.Session.Shown
import Swatch.Proofs.Table
import Swatch.Scan
import Swatch.Schedule
import Swatch.Session
import Swatch.Settings.Basic
import Swatch.Settings.File
import Swatch.Settings.Json
import Swatch.Settings.Yaml
import Swatch.Source.Argument
import Swatch.Source.Context
import Swatch.Source.Line
import Swatch.Table
import Swatch.Text.Basic
import Swatch.Text.Digit
import Swatch.Text.Occurrence
import Swatch.Text.Word
import Swatch.Viewport
import Swatch.Yaml.Node
import Swatch.Yaml.Scalar
import Swatch.Yaml.Stream
import Swatch.Yaml.Token
import Swatch.Proofs.Text.Cut
import Swatch.Proofs.Text.Occurrence
import Swatch.Proofs.Color.Digits
import Swatch.Proofs.Source.Lines
import Swatch.Proofs.Source.Quotes
import Swatch.Proofs.Literal.Apart
import Swatch.Proofs.Literal.Hexadecimal
import Swatch.Proofs.Literal.NumberList
import Swatch.Proofs.Cover
import Swatch.Proofs.Scan.Apart
import Swatch.Proofs.Scan.Window
import Swatch.Proofs.Scan.Literals
import Swatch.Proofs.Session.Whole
import Swatch.Proofs.Ignored.Merging
import Swatch.Proofs.Ignored.Distinct
import Swatch.Proofs.Text.Bytes
import Swatch.Proofs.Document.Trimming
import Swatch.Proofs.Scan.Families
import Swatch.Proofs.Session.Hiding
import Swatch.Proofs.Session.Unread
import Swatch.Proofs.Schedule
import Swatch.Proofs.Json.RoundTrip
import Swatch.Proofs.Files.Tree
import Swatch.Proofs.Ignored.Json
import Swatch.Proofs.Ignored.Durable
import Swatch.Proofs.Offsets.Reading
import Swatch.Proofs.Offsets.Lexer
import Swatch.Proofs.Offsets.Call
import Swatch.Proofs.Source.Touched
import Swatch.Proofs.Offsets.Place
import Swatch.Proofs.Offsets.Literal
import Swatch.Proofs.Offsets.Run
import Swatch.Proofs.Offsets.Cover
import Swatch.Proofs.Offsets.Scan
import Swatch.Proofs.Scan.Sound
import Swatch.Proofs.Source.Call
import Swatch.Proofs.Text.First
import Swatch.Proofs.Literal.Coloring
import Swatch.Proofs.Literal.Colorless
import Swatch.Proofs.Scan.Arguments
import Swatch.Proofs.Ignored.Undo
import Swatch.Proofs.Ignored.Listing
import Swatch.Proofs.Source.Alike
import Swatch.Proofs.Source.Blot
import Swatch.Proofs.Ignored.Recency
import Swatch.Proofs.Ignored.Event
import Swatch.Proofs.Scan.Warnings
import Swatch.Proofs.Text.Number
import Swatch.Proofs.Literal.Spelled
import Swatch.Proofs.Document.Offsets
import Swatch.Proofs.Source.Documents
import Swatch.Proofs.Yaml.Nodes
import Swatch.Proofs.Settings.Partial
import Swatch.Proofs.Files.Path
import Swatch.Proofs.Files.Making
import Swatch.Proofs.Settings.Saved
import Swatch.Proofs.Session.Tickets
