import ModelText.Codec
import ModelText.Codec.Converter
import ModelText.Codec.Error
import ModelText.Codec.Probe
import ModelText.Codec.Selection
import ModelText.Codec.Stream
import ModelText.CommandLine.Arguments
import ModelText.CommandLine.Help
import ModelText.CommandLine.Report
import ModelText.CommandLine.Run
import ModelText.Config
import ModelText.Element
import ModelText.Engine
import ModelText.Engine.Exclusive
import ModelText.Engine.Fixed
import ModelText.Engine.Words
import ModelText.Entity
import ModelText.Entity.Json
import ModelText.Format
import ModelText.Grammar.Compose
import ModelText.Grammar.Document
import ModelText.Grammar.Error
import ModelText.Grammar.Nesting
import ModelText.Grammar.Parse
import ModelText.Grammar.Phrase
import ModelText.Grammar.Token
import ModelText.Journal
import ModelText.Json.Binary64
import ModelText.Json.Depth
import ModelText.Json.Error
import ModelText.Json.Printer
import ModelText.Json.Reader
import ModelText.Json.Shortest
import ModelText.Json.Skip
import ModelText.Json.Value
import ModelText.Main
import ModelText.Path
import ModelText.Session
import ModelText.Taxonomy
import ModelText.Text.Blank
import ModelText.Text.GraphemeExtend
import ModelText.Text.Position
import ModelText.Text.Quoted
import ModelText.Text.Unprintable
import ModelText.Toml.Document
import ModelText.Toml.Scalar
import ModelText.Toml.Table
import ModelText.Toml.Text
import ModelText.Toml.Value
import ModelText.Proofs.Lexical
import ModelText.Proofs.Phrase
import ModelText.Proofs.Reading
import ModelText.Proofs.Nesting
import ModelText.Proofs.Literals
import ModelText.Proofs.Denotation
import ModelText.Proofs.Insertion
import ModelText.Proofs.Acceptance
import ModelText.Proofs.Rounding
import ModelText.Proofs.Shortest
import ModelText.Proofs.Numerals
import ModelText.Proofs.Printing
import ModelText.Proofs.Paths
import ModelText.Proofs.Separators
import ModelText.Proofs.Search
import ModelText.Proofs.Writing
import ModelText.Proofs.Arrangement
import ModelText.Proofs.Reformatting
import ModelText.Proofs.Members
import ModelText.Proofs.Conversion
import ModelText.Proofs.RoundTrip
import ModelText.Proofs.Probing
import ModelText.Proofs.Commands
import ModelText.Proofs.Content
import ModelText.Proofs.Concatenation
import ModelText.Proofs.Dealing
import ModelText.Proofs.JsonReading
import ModelText.Proofs.Bodies
import ModelText.Proofs.Selection
import ModelText.Proofs.Shape
import ModelText.Proofs.EntityJson
import ModelText.Proofs.ReadBack
import ModelText.Proofs.Brackets
import ModelText.Proofs.Descent
import ModelText.Proofs.Unchecked
import ModelText.Proofs.Agreement
import ModelText.Proofs.Correspondence
import ModelText.Proofs.Dispatch
import ModelText.Proofs.Guard
import ModelText.Proofs.Output
import ModelText.Proofs.Positions
import ModelText.Proofs.Placement
import ModelText.Proofs.Sources
import ModelText.Proofs.Transcript
import ModelText.Proofs.Conversation
import ModelText.Proofs.Collaboration
import ModelText.Proofs.Loading
