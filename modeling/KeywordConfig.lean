import KeywordConfig.Keyed
import KeywordConfig.Decimal
import KeywordConfig.Characters
import KeywordConfig.Quoted
import KeywordConfig.Value
import KeywordConfig.Json
import KeywordConfig.Json.Number
import KeywordConfig.Json.Reader
import KeywordConfig.Json.Writer
import KeywordConfig.Constraint
import KeywordConfig.Registry
import KeywordConfig.Registry.Decode
import KeywordConfig.Registry.Load
import KeywordConfig.Token
import KeywordConfig.Error
import KeywordConfig.Token.Stream
import KeywordConfig.Call
import KeywordConfig.Script
import KeywordConfig.Document
import KeywordConfig.Evaluation
import KeywordConfig.CommandLine
import KeywordConfig.CommandLine.Directory
import KeywordConfig.Main
import KeywordConfig.Proofs.Slots
import KeywordConfig.Proofs.Evaluation
import KeywordConfig.Proofs.Relocation
import KeywordConfig.Proofs.Confinement
import KeywordConfig.Proofs.ReadingErrors
import KeywordConfig.Proofs.ActiveScopes
import KeywordConfig.Proofs.Grouping
import KeywordConfig.Proofs.Visits
import KeywordConfig.Proofs.FlatRegistry
import KeywordConfig.Proofs.Runs
import KeywordConfig.Proofs.Admission
import KeywordConfig.Proofs.Grammar
import KeywordConfig.Proofs.Gathering
import KeywordConfig.Proofs.Reading
import KeywordConfig.Proofs.Delimiters
import KeywordConfig.Proofs.Soundness
import KeywordConfig.Proofs.Completeness
import KeywordConfig.Proofs.Lexemes
import KeywordConfig.Proofs.Pieces
import KeywordConfig.Proofs.Parsing
import KeywordConfig.Proofs.Relining
import KeywordConfig.Proofs.Lines
import KeywordConfig.Proofs.LineEnds
import KeywordConfig.Proofs.Printing
import KeywordConfig.Proofs.Spelling
import KeywordConfig.Proofs.RoundTrip
import KeywordConfig.Proofs.CumulativeEntries
import KeywordConfig.Proofs.Acceptance
import KeywordConfig.Proofs.StoredMappings
import KeywordConfig.Proofs.Concatenation
import KeywordConfig.Proofs.ErrorLines
import KeywordConfig.Proofs.Independence
import KeywordConfig.Proofs.JsonNumbers
import KeywordConfig.Proofs.Binary64
import KeywordConfig.Proofs.JsonTexts
import KeywordConfig.Proofs.ReadingBack
import KeywordConfig.Proofs.FloatOperations
import KeywordConfig.Proofs.JsonFloats
import KeywordConfig.Proofs.Provenance
import KeywordConfig.Proofs.Literals
import KeywordConfig.Proofs.Nulls
import KeywordConfig.Proofs.Arguments
import KeywordConfig.Proofs.Nesting
import KeywordConfig.Proofs.Directory
import KeywordConfig.Proofs.Requests
import KeywordConfig.Proofs.CommandLine
import KeywordConfig.Proofs.Equality
import KeywordConfig.Proofs.Verdicts
import KeywordConfig.Proofs.KeyOrder
import KeywordConfig.Proofs.Vivification
import KeywordConfig.Proofs.Partition
import KeywordConfig.Proofs.Spacing
import KeywordConfig.Proofs.Receivers
import KeywordConfig.Proofs.Wrapping
import KeywordConfig.Proofs.JsonTrees
import KeywordConfig.Proofs.JsonRange
import KeywordConfig.Proofs.JsonGrammar
import KeywordConfig.Proofs.MemberOrder
import KeywordConfig.Proofs.Decoding
import KeywordConfig.Proofs.TreeLimits
import KeywordConfig.Proofs.ByteOrder
import KeywordConfig.Proofs.RegistryLoading
import KeywordConfig.Proofs.LookAhead
