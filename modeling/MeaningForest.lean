import MeaningForest.Analysis.Basic
import MeaningForest.Analysis.Forest
import MeaningForest.Analysis.Problem
import MeaningForest.Analysis.Profile
import MeaningForest.Analysis.Record
import MeaningForest.Catalog.Selection
import MeaningForest.Catalog.Templates
import MeaningForest.Catalog.Wording
import MeaningForest.Code.Cell
import MeaningForest.Code.Constructor
import MeaningForest.Code.Dispatch
import MeaningForest.Code.File
import MeaningForest.Code.Line
import MeaningForest.Code.Member
import MeaningForest.Collections.Arena
import MeaningForest.Collections.OrderedMap
import MeaningForest.CommandLine
import MeaningForest.Compilation.Basic
import MeaningForest.Compilation.Session
import MeaningForest.Declaration.Basic
import MeaningForest.Declaration.Document
import MeaningForest.Declaration.Problem
import MeaningForest.Declaration.Reader
import MeaningForest.Diagnostic
import MeaningForest.Effect
import MeaningForest.Fault
import MeaningForest.FileTree
import MeaningForest.Host.Format
import MeaningForest.Host.Grammar.Basic
import MeaningForest.Host.Grammar.Expressions
import MeaningForest.Host.Grammar.Statements
import MeaningForest.Host.Grammar.Types
import MeaningForest.Host.Nesting
import MeaningForest.Host.Printer
import MeaningForest.Host.Reference
import MeaningForest.Host.Signature
import MeaningForest.Host.Token
import MeaningForest.Host.Tree
import MeaningForest.Log
import MeaningForest.Main
import MeaningForest.Naming
import MeaningForest.Object.Cell
import MeaningForest.Object.Info
import MeaningForest.Object.Store
import MeaningForest.Path
import MeaningForest.Project.Basic
import MeaningForest.Project.Run
import MeaningForest.Proofs.Analysis
import MeaningForest.Proofs.Faultless
import MeaningForest.Proofs.Forest
import MeaningForest.Proofs.Generation
import MeaningForest.Proofs.Lineage
import MeaningForest.Proofs.Methods
import MeaningForest.Proofs.OverrideTree
import MeaningForest.Proofs.Profile
import MeaningForest.Settings.Basic
import MeaningForest.Settings.Document
import MeaningForest.Settings.Load
import MeaningForest.Symbol.Ancestry
import MeaningForest.Symbol.Kind
import MeaningForest.Symbol.OverrideTree
import MeaningForest.Symbol.Query
import MeaningForest.Symbol.Table
import MeaningForest.Text.Base64
import MeaningForest.Text.Basic
import MeaningForest.Text.Case
import MeaningForest.Text.Graphic
import MeaningForest.Text.Letter
import MeaningForest.Text.Number
import MeaningForest.Text.Quoted
import MeaningForest.Text.Span
import MeaningForest.Text.Utf8
import MeaningForest.Token.Basic
import MeaningForest.Token.Scan
import MeaningForest.Toml.Basic
import MeaningForest.Toml.Document
import MeaningForest.Toml.Number
import MeaningForest.Toml.Quoted
import MeaningForest.Toml.Reader
import MeaningForest.Yaml.Characters
import MeaningForest.Yaml.Comment
import MeaningForest.Yaml.Cursor
import MeaningForest.Yaml.Decode
import MeaningForest.Yaml.Merge
import MeaningForest.Yaml.Node
import MeaningForest.Yaml.Scalar
import MeaningForest.Yaml.Scan
import MeaningForest.Yaml.Tag
import MeaningForest.Yaml.Token
import MeaningForest.Proofs.Dispatch
import MeaningForest.Proofs.Members
import MeaningForest.Proofs.Grammar
import MeaningForest.Proofs.Reading
import MeaningForest.Proofs.Acceptance
import MeaningForest.Proofs.Sessions
import MeaningForest.Proofs.Recording
import MeaningForest.Proofs.Symbols
import MeaningForest.Proofs.Phrases
import MeaningForest.Proofs.Declared
import MeaningForest.Proofs.Names
import MeaningForest.Proofs.Handles
import MeaningForest.Proofs.Construction
import MeaningForest.Proofs.Hygiene
import MeaningForest.Proofs.Findings
import MeaningForest.Proofs.Reordering
import MeaningForest.Proofs.OverrideNames
import MeaningForest.Proofs.Lexemes
import MeaningForest.Proofs.Content
import MeaningForest.Proofs.Words
import MeaningForest.Proofs.Captured
import MeaningForest.Proofs.Bodies
import MeaningForest.Proofs.Splices
import MeaningForest.Proofs.Fragments
import MeaningForest.Proofs.Tokens
import MeaningForest.Proofs.Entries
import MeaningForest.Proofs.Accounting
import MeaningForest.Proofs.Relocation
import MeaningForest.Proofs.Reachable
import MeaningForest.Proofs.Reuse
import MeaningForest.Proofs.Respacing
import MeaningForest.Proofs.Reports
import MeaningForest.Proofs.Recovery
import MeaningForest.Proofs.Paths
import MeaningForest.Proofs.FileTrees
import MeaningForest.Proofs.Locations
import MeaningForest.Proofs.Outputs
import MeaningForest.Proofs.Runs
import MeaningForest.Proofs.Independence
import MeaningForest.Proofs.Prediction
import MeaningForest.Proofs.Unplaced
import MeaningForest.Proofs.Placement
import MeaningForest.Proofs.Decoding
import MeaningForest.Proofs.Documents
import MeaningForest.Proofs.FrontEnds
import MeaningForest.Proofs.Rewording
import MeaningForest.Proofs.Languages
import MeaningForest.Proofs.Translation
import MeaningForest.Proofs.Parts
import MeaningForest.Proofs.Interleaving
import MeaningForest.Proofs.Cycles
import MeaningForest.Proofs.Clashes
import MeaningForest.Proofs.HostTokens
import MeaningForest.Proofs.Brackets
import MeaningForest.Proofs.Balance
import MeaningForest.Proofs.Groups
import MeaningForest.Proofs.Signatures
import MeaningForest.Proofs.Returns
import MeaningForest.Proofs.Resolution
import MeaningForest.Proofs.Ledger
import MeaningForest.Proofs.Ancestries
import MeaningForest.Proofs.Insertion
import MeaningForest.Proofs.Scopes
import MeaningForest.Proofs.Forwarding
import MeaningForest.Proofs.Excerpts
import MeaningForest.Proofs.Selection
import MeaningForest.Proofs.Silence
import MeaningForest.Proofs.Lifetimes
import MeaningForest.Proofs.Patterns
import MeaningForest.Proofs.Blocks
import MeaningForest.Proofs.Worded
import MeaningForest.Proofs.Overriding
import MeaningForest.Proofs.Expressions
import MeaningForest.Proofs.Literals
import MeaningForest.Proofs.Calls
import MeaningForest.Proofs.Objects
import MeaningForest.Proofs.Representation
import MeaningForest.Proofs.Queries
import MeaningForest.Proofs.Kinds
import MeaningForest.Proofs.Hierarchy
