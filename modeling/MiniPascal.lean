import MiniPascal.Main
import MiniPascal.Proofs.Sequencing
import MiniPascal.Proofs.Preparation
import MiniPascal.Proofs.Grammar.Derivation
import MiniPascal.Proofs.Grammar.Reading
import MiniPascal.Proofs.Grammar.Soundness
import MiniPascal.Proofs.Grammar.Completeness
import MiniPascal.Proofs.Grammar.Acceptance
import MiniPascal.Proofs.Grammar.DerivedTree
import MiniPascal.Proofs.Grammar.Lookahead
import MiniPascal.Proofs.Token.Identifier
import MiniPascal.Proofs.Scope.Tree
import MiniPascal.Proofs.Analysis.Events
import MiniPascal.Proofs.Analysis.Walk
import MiniPascal.Proofs.Analysis.Resolution
import MiniPascal.Proofs.Machine.Points
import MiniPascal.Proofs.Reference.Environment
import MiniPascal.Proofs.Reference.Agreement
import MiniPascal.Proofs.Machine.Links
import MiniPascal.Proofs.Machine.Discipline
import MiniPascal.Proofs.Machine.Totality
import MiniPascal.Proofs.Machine.Lockstep
import MiniPascal.Proofs.Machine.Log
import MiniPascal.Proofs.Machine.Rows
import MiniPascal.Proofs.Machine.Restoration
import MiniPascal.Proofs.Types.Typing
import MiniPascal.Proofs.Types.Soundness
import MiniPascal.Proofs.Analysis.Violations
import MiniPascal.Proofs.Text.Position
import MiniPascal.Proofs.Token.Piece
import MiniPascal.Proofs.Token.Segmentation
import MiniPascal.Proofs.Token.Exactness
import MiniPascal.Proofs.Grammar.ViablePrefix
import MiniPascal.Proofs.Grammar.FirstMisfit
import MiniPascal.Proofs.Grammar.Height
import MiniPascal.Proofs.Listing.Unmarking
import MiniPascal.Proofs.Scope.Renaming
import MiniPascal.Proofs.Grammar.Spelling
import MiniPascal.Proofs.Token.PlainName
import MiniPascal.Proofs.Grammar.Literals
import MiniPascal.Proofs.Listing.Layout
import MiniPascal.Proofs.Listing.Blocks
import MiniPascal.Proofs.Decimal.Rounding
import MiniPascal.Proofs.Decimal.Doubles
import MiniPascal.Proofs.Decimal.ReadBack
import MiniPascal.Proofs.Listing.RoundTrip
import MiniPascal.Proofs.Machine.CallEffect
import MiniPascal.Proofs.Decimal.Finite
import MiniPascal.Proofs.Machine.FiniteValues
import MiniPascal.Proofs.Listing.Levels
import MiniPascal.Proofs.Renaming.Capture
import MiniPascal.Proofs.Analysis.Nesting
import MiniPascal.Proofs.Renaming.Tables
import MiniPascal.Proofs.Renaming.Evaluation
import MiniPascal.Proofs.Renaming.Behaviour
import MiniPascal.Proofs.Grammar.Congruence
import MiniPascal.Proofs.Journal.Heedless
import MiniPascal.Proofs.Journal.Observation
import MiniPascal.Proofs.Machine.Congruence
import MiniPascal.Proofs.Machine.BoundedOutput
import MiniPascal.Proofs.Machine.Arrivals
import MiniPascal.Proofs.Machine.DepthLimit
import MiniPascal.Proofs.Grammar.OpenLevels
import MiniPascal.Proofs.Grammar.NestingLimit
import MiniPascal.Proofs.Token.LinesBelow
import MiniPascal.Proofs.Grammar.Nodes
import MiniPascal.Proofs.Text.Lines
import MiniPascal.Proofs.Diagnostic.Excerpt
import MiniPascal.Proofs.Token.Landmarks
import MiniPascal.Proofs.Machine.FaultPositions
import MiniPascal.Proofs.Diagnostic.Places
import MiniPascal.Proofs.Machine.ExactIntegers
import MiniPascal.Proofs.Analysis.ScopeOrder
import MiniPascal.Proofs.Scope.History
import MiniPascal.Proofs.Outline.Reading
import MiniPascal.Proofs.Outline.Uniqueness
import MiniPascal.Proofs.Token.LetterCase
import MiniPascal.Proofs.Text.Capitals
import MiniPascal.Proofs.CommandLine.Programs
import MiniPascal.Proofs.Grammar.Watching
import MiniPascal.Proofs.Token.CanonicalWord
import MiniPascal.Proofs.Grammar.Agreement
import MiniPascal.Proofs.Grammar.Operations
