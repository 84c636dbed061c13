import Beagle.CommandLine
import Beagle.Compile
import Beagle.Disk
import Beagle.Grammar.Repeat
import Beagle.Grammar.Rule
import Beagle.Grammar.Unit
import Beagle.Inheritance
import Beagle.Lexeme
import Beagle.Main
import Beagle.Output
import Beagle.Proofs.Acceptance.Member
import Beagle.Proofs.Acceptance.Name
import Beagle.Proofs.Acceptance.Rule
import Beagle.Proofs.Acceptance.Unit
import Beagle.Proofs.AncestorOrder
import Beagle.Proofs.Blocks
import Beagle.Proofs.CodeWords
import Beagle.Proofs.Conservation
import Beagle.Proofs.Construction
import Beagle.Proofs.Cursor
import Beagle.Proofs.Derivation
import Beagle.Proofs.DottedNames
import Beagle.Proofs.FailFast.Grammar
import Beagle.Proofs.FailFast.Parse
import Beagle.Proofs.FailFast.Rule
import Beagle.Proofs.Formatting
import Beagle.Proofs.GeneratedCode
import Beagle.Proofs.Identifiers
import Beagle.Proofs.Inheritance.Cycles
import Beagle.Proofs.Inheritance.Precedence
import Beagle.Proofs.Inheritance.Reordering
import Beagle.Proofs.Inheritance.Resolution
import Beagle.Proofs.InitialValues
import Beagle.Proofs.IntegerRange
import Beagle.Proofs.Interchange
import Beagle.Proofs.Invariance.Grammar
import Beagle.Proofs.Invariance.Rule
import Beagle.Proofs.Isolation
import Beagle.Proofs.LazyScanning
import Beagle.Proofs.LexicalErrors
import Beagle.Proofs.Likeness.Generation
import Beagle.Proofs.Likeness.Grammar
import Beagle.Proofs.Likeness.Mask
import Beagle.Proofs.Likeness.Rule
import Beagle.Proofs.LiteralTokens
import Beagle.Proofs.Lookup
import Beagle.Proofs.Mangling
import Beagle.Proofs.ModifierRuns
import Beagle.Proofs.ModuleConstant
import Beagle.Proofs.Outline
import Beagle.Proofs.Ownership
import Beagle.Proofs.Pieces
import Beagle.Proofs.PlainSketch
import Beagle.Proofs.PrintedLiterals
import Beagle.Proofs.Progress
import Beagle.Proofs.Reaching.Grammar
import Beagle.Proofs.Reaching.Rule
import Beagle.Proofs.ReadNames
import Beagle.Proofs.Reading.Answer
import Beagle.Proofs.Reading.Member
import Beagle.Proofs.Reading.Name
import Beagle.Proofs.Reading.Unit
import Beagle.Proofs.ReadingPlace
import Beagle.Proofs.Rendering
import Beagle.Proofs.RepeatedIds
import Beagle.Proofs.RuleLogic
import Beagle.Proofs.Segmentation
import Beagle.Proofs.SketchLines
import Beagle.Proofs.SketchShape
import Beagle.Proofs.Spelling
import Beagle.Proofs.Traversal
import Beagle.Proofs.TreeShape
import Beagle.Proofs.Warnings
import Beagle.Session
import Beagle.SourceText
import Beagle.Text.Basic
import Beagle.Text.Tables
import Beagle.Token.Basic
import Beagle.Token.Source
import Beagle.Token.Window
import Beagle.Tree.Basic
import Beagle.Tree.Node
