import SwiftOutline.Explorer
import SwiftOutline.File
import SwiftOutline.Proofs.Progress.Termination
import SwiftOutline.Tree.Dump
import SwiftOutline.TypeShape.Printer
import SwiftOutline.Proofs.Progress.Lookahead
import SwiftOutline.Proofs.Token.Utf8
import SwiftOutline.Proofs.Token.Scanner
import SwiftOutline.Proofs.Token.Lexer
import SwiftOutline.Proofs.Token.Tiling
import SwiftOutline.Proofs.Tree.Leaves
import SwiftOutline.Proofs.Tree.Lossless
import SwiftOutline.Proofs.Tree.WithoutTrivia
import SwiftOutline.Proofs.Outline.ModesAgree
import SwiftOutline.Proofs.Outline.Held
import SwiftOutline.Proofs.Optional.Scan
import SwiftOutline.Proofs.TypeExpr.Complete
import SwiftOutline.Proofs.Token.Spelling
import SwiftOutline.Proofs.Tree.Snug
import SwiftOutline.Proofs.TypeExpr.Annotation
import SwiftOutline.Proofs.TypeShape.RoundTrip
import SwiftOutline.Proofs.Tree.Diagnostics
import SwiftOutline.Proofs.Token.Locality
import SwiftOutline.Proofs.Token.OneLine
import SwiftOutline.Proofs.Outline.StrayClosers
import SwiftOutline.Proofs.Tree.Parts
import SwiftOutline.Proofs.TypeShape.Readings
import SwiftOutline.Proofs.TypeShape.SurfaceForm
import SwiftOutline.Proofs.Tree.Places
import SwiftOutline.Proofs.Tree.Trimmed
import SwiftOutline.Proofs.Filled.Declaration
import SwiftOutline.Proofs.Filled.Item
import SwiftOutline.Proofs.Outline.Lifecycle
import SwiftOutline.Proofs.Outline.SourceOrder
import SwiftOutline.Proofs.Tree.Navigation
import SwiftOutline.Proofs.TypeShape.Wrapped
import SwiftOutline.Proofs.Parser.Introduced
import SwiftOutline.Proofs.Parser.Runs
import SwiftOutline.Proofs.Outline.Members
import SwiftOutline.Proofs.TypeShape.Parenthesized
import SwiftOutline.Proofs.Outline.Variables
import SwiftOutline.Proofs.Outline.Arguments
import SwiftOutline.Proofs.Outline.Sections
import SwiftOutline.Proofs.Outline.Keywords
import SwiftOutline.Proofs.Outline.OperatorNames
import SwiftOutline.Proofs.CasePattern.Recognizers
import SwiftOutline.Proofs.Tree.Modified
import SwiftOutline.Proofs.CasePattern.Parsed
import SwiftOutline.Proofs.CasePattern.Recovered
import SwiftOutline.Proofs.Parameters.Parsed
import SwiftOutline.Proofs.Parameters.Recovered
import SwiftOutline.Proofs.Generics.Operators
import SwiftOutline.Proofs.TypeShape.InForm
import SwiftOutline.Proofs.Token.LiteralGrammar
import SwiftOutline.Proofs.Token.Nesting
import SwiftOutline.Grammar.Event
import SwiftOutline.Tree.Sink
import SwiftOutline.Proofs.Parser.Nests
import SwiftOutline.Proofs.Parser.Placed
import SwiftOutline.Proofs.Outline.Effects
import SwiftOutline.Proofs.Outline.RoundTrip
import SwiftOutline.Proofs.Events.Records
import SwiftOutline.Proofs.Events.Written
import SwiftOutline.Proofs.Events.Stream
import SwiftOutline.Proofs.Events.Calls
import SwiftOutline.Proofs.Events.Read
import SwiftOutline.Proofs.Events.Balance
import SwiftOutline.Grammar.Source
import SwiftOutline.Proofs.Events.Source
