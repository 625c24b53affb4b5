import Cartosheet.Attribute.Compatible
import Cartosheet.Main
import Cartosheet.Proofs.Cursor
import Cartosheet.Proofs.Outcome
import Cartosheet.Proofs.Advance
import Cartosheet.Proofs.Motion
import Cartosheet.Proofs.SelectorRun
import Cartosheet.Proofs.Agreement
import Cartosheet.Proofs.SheetGrammar
import Cartosheet.Proofs.Acceptance
import Cartosheet.Proofs.Precedence
import Cartosheet.Proofs.Winner
import Cartosheet.Proofs.NumberLine
import Cartosheet.Proofs.ZoomMeaning
import Cartosheet.Proofs.ValueForm
import Cartosheet.Proofs.WellFormed
import Cartosheet.Proofs.SharedFault
import Cartosheet.Proofs.ScanOrder
import Cartosheet.Proofs.Ties
import Cartosheet.Proofs.Transparency
import Cartosheet.Proofs.Calls
import Cartosheet.Proofs.FaultPosition
import Cartosheet.Proofs.Concatenation
import Cartosheet.Proofs.WrittenZoom
import Cartosheet.Proofs.Projection
import Cartosheet.Proofs.Flattening
import Cartosheet.Proofs.ForeignTokens
import Cartosheet.Proofs.LexemeText
import Cartosheet.Proofs.NestedBlocks
import Cartosheet.Proofs.LineBreaks
import Cartosheet.Proofs.Outline
import Cartosheet.Proofs.ClosingMarks
import Cartosheet.Proofs.LexemeOutline
import Cartosheet.Proofs.Lossless
import Cartosheet.Proofs.SelectorItems
import Cartosheet.Proofs.PrintedText
import Cartosheet.Proofs.WholeNumbers
import Cartosheet.Proofs.ReadBack
import Cartosheet.Proofs.TagOrder
import Cartosheet.Proofs.Compatibility
import Cartosheet.Proofs.ZoomRewrite
import Cartosheet.Proofs.SelectorGrammar
import Cartosheet.Proofs.SpecificityCount
import Cartosheet.Proofs.NameMatching
import Cartosheet.Proofs.WiderSituation
import Cartosheet.Proofs.SourceOffsets
import Cartosheet.Proofs.AddressWrapper
import Cartosheet.Proofs.AddressSpelling
import Cartosheet.Proofs.NumberLists
import Cartosheet.Proofs.Rounding
import Cartosheet.Proofs.NumeralReading
import Cartosheet.Proofs.NumberTokens
import Cartosheet.Proofs.ColorLiteral
import Cartosheet.Proofs.JsonText
import Cartosheet.Proofs.JsonDecoding
import Cartosheet.Proofs.ReportDocument
