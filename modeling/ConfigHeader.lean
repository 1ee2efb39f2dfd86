import ConfigHeader.Main
import ConfigHeader.Proofs.KeyMapLookup
import ConfigHeader.Proofs.Template.DirectiveGrammar
import ConfigHeader.Proofs.Lines
import ConfigHeader.Proofs.TextBytes
import ConfigHeader.Proofs.Template.Settling
import ConfigHeader.Proofs.Template.MarkerFilling
import ConfigHeader.Proofs.Template.LayoutLines
import ConfigHeader.Proofs.Template.Concatenation
import ConfigHeader.Proofs.Template.SettledLines
import ConfigHeader.Proofs.Template.Definitions
import ConfigHeader.Proofs.Template.Idempotence
import ConfigHeader.Proofs.Template.LiveDirectives
import ConfigHeader.Proofs.Numeric.Rounding
import ConfigHeader.Proofs.Numeric.Shortest
import ConfigHeader.Proofs.Numeric.Digits
import ConfigHeader.Proofs.Json.Numerals
import ConfigHeader.Proofs.Json.Nesting
import ConfigHeader.Proofs.Json.Texts
import ConfigHeader.Proofs.Json.RoundTrip
import ConfigHeader.Proofs.Json.Indentation
import ConfigHeader.Proofs.Check.RoundTrip
import ConfigHeader.Proofs.Catalog.FirstEntries
import ConfigHeader.Proofs.Catalog.Insertion
import ConfigHeader.Proofs.TextOrder
import ConfigHeader.Proofs.Catalog.Merging
import ConfigHeader.Proofs.Template.FindingsView
import ConfigHeader.Proofs.Template.Separation
import ConfigHeader.Proofs.Template.Occurrences
import ConfigHeader.Proofs.Catalog.FindingsOrder
import ConfigHeader.Proofs.HeaderOrder
import ConfigHeader.Proofs.Utf8Reading
import ConfigHeader.Proofs.Utf8Boundaries
import ConfigHeader.Proofs.Template.ValidOutput
import ConfigHeader.Proofs.Template.FinalNewline
import ConfigHeader.Proofs.Commitment
import ConfigHeader.Proofs.Template.LineNumbers
import ConfigHeader.Proofs.KeywordDefinition
import ConfigHeader.Proofs.Template.Cuttings
import ConfigHeader.Proofs.Template.Residue
import ConfigHeader.Proofs.Template.SuccessivePasses
import ConfigHeader.Proofs.GuardedSources
import ConfigHeader.Proofs.Template.Division
import ConfigHeader.Proofs.Template.MarkerDivision
import ConfigHeader.Proofs.Template.MarkerResidue
import ConfigHeader.Proofs.Template.InlinedFiles
import ConfigHeader.Proofs.Template.NamedLines
import ConfigHeader.Proofs.Template.TidiedLines
import ConfigHeader.Proofs.Json.DeeperReading
import ConfigHeader.Proofs.Check.RecordedValues
import ConfigHeader.Proofs.Json.ObjectTexts
import ConfigHeader.Proofs.Check.DocumentResults
import ConfigHeader.Proofs.Catalog.DocumentCatalog
import ConfigHeader.Proofs.Check.NumeralTexts
import ConfigHeader.Proofs.GuardedSourceTexts
import ConfigHeader.Proofs.ManifestLayers
import ConfigHeader.Proofs.CommandLine.ArgumentLines
import ConfigHeader.Proofs.Template.DirectivePositions
import ConfigHeader.Proofs.Template.LeftmostOccurrences
