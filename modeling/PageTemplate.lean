import PageTemplate.Main
import PageTemplate.Program.Outline
import PageTemplate.Proofs.MacroCall
import PageTemplate.Proofs.SlotPrecedence
import PageTemplate.Proofs.Verbatim
import PageTemplate.Proofs.GlobalDefinitions
import PageTemplate.Proofs.FirstCase
import PageTemplate.Proofs.Transparency
import PageTemplate.Proofs.Interpolation
import PageTemplate.Proofs.Markup.Namespaces
import PageTemplate.Proofs.MacroScope
import PageTemplate.Proofs.ExpressionLocations
import PageTemplate.Proofs.DefaultMarker
import PageTemplate.Proofs.DirectiveOrder
import PageTemplate.Proofs.Markup.EscapedText
import PageTemplate.Proofs.Markup.Partition
import PageTemplate.Proofs.Expression.Pipes
import PageTemplate.Proofs.Expression.Memory
import PageTemplate.Proofs.Definitions
import PageTemplate.Proofs.MappedAttributes
import PageTemplate.Proofs.SlotFills
import PageTemplate.Proofs.Repetition
import PageTemplate.Proofs.CachedValues
import PageTemplate.Proofs.IntegerMatching
import PageTemplate.Proofs.MacroEntries
import PageTemplate.Proofs.MessageFiles
import PageTemplate.Proofs.Numerals
import PageTemplate.Proofs.Excerpts
import PageTemplate.Proofs.Markup.Splitting
