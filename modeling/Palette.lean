import Palette.Main
import Palette.Proofs.Accessor.Validation
import Palette.Proofs.Arrangement.Outputs
import Palette.Proofs.Catalog.Interruption
import Palette.Proofs.Command.Effects
import Palette.Proofs.Grammar.Concatenation
import Palette.Proofs.Grammar.LineEndings
import Palette.Proofs.FileSystem.Content
import Palette.Proofs.Accessor.Exactness
import Palette.Proofs.Accessor.Idempotence
import Palette.Proofs.Number.Fixed
import Palette.Proofs.Accessor.Injectivity
import Palette.Proofs.Json.Grammar
import Palette.Proofs.Json.Reader
import Palette.Proofs.Json.Numerals
import Palette.Proofs.Json.Printing
import Palette.Proofs.Catalog.Descriptors
import Palette.Proofs.Grammar.Ranges
import Palette.Proofs.Resolution.Fading
import Palette.Proofs.Catalog.Alpha
import Palette.Proofs.Accessor.Clashes
import Palette.Proofs.Grammar.Faults
import Palette.Proofs.Grammar.Excerpt
import Palette.Proofs.Grammar.Expectations
import Palette.Proofs.Accessor.Counting
import Palette.Proofs.Accessor.Modifiers
import Palette.Proofs.Resolution.Walking
import Palette.Proofs.Catalog.Counting
import Palette.Proofs.Json.Decoding
