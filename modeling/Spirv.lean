import Spirv.Disassembly
import Spirv.Events
import Spirv.Grammar.Core
import Spirv.Grammar.Json
import Spirv.Proofs.Language
import Spirv.Proofs.Decoding
import Spirv.Proofs.Encoding
import Spirv.Proofs.RoundTrip
import Spirv.Proofs.Streams
import Spirv.Proofs.Outcomes
import Spirv.Proofs.StoredModules
import Spirv.Proofs.ModuleReading
import Spirv.Proofs.ModuleWriting
import Spirv.Proofs.ByteOrder
import Spirv.Proofs.SetBits
import Spirv.Proofs.Guarded
import Spirv.Proofs.GuardedOperands
import Spirv.Proofs.NoTraps
import Spirv.Proofs.Listings
import Spirv.Proofs.Consistency
import Spirv.Proofs.WellFormedGrammars
import Spirv.Proofs.FewestWords
import Spirv.Proofs.Continuations
import Spirv.Proofs.Shadowing
import Spirv.Proofs.OperandTexts
import Spirv.Proofs.InstructionTexts
import Spirv.Proofs.Leftovers
import Spirv.Proofs.CurableErrors
import Spirv.Proofs.MaskMismatches
import Spirv.Proofs.WordCounts
import Spirv.Proofs.EarlierOperands
import Spirv.Proofs.MaskHistories
import Spirv.Proofs.BitScans
import Spirv.Proofs.AliasNames
import Spirv.Proofs.OwnListings
import Spirv.Proofs.Spellings
import Spirv.Proofs.LooseOperands
import Spirv.Proofs.FirstOffence
import Spirv.Proofs.Progress
