import ArrayBounds.ClassFile.Assembler
import ArrayBounds.Main
import ArrayBounds.Proofs.Analysis.Supply
import ArrayBounds.Proofs.Analysis.Order
import ArrayBounds.Proofs.Analysis.Returns
import ArrayBounds.Proofs.Soundness.Path
import ArrayBounds.Proofs.Structured.Recovery
import ArrayBounds.Proofs.ClassFile.PrefixFree
import ArrayBounds.Proofs.Program.Decoding
import ArrayBounds.Proofs.Program.Lowering
import ArrayBounds.Proofs.Text.ModifiedUtf8
import ArrayBounds.Proofs.ClassFile.Writing
import ArrayBounds.Proofs.ClassFile.Assembling
import ArrayBounds.Proofs.ClassFile.RoundTrip
import ArrayBounds.Proofs.Analysis.Provenance
import ArrayBounds.Proofs.Loader.Loads
import ArrayBounds.Proofs.Soundness.Words
import ArrayBounds.Proofs.Analysis.Resolution
import ArrayBounds.Proofs.Json.RoundTrip
import ArrayBounds.Proofs.Json.Records
import ArrayBounds.Proofs.Program.Descriptions
import ArrayBounds.Proofs.Loader.RoundTrip
import ArrayBounds.Proofs.Structured.CountedLoops
import ArrayBounds.Proofs.ClassFile.Pool
import ArrayBounds.Proofs.Text.Descriptors
import ArrayBounds.Proofs.Analysis.Invocation
import ArrayBounds.Proofs.Domain.StackWords
import ArrayBounds.Proofs.Program.SourceLines
import ArrayBounds.Proofs.Text.Groups
import ArrayBounds.Proofs.Domain.Monotone
import ArrayBounds.Proofs.Analysis.Entry
