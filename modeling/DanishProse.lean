import DanishProse.Bytecode.Generation
import DanishProse.Bytecode.Instruction
import DanishProse.Bytecode.OpCode
import DanishProse.Bytecode.Program
import DanishProse.CommandLine
import DanishProse.Compilation
import DanishProse.Corpus.Case
import DanishProse.Corpus.Outcome
import DanishProse.Corpus.Suite
import DanishProse.Decimal.Binary64
import DanishProse.Decimal.Shortest
import DanishProse.Machine.CallStack
import DanishProse.Machine.Cell
import DanishProse.Machine.Fault
import DanishProse.Machine.Run
import DanishProse.Machine.Stack
import DanishProse.Machine.Step
import DanishProse.Main
import DanishProse.Numeral
import DanishProse.Prose.Clause
import DanishProse.Prose.Document
import DanishProse.Prose.Grammar
import DanishProse.Prose.Literal
import DanishProse.Prose.Pronoun
import DanishProse.Prose.Reading
import DanishProse.Proofs.Checking
import DanishProse.Proofs.Encoding
import DanishProse.Proofs.Disassembly
import DanishProse.Proofs.Layout
import DanishProse.Proofs.Operands
import DanishProse.Proofs.Reading
import DanishProse.Proofs.Typing
import DanishProse.Report.Excerpt
import DanishProse.Report.Location
import DanishProse.Report.Problem
import DanishProse.Text.Blank
import DanishProse.Text.Field
import DanishProse.Text.Lowercase
import DanishProse.Token.Basic
import DanishProse.Token.Piece
import DanishProse.Typed.Builtin
import DanishProse.Typed.Checking
import DanishProse.Typed.Lookup
import DanishProse.Typed.Tree
import DanishProse.Proofs.WellFormed
import DanishProse.Proofs.Soundness
import DanishProse.Proofs.Derivation
import DanishProse.Proofs.Recognition
import DanishProse.Proofs.Lexing
import DanishProse.Proofs.Tiling
import DanishProse.Proofs.Rounding
import DanishProse.Proofs.Decimals
import DanishProse.Proofs.Pronouns
import DanishProse.Proofs.Writing
import DanishProse.Proofs.Relocation
import DanishProse.Proofs.Rereading
import DanishProse.Proofs.Acceptance
import DanishProse.Proofs.Evaluation
import DanishProse.Proofs.Steps
import DanishProse.Proofs.Activation
import DanishProse.Proofs.Simulation
import DanishProse.Proofs.Running
import DanishProse.Proofs.Correctness
import DanishProse.Proofs.Safety
import DanishProse.Proofs.CallDiscipline
import DanishProse.Proofs.Inversion
import DanishProse.Proofs.Marks
import DanishProse.Proofs.Points
import DanishProse.Proofs.Preservation
import DanishProse.Proofs.Isolation
import DanishProse.Proofs.Robustness
import DanishProse.Proofs.Likeness
import DanishProse.Proofs.Correspondence
import DanishProse.Proofs.Recoding
import DanishProse.Proofs.Spelling
import DanishProse.Proofs.LockStep
import DanishProse.Proofs.Embedding
import DanishProse.Proofs.FrameLayouts
import DanishProse.Proofs.Placement
import DanishProse.Proofs.Appending
import DanishProse.Proofs.Reordering
import DanishProse.Proofs.Accounting
import DanishProse.Proofs.StepLimits
import DanishProse.Proofs.Respacing
import DanishProse.Proofs.Antecedents
import DanishProse.Proofs.Leftovers
import DanishProse.Proofs.Numerals
import DanishProse.Proofs.Segmentation
import DanishProse.Proofs.Reckoning
import DanishProse.Proofs.Hyphenation
import DanishProse.Proofs.SolidNumerals
import DanishProse.Proofs.Carets
import DanishProse.Proofs.Renaming
import DanishProse.Proofs.Provenance
import DanishProse.Proofs.Messages
import DanishProse.Proofs.Slices
import DanishProse.Proofs.Cascades
import DanishProse.Proofs.Unrolled
import DanishProse.Proofs.Walks
import DanishProse.Proofs.Progress
import DanishProse.Proofs.Divisions
import DanishProse.Proofs.CorpusWriting
import DanishProse.Proofs.DigitRuns
import DanishProse.Proofs.Patching
import DanishProse.Proofs.Displacement
