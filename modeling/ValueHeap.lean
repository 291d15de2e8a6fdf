import ValueHeap.Binary.Arith
import ValueHeap.Binary.Format
import ValueHeap.Bits.Field
import ValueHeap.Bits.Octets
import ValueHeap.Buffer.Basic
import ValueHeap.CommandLine
import ValueHeap.Decimal.Reader
import ValueHeap.Decimal.Shortest
import ValueHeap.Equality.Run
import ValueHeap.Equality.Step
import ValueHeap.Error
import ValueHeap.Hash.Mixer
import ValueHeap.Hash.Walk
import ValueHeap.Heap.Action
import ValueHeap.Heap.Basic
import ValueHeap.Heap.Buffer
import ValueHeap.Heap.Character
import ValueHeap.Heap.Composite
import ValueHeap.Heap.Integer
import ValueHeap.Heap.Kind
import ValueHeap.Heap.Layout
import ValueHeap.Heap.Text
import ValueHeap.Integer.Fixed
import ValueHeap.Integer.Numeral
import ValueHeap.Main
import ValueHeap.Number.Basic
import ValueHeap.Number.Boxed
import ValueHeap.Number.Operation
import ValueHeap.Number.Text
import ValueHeap.Options
import ValueHeap.Print.Document
import ValueHeap.Print.Layout
import ValueHeap.Print.Value
import ValueHeap.Proofs.Actions
import ValueHeap.Proofs.Atomicity
import ValueHeap.Proofs.Bisimilarity
import ValueHeap.Proofs.BitFieldLaws
import ValueHeap.Proofs.BitFields
import ValueHeap.Proofs.Boxing
import ValueHeap.Proofs.BufferAccess
import ValueHeap.Proofs.Buffers
import ValueHeap.Proofs.ByteSequences
import ValueHeap.Proofs.Census
import ValueHeap.Proofs.CharacterSteps
import ValueHeap.Proofs.Characters
import ValueHeap.Proofs.ComparisonLoop
import ValueHeap.Proofs.DecimalReading
import ValueHeap.Proofs.Division
import ValueHeap.Proofs.Encoding
import ValueHeap.Proofs.ExactValue
import ValueHeap.Proofs.Extrema
import ValueHeap.Proofs.FieldGraph
import ValueHeap.Proofs.FieldUpdate
import ValueHeap.Proofs.Fractions
import ValueHeap.Proofs.HashInput
import ValueHeap.Proofs.Layout
import ValueHeap.Proofs.Marking
import ValueHeap.Proofs.MixerInjectivity
import ValueHeap.Proofs.Murmur3
import ValueHeap.Proofs.NewBlocks
import ValueHeap.Proofs.NumberEquality
import ValueHeap.Proofs.NumberKeys
import ValueHeap.Proofs.NumberOrder
import ValueHeap.Proofs.NumberTransitivity
import ValueHeap.Proofs.Numerals
import ValueHeap.Proofs.Outline
import ValueHeap.Proofs.Ownership
import ValueHeap.Proofs.PrintedCycles
import ValueHeap.Proofs.Printing
import ValueHeap.Proofs.Reclamation
import ValueHeap.Proofs.Renderings
import ValueHeap.Proofs.Rounding
import ValueHeap.Proofs.ScaledSizes
import ValueHeap.Proofs.Sessions
import ValueHeap.Proofs.Sharing
import ValueHeap.Proofs.Shifts
import ValueHeap.Proofs.Spelling
import ValueHeap.Proofs.Steps
import ValueHeap.Proofs.Structure
import ValueHeap.Proofs.Unrolling
import ValueHeap.Proofs.Updates
import ValueHeap.Proofs.WordEncoding
import ValueHeap.Session.Command
import ValueHeap.Session.Expr
import ValueHeap.Session.Run
import ValueHeap.Text.Blank
import ValueHeap.Text.Hex
import ValueHeap.Text.Quoted
import ValueHeap.Text.Runs
import ValueHeap.Text.Utf8
import ValueHeap.Text.Visible
import ValueHeap.Text.Width
import ValueHeap.Word
