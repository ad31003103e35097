import Emu8085.Arithmetic
import Emu8085.CommandLine.Arguments
import Emu8085.CommandLine.Program
import Emu8085.Condition
import Emu8085.Flags
import Emu8085.History
import Emu8085.Instruction
import Emu8085.Listing
import Emu8085.Machine
import Emu8085.Machine.Control
import Emu8085.Machine.Execute
import Emu8085.Machine.Run
import Emu8085.Main
import Emu8085.Memory
import Emu8085.Memory.Range
import Emu8085.Operand
import Emu8085.Options
import Emu8085.Proofs.AccumulatorOperations
import Emu8085.Proofs.Advance
import Emu8085.Proofs.DecimalAddition
import Emu8085.Proofs.DigitChains
import Emu8085.Proofs.Encoding
import Emu8085.Proofs.FlagLaw
import Emu8085.Proofs.Frame
import Emu8085.Proofs.MatchedReturn
import Emu8085.Proofs.Trace
import Emu8085.Record
import Emu8085.Registers
import Emu8085.Script.Command
import Emu8085.Script.Display
import Emu8085.Script.Grammar
import Emu8085.Script.Line
import Emu8085.Script.Parser
import Emu8085.Script.Predicate
import Emu8085.Script.Session
import Emu8085.Text.Blank
import Emu8085.Text.Hex
import Emu8085.Text.Number
import Emu8085.Text.Pad
import Emu8085.Text.Utf8
import Emu8085.Word
import Emu8085.Yaml.Cursor
import Emu8085.Yaml.Document
import Emu8085.Yaml.Layout
import Emu8085.Yaml.Node
import Emu8085.Yaml.Scalar
import Emu8085.Yaml.Tag
import Emu8085.Yaml.Token
import Emu8085.Proofs.RunLength
import Emu8085.Proofs.Opcodes
import Emu8085.Proofs.SplitRun
import Emu8085.Proofs.WriteSet
import Emu8085.Proofs.ReadLocality
import Emu8085.Proofs.StackOrder
import Emu8085.Proofs.Refusal
import Emu8085.Proofs.LineByLine
import Emu8085.Proofs.StopMode
import Emu8085.Proofs.PlanIndependence
import Emu8085.Proofs.StraightLine
import Emu8085.Proofs.Tiling
import Emu8085.Proofs.TableSum
import Emu8085.Proofs.Reading
import Emu8085.Proofs.LineRoundTrip
import Emu8085.Proofs.LineContent
import Emu8085.Proofs.BulkWrites
import Emu8085.Proofs.HaltLatch
import Emu8085.Proofs.Layout
import Emu8085.Proofs.StatusByte
import Emu8085.Proofs.ShownConditions
import Emu8085.Proofs.StopConditions
import Emu8085.Proofs.ByteOrder
import Emu8085.Proofs.PairSums
import Emu8085.Proofs.Rotations
import Emu8085.Proofs.Moves
import Emu8085.Proofs.RegisterViews
import Emu8085.Proofs.MemoryDump
import Emu8085.Proofs.DisplayLines
import Emu8085.Proofs.ByteValues
import Emu8085.Proofs.HistoryColumns
import Emu8085.Proofs.LineReports
