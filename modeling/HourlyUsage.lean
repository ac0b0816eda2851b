import HourlyUsage.Text.Ascii
import HourlyUsage.Text.Utf8
import HourlyUsage.Calendar.Date
import HourlyUsage.Calendar.Duration
import HourlyUsage.Calendar.Instant
import HourlyUsage.Text.Blank
import HourlyUsage.Text.Digits
import HourlyUsage.Calendar.Timestamp.Text
import HourlyUsage.Calendar.Timestamp.Strict
import HourlyUsage.Calendar.Timestamp.Relaxed
import HourlyUsage.CommandLine.Argument
import HourlyUsage.Decimal.Binary64
import HourlyUsage.Decimal.Shortest
import HourlyUsage.Decimal.Layout
import HourlyUsage.Text.Quoted
import HourlyUsage.Json.Fault
import HourlyUsage.Json.Lexeme
import HourlyUsage.Json.Numeral
import HourlyUsage.Json.Structure
import HourlyUsage.Json.Value
import HourlyUsage.Json.Skip
import HourlyUsage.Json.Record
import HourlyUsage.Json.Printer
import HourlyUsage.Event
import HourlyUsage.Failure
import HourlyUsage.Query
import HourlyUsage.Schedule
import HourlyUsage.Sink
import HourlyUsage.ArrayEncoder
import HourlyUsage.FileTree.Basic
import HourlyUsage.FileTree.Path
import HourlyUsage.ObjectStore
import HourlyUsage.Export
import HourlyUsage.FileTree.Staging
import HourlyUsage.Report
import HourlyUsage.Command
import HourlyUsage.Text.Terminal
import HourlyUsage.CommandLine.Grammar
import HourlyUsage.CommandLine.Parser
import HourlyUsage.Program
import HourlyUsage.Main
import HourlyUsage.Proofs.ByteOrder
import HourlyUsage.Proofs.DigitRuns
import HourlyUsage.Proofs.CalendarOrder
import HourlyUsage.Proofs.HourOrder
import HourlyUsage.Proofs.LocalClock
import HourlyUsage.Proofs.TimestampText
import HourlyUsage.Proofs.KeyOrder
import HourlyUsage.Proofs.Tiling
import HourlyUsage.Proofs.Listing
import HourlyUsage.Proofs.ExportLoop
import HourlyUsage.Proofs.TreeEdit
import HourlyUsage.Proofs.PathWalk
import HourlyUsage.Proofs.StagedStore
import HourlyUsage.Proofs.PathLengths
import HourlyUsage.Proofs.EnumerationOrder
import HourlyUsage.Proofs.FreshName
import HourlyUsage.Proofs.ArrayContent
import HourlyUsage.Proofs.ExportContent
import HourlyUsage.Proofs.AtomicExport
import HourlyUsage.Proofs.LexemeFraming
import HourlyUsage.Proofs.ValueFraming
import HourlyUsage.Proofs.WindowPositions
import HourlyUsage.Proofs.CheckedArithmetic
import HourlyUsage.Proofs.ScheduleUses
import HourlyUsage.Proofs.ArrayDocument
import HourlyUsage.Proofs.ExportSteps
import HourlyUsage.Proofs.AccountIsolation
import HourlyUsage.Proofs.EncoderTrace
import HourlyUsage.Proofs.CommandAgreement
import HourlyUsage.Proofs.RecordText
import HourlyUsage.Proofs.EventText
import HourlyUsage.Proofs.NumeralText
import HourlyUsage.Proofs.Rounding
import HourlyUsage.Proofs.ShortestDecimal
import HourlyUsage.Proofs.FloatArithmetic
import HourlyUsage.Proofs.FloatText
import HourlyUsage.Proofs.OffsetText
import HourlyUsage.Proofs.DateArgument
import HourlyUsage.Proofs.ObjectFile
import HourlyUsage.Proofs.LineNumbers
import HourlyUsage.Proofs.PrintedText
import HourlyUsage.Proofs.StoreListing
import HourlyUsage.Proofs.LocalTimestamp
import HourlyUsage.Proofs.PrintedTimes
import HourlyUsage.Proofs.WindowArgument
import HourlyUsage.Proofs.HourPrecision
import HourlyUsage.Proofs.HourFloor
import HourlyUsage.Proofs.OptionText
import HourlyUsage.Proofs.CommandValues
import HourlyUsage.Proofs.OptionOrder
import HourlyUsage.Proofs.IndentedText
import HourlyUsage.Proofs.ReportDocument
import HourlyUsage.Proofs.LimitedSink
