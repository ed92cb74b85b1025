import LeadSheet.Calendar.Date
import LeadSheet.Calendar.Moment
import LeadSheet.Chord.Basic
import LeadSheet.Chord.Extension
import LeadSheet.Chord.Item
import LeadSheet.Chord.Printer
import LeadSheet.Chord.Reader
import LeadSheet.Chord.Root
import LeadSheet.Command.Arguments
import LeadSheet.Command.Disk
import LeadSheet.Command.Journal
import LeadSheet.Command.Options
import LeadSheet.Command.Run
import LeadSheet.Command.Work
import LeadSheet.Datum.Reader
import LeadSheet.Datum.Score
import LeadSheet.Main
import LeadSheet.Midi.File
import LeadSheet.Misreading
import LeadSheet.Number.Basic
import LeadSheet.Number.Binary
import LeadSheet.Number.Decimal
import LeadSheet.Number.Layout
import LeadSheet.Number.Quantity
import LeadSheet.Number.Reader
import LeadSheet.Number.Shortest
import LeadSheet.Order
import LeadSheet.Pitch.Degree
import LeadSheet.Pitch.Key
import LeadSheet.Pitch.PitchClass
import LeadSheet.Pitch.Range
import LeadSheet.Pitch.Reader
import LeadSheet.Playing.Schedule
import LeadSheet.Playing.Sheet
import LeadSheet.Playing.Timeline
import LeadSheet.Quality.Standard
import LeadSheet.Quality.Table
import LeadSheet.Score.Basic
import LeadSheet.Score.Conversion
import LeadSheet.Score.Printer
import LeadSheet.Score.Reader
import LeadSheet.Settings.Basic
import LeadSheet.Settings.Fault
import LeadSheet.Settings.File
import LeadSheet.Settings.Json
import LeadSheet.Settings.Reader
import LeadSheet.Settings.Value
import LeadSheet.Settings.Yaml.BlockText
import LeadSheet.Settings.Yaml.Node
import LeadSheet.Settings.Yaml.Number
import LeadSheet.Settings.Yaml.PlainText
import LeadSheet.Settings.Yaml.QuotedText
import LeadSheet.Settings.Yaml.Reader
import LeadSheet.Settings.Yaml.Timestamp
import LeadSheet.Settings.Yaml.Token
import LeadSheet.Settings.Yaml.TokenRow
import LeadSheet.Text.Lowercase
import LeadSheet.Text.Path
import LeadSheet.Text.Prefix
import LeadSheet.Text.Printable
import LeadSheet.Text.Quoted
import LeadSheet.Text.Space
import LeadSheet.Text.Utf8
import LeadSheet.Token.Lexer
import LeadSheet.Token.Reader
import LeadSheet.Voicing.Basic
import LeadSheet.Voicing.Note
import LeadSheet.Proofs.Chord.Tones
import LeadSheet.Proofs.Chord.Items
import LeadSheet.Proofs.Reading.Piece
import LeadSheet.Proofs.Datum.Flat
import LeadSheet.Proofs.Writing.Chord
import LeadSheet.Proofs.Writing.Beats
import LeadSheet.Proofs.Writing.Entry
import LeadSheet.Proofs.Score.Growth
import LeadSheet.Proofs.Writing.Score
import LeadSheet.Proofs.Writing.Reread
import LeadSheet.Proofs.Playing.Alike
import LeadSheet.Proofs.Playing.Whole
import LeadSheet.Proofs.Playing.KeyLoss
import LeadSheet.Proofs.Playing.Rewriting
import LeadSheet.Proofs.Playing.Span
import LeadSheet.Proofs.Playing.Switches
import LeadSheet.Proofs.Playing.Balance
import LeadSheet.Proofs.Score.Calls
import LeadSheet.Proofs.Datum.Nesting
import LeadSheet.Proofs.Reading.Fault
import LeadSheet.Proofs.Reading.Total
import LeadSheet.Proofs.Playing.Partition
import LeadSheet.Proofs.Writing.Transposition
import LeadSheet.Proofs.Reading.ItemForm
import LeadSheet.Proofs.Reading.Symbol
import LeadSheet.Proofs.Datum.Scope
import LeadSheet.Proofs.Playing.Encoded
import LeadSheet.Proofs.Playing.Written
import LeadSheet.Proofs.Reading.Closed
import LeadSheet.Proofs.Reading.Scan
import LeadSheet.Proofs.Reading.Row
import LeadSheet.Proofs.Reading.Layout
import LeadSheet.Proofs.Score.Joined
import LeadSheet.Proofs.Writing.KeyMarks
import LeadSheet.Proofs.Settings.Outcome
import LeadSheet.Proofs.Playing.InTime
import LeadSheet.Proofs.Playing.Voicing
import LeadSheet.Proofs.Playing.Range
import LeadSheet.Proofs.Playing.Nearest
import LeadSheet.Proofs.Playing.Shape
import LeadSheet.Proofs.Reading.Aim
import LeadSheet.Proofs.Reading.Ascii
import LeadSheet.Proofs.Reading.AlteredFifth
import LeadSheet.Proofs.Score.Respelled
import LeadSheet.Proofs.Quality.Registered
import LeadSheet.Proofs.Reading.Vocabulary
import LeadSheet.Proofs.Datum.Grammar
import LeadSheet.Proofs.Reading.Cover
import LeadSheet.Proofs.Command.Disk
import LeadSheet.Proofs.Command.Output
import LeadSheet.Proofs.Writing.Timed
