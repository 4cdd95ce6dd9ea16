import RecordService.Decimal.Binary64
import RecordService.Decimal.Layout
import RecordService.Decimal.Scaling
import RecordService.Decimal.Shortest
import RecordService.Entries
import RecordService.Error
import RecordService.Expression.Filter
import RecordService.Expression.Placeholder
import RecordService.Expression.Update
import RecordService.Http.MediaType
import RecordService.Http.Message
import RecordService.Http.Plan
import RecordService.Http.Route
import RecordService.Http.Service
import RecordService.Http.Status
import RecordService.Http.Target
import RecordService.Identity.Fault
import RecordService.Identity.Provider
import RecordService.Identity.Reader
import RecordService.Identity.Request
import RecordService.Identity.UserPool
import RecordService.Json.Fault
import RecordService.Json.Lexeme
import RecordService.Json.Literal
import RecordService.Json.Printer
import RecordService.Json.Quoted
import RecordService.Json.Reader
import RecordService.Json.Token
import RecordService.Json.Tree
import RecordService.Main
import RecordService.Proofs.Arrival
import RecordService.Proofs.AttributeMap
import RecordService.Proofs.Attributes
import RecordService.Proofs.Decimal.Layout
import RecordService.Proofs.Decimal.Rounding
import RecordService.Proofs.Decimal.Scaling
import RecordService.Proofs.Decimal.Shortest
import RecordService.Proofs.Decimal.Whole
import RecordService.Proofs.Entries
import RecordService.Proofs.Except
import RecordService.Proofs.Expression.Clause
import RecordService.Proofs.Expression.Compile
import RecordService.Proofs.Expression.Mention
import RecordService.Proofs.Expression.Ruling
import RecordService.Proofs.Expression.Token
import RecordService.Proofs.Http.Admission
import RecordService.Proofs.Http.Command
import RecordService.Proofs.Http.ErrorBody
import RecordService.Proofs.Http.Frame
import RecordService.Proofs.Http.Hiding
import RecordService.Proofs.Http.Listing
import RecordService.Proofs.Http.Malformed
import RecordService.Proofs.Http.Plan
import RecordService.Proofs.Http.Precision
import RecordService.Proofs.Http.ReadBack
import RecordService.Proofs.Http.Refusal
import RecordService.Proofs.Http.Relay
import RecordService.Proofs.Http.Remote
import RecordService.Proofs.Http.Route
import RecordService.Proofs.Http.Run
import RecordService.Proofs.Http.Sound
import RecordService.Proofs.Http.Stamp
import RecordService.Proofs.Identity.Decode
import RecordService.Proofs.Identity.Host
import RecordService.Proofs.Identity.Layout
import RecordService.Proofs.Identity.Members
import RecordService.Proofs.Json.Grammar
import RecordService.Proofs.Json.Length
import RecordService.Proofs.Json.Lexeme
import RecordService.Proofs.Json.Lexing
import RecordService.Proofs.Json.Meaning
import RecordService.Proofs.Json.Number
import RecordService.Proofs.Json.Numeral
import RecordService.Proofs.Json.Outline
import RecordService.Proofs.Json.Places
import RecordService.Proofs.Json.Prefix
import RecordService.Proofs.Json.Printed
import RecordService.Proofs.Json.Printer
import RecordService.Proofs.Json.Quoted
import RecordService.Proofs.Json.Reader
import RecordService.Proofs.Json.Reread
import RecordService.Proofs.Json.Spelling
import RecordService.Proofs.Json.Texts
import RecordService.Proofs.Record
import RecordService.Proofs.Related
import RecordService.Proofs.Store.Agreement
import RecordService.Proofs.Store.Alike
import RecordService.Proofs.Store.History
import RecordService.Proofs.Store.Numbers
import RecordService.Proofs.Store.Order
import RecordService.Proofs.Store.Overlap
import RecordService.Proofs.Store.Pages
import RecordService.Proofs.Store.Reply
import RecordService.Proofs.Store.Request
import RecordService.Proofs.Store.Run
import RecordService.Proofs.Store.Simulation
import RecordService.Proofs.Store.Sound
import RecordService.Proofs.Table.Cell
import RecordService.Proofs.Table.Delivered
import RecordService.Proofs.Table.Double
import RecordService.Proofs.Table.Ideal
import RecordService.Proofs.Table.Legible
import RecordService.Proofs.Table.Numeral
import RecordService.Proofs.Table.Returned
import RecordService.Proofs.Table.RoundTrip
import RecordService.Proofs.Table.Transport
import RecordService.Proofs.Table.Written
import RecordService.Proofs.Text.Cut
import RecordService.Proofs.Text.Percent
import RecordService.Proofs.Text.Utf8
import RecordService.Proofs.Value.Equality
import RecordService.Proofs.Value.Inside
import RecordService.Proofs.Value.Sorting
import RecordService.Record
import RecordService.Settings.Address
import RecordService.Settings.Basic
import RecordService.Settings.CommandLine
import RecordService.Startup
import RecordService.Store.Command
import RecordService.Store.Memory
import RecordService.Store.Remote
import RecordService.Table.Cell
import RecordService.Table.Item
import RecordService.Table.Notation
import RecordService.Table.Numeral
import RecordService.Table.Reply
import RecordService.Table.Request
import RecordService.Table.Shape
import RecordService.Text.Base64
import RecordService.Text.Blank
import RecordService.Text.Hex
import RecordService.Text.Percent
import RecordService.Text.Printable
import RecordService.Text.Quoted
import RecordService.Text.Utf8
import RecordService.Value
