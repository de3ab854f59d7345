import ParenLex.Lexer.Path
import ParenLex.Pipeline
import ParenLex.Proofs.Coverage
import ParenLex.Proofs.Grammar
import ParenLex.Proofs.Lines
import ParenLex.Proofs.RoundTrip
import ParenLex.Report.Render
import ParenLex.Settings
import ParenLex.Proofs.Requests
import ParenLex.Proofs.Source
import ParenLex.Proofs.Ends
import ParenLex.Proofs.Failure
import ParenLex.Proofs.Undecodable
import ParenLex.Proofs.Message
import ParenLex.Proofs.Rounds
import ParenLex.Proofs.Nesting
import ParenLex.Proofs.Refusal
import ParenLex.Proofs.Extension
import ParenLex.Proofs.Cancellation
import ParenLex.Proofs.Stream
import ParenLex.Proofs.Outcomes
import ParenLex.Proofs.Standstill
import ParenLex.Proofs.Counters
import ParenLex.Proofs.Effort
import ParenLex.Proofs.Joining
import ParenLex.Proofs.Reports
import ParenLex.Proofs.Log
import ParenLex.Proofs.Record
import ParenLex.Proofs.EndToken
import ParenLex.Proofs.Depth
import ParenLex.Proofs.Numbers
import ParenLex.Proofs.Decoding
import ParenLex.Proofs.Demand
import ParenLex.Proofs.Exchange
import ParenLex.Proofs.Gathering
import ParenLex.Proofs.Index
import ParenLex.Proofs.Finality
import ParenLex.Proofs.Literals
import ParenLex.Proofs.Flags
import ParenLex.Proofs.Display
