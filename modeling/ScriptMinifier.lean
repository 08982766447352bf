import ScriptMinifier.Position
import ScriptMinifier.CharClass
import ScriptMinifier.LineBreak
import ScriptMinifier.Fault
import ScriptMinifier.Literal
import ScriptMinifier.Loop
import ScriptMinifier.Cursor.Basic
import ScriptMinifier.Cursor.Query
import ScriptMinifier.Cursor.Lookahead
import ScriptMinifier.Cursor.Lookahead.Scan
import ScriptMinifier.Cursor.Scan
import ScriptMinifier.Cursor.Token
import ScriptMinifier.Cursor.Literal
import ScriptMinifier.Record
import ScriptMinifier.Action
import ScriptMinifier.Run.Basic
import ScriptMinifier.Run.Finish
import ScriptMinifier.Minify
import ScriptMinifier.Run.Head
import ScriptMinifier.Comment
import ScriptMinifier.Lexeme
import ScriptMinifier.Run.Transcript
import ScriptMinifier.Reading
import ScriptMinifier.Layout
import ScriptMinifier.Proofs.Action
import ScriptMinifier.Proofs.Step
import ScriptMinifier.Proofs.CharClass
import ScriptMinifier.Proofs.LineBreak
import ScriptMinifier.Proofs.Closing
import ScriptMinifier.Proofs.Scanning
import ScriptMinifier.Proofs.Token
import ScriptMinifier.Proofs.Answers
import ScriptMinifier.Proofs.Reading
import ScriptMinifier.Proofs.Layout
import ScriptMinifier.Proofs.Outcome
import ScriptMinifier.Proofs.Forecast.Basic
import ScriptMinifier.Proofs.Forecast.Fetch
import ScriptMinifier.Proofs.Forecast.Step
import ScriptMinifier.Proofs.Report
import ScriptMinifier.Proofs.Minify
import ScriptMinifier.Proofs.Log
import ScriptMinifier.Proofs.Transcript
import ScriptMinifier.Proofs.Rereading
import ScriptMinifier.Proofs.Idempotence
import ScriptMinifier.Proofs.LineStyle
import ScriptMinifier.Proofs.Words
import ScriptMinifier.Proofs.Flags
import ScriptMinifier.Proofs.FixedPoint
import ScriptMinifier.Proofs.Bundle
import ScriptMinifier.Proofs.CommentFree
import ScriptMinifier.Proofs.Head
import ScriptMinifier.Proofs.Budget
import ScriptMinifier.Proofs.Retracing
import ScriptMinifier.Proofs.Settling
import ScriptMinifier.Proofs.Extension
import ScriptMinifier.Proofs.OpaqueBody
import ScriptMinifier.Proofs.Scanner.Basic
import ScriptMinifier.Proofs.Scanner.Lookahead
import ScriptMinifier.Proofs.Scanner.Cursor
import ScriptMinifier.Proofs.Scanner.Literal
import ScriptMinifier.Proofs.Scanner.Comment
import ScriptMinifier.Proofs.Window
import ScriptMinifier.Proofs.Termination
