import PlainSync.Main
import PlainSync.Machine.World
import PlainSync.Region.Index
import PlainSync.Region.Managed
import PlainSync.Proofs.Expansion.Meaning
import PlainSync.Proofs.Expansion.Evaluation
import PlainSync.Proofs.Normalize.CommentedBlanks
import PlainSync.Proofs.Normalize.Composition
import PlainSync.Proofs.Normalize.FixedPoints
import PlainSync.Proofs.Normalize.FreshNames
import PlainSync.Proofs.Normalize.LineNumbers
import PlainSync.Proofs.Normalize.KeptText
import PlainSync.Proofs.Normalize.Locations
import PlainSync.Proofs.Normalize.DeletedSeparators
import PlainSync.Proofs.Normalize.MissingArguments
import PlainSync.Proofs.Normalize.OperandTokens
import PlainSync.Proofs.Normalize.Untouched
import PlainSync.Proofs.Header.Inclusion
import PlainSync.Proofs.Calendar.TimestampOrder
import PlainSync.Proofs.Config.Texts
import PlainSync.Proofs.Contract.Counts
import PlainSync.Proofs.Contract.Yields
import PlainSync.Proofs.Files.Outputs
import PlainSync.Proofs.Log.Checking
import PlainSync.Proofs.Log.Numbering
import PlainSync.Proofs.Log.RoundTrip
import PlainSync.Proofs.Log.Schema
import PlainSync.Proofs.Run.OwnLogs
import PlainSync.Proofs.Command.Failures
import PlainSync.Proofs.Command.Session
import PlainSync.Proofs.Cursor.Rewriting
import PlainSync.Proofs.Region.Access
import PlainSync.Proofs.Region.Answers
import PlainSync.Proofs.Region.Secrecy
import PlainSync.Proofs.Cursor.ArgumentRoundTrip
import PlainSync.Proofs.Source.Legible
import PlainSync.Proofs.Source.LineComments
