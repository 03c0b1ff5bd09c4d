import LazyRegisters.Main
import LazyRegisters.Proofs.Coherence
import LazyRegisters.Proofs.PendingGraph
import LazyRegisters.Proofs.Evolution
import LazyRegisters.Proofs.DependencyPath
import LazyRegisters.Proofs.Lines
import LazyRegisters.Proofs.Calls
import LazyRegisters.Proofs.CheckedForcing
import LazyRegisters.Proofs.ForcingOutcome
import LazyRegisters.Proofs.Lasso
import LazyRegisters.Proofs.PermanentCycle
import LazyRegisters.Proofs.Confluence
import LazyRegisters.Proofs.RejectedLine
import LazyRegisters.Proofs.Recursive
import LazyRegisters.Proofs.ByName
import LazyRegisters.Proofs.RecursiveForcing
import LazyRegisters.Proofs.Refinement
import LazyRegisters.Proofs.Replay
import LazyRegisters.Proofs.Obeyed
import LazyRegisters.Proofs.Representation
import LazyRegisters.Proofs.Memo
import LazyRegisters.Proofs.Locality
import LazyRegisters.Proofs.Exchange
import LazyRegisters.Proofs.Projection
import LazyRegisters.Text.Distance
import LazyRegisters.Proofs.CleanLines
import LazyRegisters.Proofs.ByteLines
import LazyRegisters.Proofs.Reading
import LazyRegisters.Proofs.Printable
import LazyRegisters.Proofs.Conversation
import LazyRegisters.Proofs.Traversal
import LazyRegisters.Proofs.Shortest
import LazyRegisters.Proofs.Binary64
import LazyRegisters.Proofs.Positional
import LazyRegisters.Proofs.Numeral
import LazyRegisters.Proofs.NumberText
import LazyRegisters.Proofs.CommandText
import LazyRegisters.Proofs.NumeralReading
import LazyRegisters.Proofs.ExactValue
import LazyRegisters.Proofs.CorrectRounding
import LazyRegisters.Proofs.QuotedLine
import LazyRegisters.Proofs.EditDistance
import LazyRegisters.Proofs.MaximalWords
import LazyRegisters.Proofs.LetterCase
import LazyRegisters.Proofs.ShownLog
