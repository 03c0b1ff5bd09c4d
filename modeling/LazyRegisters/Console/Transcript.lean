/-!
# Transcripts

What a program writes to its two streams.
-/

namespace LazyRegisters.Console

/-- The text written to standard output and to standard error. -/
structure Transcript where
  out : String := ""
  err : String := ""
  deriving DecidableEq, Repr

namespace Transcript

/-- One transcript after another, stream by stream. -/
def append (t u : Transcript) : Transcript := ⟨t.out ++ u.out, t.err ++ u.err⟩

instance : Append Transcript := ⟨append⟩

def output (text : String) : Transcript := { out := text }

def outputLines (lines : List String) : Transcript :=
  { out := String.join (lines.map (· ++ "\n")) }

/-- A line on standard error. -/
def errorLine (line : String) : Transcript := { err := line ++ "\n" }

end Transcript

end LazyRegisters.Console
