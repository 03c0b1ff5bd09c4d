import LazyRegisters.Calculator
import LazyRegisters.Script
import LazyRegisters.Console.Transcript

/-!
# Batch runs

A program from a file, or typed on standard input, is run from beginning to end. Each outcome is
written on a line of its own. The end of a typed program is answered with an empty line.
-/

namespace LazyRegisters.Console.Batch

/-- The lines that a program writes. -/
def outputLines (program : List String) : List String :=
  (Calculator.fresh.run program).outcomes.toList.map Outcome.text

/-- A program that cannot be read writes nothing but the error. -/
def readFailure (e : Script.ReadError) : Transcript :=
  .errorLine ("IO error: " ++ e.message)

def ofFile (content : Option ByteArray) : Transcript :=
  match Script.ofFile content with
  | .error e => readFailure e
  | .ok program => .outputLines (outputLines program)

def ofTyped (bytes : ByteArray) : Transcript :=
  match Script.ofTyped bytes with
  | .error e => readFailure e
  | .ok program => .outputLines ("" :: outputLines program)

end LazyRegisters.Console.Batch
