import LazyRegisters.Console.Batch
import LazyRegisters.Console.Dialogue

/-!
# The command line

`run [FILE]` runs the program in a file, or one typed on standard input; `dialogue` obeys lines as
they are typed. This module only reads and writes: what is written is computed by the library.
-/

namespace LazyRegisters.Console

def write (t : Transcript) : IO Unit := do
  (← IO.getStdout).putStr t.out
  (← IO.getStdout).flush
  (← IO.getStderr).putStr t.err

/-- Reads standard input to its end. -/
partial def readInput : IO ByteArray := do
  let input ← IO.getStdin
  let rec loop (bytes : ByteArray) : IO ByteArray := do
    let chunk ← input.read 4096
    if chunk.isEmpty then pure bytes else loop (bytes ++ chunk)
  loop ByteArray.empty

/-- Reads a line without its line feed; there is none at the end of the input. -/
partial def readLine? : IO (Option (List UInt8)) := do
  let input ← IO.getStdin
  let rec loop (line : List UInt8) (started : Bool) : IO (Option (List UInt8)) := do
    let byte ← input.read 1
    match byte.toList with
    | [] => pure (if started then some line.reverse else none)
    | b :: _ => if b = 10 then pure (some line.reverse) else loop (b :: line) true
  loop [] false

/-- The content of a file, if there is one. -/
def readFile? (path : String) : IO (Option ByteArray) := do
  try
    return some (← IO.FS.readBinFile path)
  catch _ => return none

/-- Obeys lines as they are typed. -/
partial def dialogue (c : Calculator) : IO Unit := do
  if c.halted then return
  write (.output Dialogue.prompt)
  match ← readLine? with
  | none => return
  | some bytes =>
    match Script.decodeLine? bytes with
    | none => write (.errorLine ("Error: " ++ Script.ReadError.notUtf8.message))
    | some line =>
      let (reply, c) := Dialogue.respond line c
      write reply
      dialogue c

end LazyRegisters.Console

open LazyRegisters LazyRegisters.Console

def main (args : List String) : IO UInt32 := do
  match args with
  | ["dialogue"] =>
    write (.output Dialogue.banner)
    dialogue Calculator.fresh
    return 0
  | ["run"] =>
    write (Batch.ofTyped (← readInput))
    return 0
  | ["run", path] =>
    write (Batch.ofFile (← readFile? path))
    return 0
  | _ =>
    write (.errorLine "usage: run [FILE] | dialogue")
    return 2
