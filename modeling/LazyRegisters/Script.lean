import LazyRegisters.Command
import LazyRegisters.Text.Lowercase
import LazyRegisters.Text.Line

/-!
# Scripts

A program is a list of lines. It is read from the bytes of a file or typed line by line; either
way each line is trimmed and lowercased, so that commands may be written in any case. Bytes that
are not UTF-8 make a file unreadable as a whole, and a typed program as soon as the line that holds
them is reached.

A carriage return before a line feed is white space and goes with the trimming.
-/

namespace LazyRegisters.Script

/-- Why a program cannot be read. -/
inductive ReadError where
  | notUtf8
  | missing
  deriving DecidableEq, Repr

def ReadError.message : ReadError → String
  | notUtf8 => "stream did not contain valid UTF-8"
  | missing => "No such file or directory (os error 2)"

/-- A line as it is obeyed. -/
def clean (line : List Char) : String := String.ofList (Text.lower (Text.trim line))

/-- The lines of a program text. A quit command that ends the text only marks its end. -/
def ofText (text : String) : List String :=
  let lines := (Text.splitLines '\n' text.toList).map clean
  if lines.getLast? = some Command.quitKeyword then lines.dropLast else lines

/-- The lines of the program in a file of the given content; there is none if the file is
missing. -/
def ofFile (content : Option ByteArray) : Except ReadError (List String) :=
  match content with
  | none => .error .missing
  | some bytes =>
    match String.fromUTF8? bytes with
    | none => .error .notUtf8
    | some text => .ok (ofText text)

/-- The text of a line of bytes. -/
def decodeLine? (line : List UInt8) : Option String := String.fromUTF8? line.toByteArray

/-- The typed lines before the first quit command. -/
def untilQuit : List (List UInt8) → Except ReadError (List String)
  | [] => .ok []
  | bytes :: rest =>
    match decodeLine? bytes with
    | none => .error .notUtf8
    | some text =>
      let line := clean text.toList
      if line = Command.quitKeyword then .ok []
      else (untilQuit rest).map (line :: ·)

def byteLines (bytes : ByteArray) : List (List UInt8) := Text.splitLines 10 bytes.toList

def ofTyped (bytes : ByteArray) : Except ReadError (List String) := untilQuit (byteLines bytes)

end LazyRegisters.Script
