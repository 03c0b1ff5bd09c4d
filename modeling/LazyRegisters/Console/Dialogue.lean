import LazyRegisters.Calculator
import LazyRegisters.Script
import LazyRegisters.Console.Transcript

/-!
# Dialogues

In a dialogue lines are obeyed as they are typed. A line that starts with a dot inspects the
registers instead: it never forces one. `respond` answers a single line, `replies` the lines of a
dialogue, and `converse` gives the transcript of it all.
-/

namespace LazyRegisters.Console.Dialogue

/-- A command that inspects the registers or ends the dialogue. -/
inductive DotCommand where
  | help
  | registers
  | log (name : String)
  | quit
  deriving DecidableEq, Repr

/-- Why a dot command is refused. -/
inductive DotError where
  | invalidFormat
  | unknownCommand (name : String)
  | unknownRegister (name : String)
  deriving DecidableEq, Repr

def DotError.message : DotError → String
  | invalidFormat => "invalid format"
  | unknownCommand name => "unknown command: ." ++ name
  | unknownRegister name => "unknown register: " ++ name

/-- The dot command of the words after the dot. -/
def DotCommand.ofWords : List String → Except DotError DotCommand
  | [] => .error .invalidFormat
  | word :: arguments =>
    if word = "help" then .ok .help
    else if word = "regs" ∨ word = "registers" then .ok .registers
    else if word = "log" then
      match arguments with
      | [name] => .ok (.log name)
      | _ => .error .invalidFormat
    else if word = "quit" then .ok .quit
    else .error (.unknownCommand word)

def banner : String :=
  "Type .help for a list of all available commands or start typing commands. Type " ++
    Command.quitKeyword ++ " to exit.\n"

def prompt : String := "> "

def helpLines : List String := [
  "Available commands:",
  "  <register> <add|subtract|multiply> <value>   Record an operation",
  "  print <register>                             Resolve and print a register",
  "  .regs, .registers                            List all registers without resolving them",
  "  .log <register>                              Print the operation log of a register",
  "  .quit                                        Exit"]

/-- A number with blanks before it, three characters wide at least. -/
def padded (n : Nat) : String :=
  let digits := Nat.toDigits 10 n
  String.ofList (List.replicate (3 - digits.length) ' ' ++ digits)

/-- The row of a log entry. -/
def entryLine (s : Store) (index : Nat) (e : Entry Position) : String :=
  "  " ++ padded index ++ (if e.applied then " [x] " else " [ ] ") ++ e.operation.name ++ " " ++
    (s.named e.operand).text Number.Style.result

/-- The log of a register: the register itself and a row for each entry. -/
def logLines (s : Store) (r : Register) : List String :=
  ("Register " ++ r.text) :: r.log.toList.mapIdx (entryLine s)

def registerLines (s : Store) : List String :=
  if s.size = 0 then ["No registers"] else s.registers.toList.map Register.text

/-- Obeys the text after the dot. The name of a register may be typed in any case. -/
def respondDot (text : List Char) (c : Calculator) : Except DotError Transcript × Calculator :=
  match DotCommand.ofWords ((Text.fields Text.isWhiteSpace text).map String.ofList) with
  | .error e => (.error e, c)
  | .ok .help => (.ok (.outputLines helpLines), c)
  | .ok .registers => (.ok (.outputLines (registerLines c.store)), c)
  | .ok (.log name) =>
    match c.store.find? (Text.lowercase name) with
    | none => (.error (.unknownRegister name), c)
    | some r => (.ok (.outputLines (logLines c.store r)), c)
  | .ok .quit => (.ok {}, { c with halted := true })

/-- The lines that report a rejection; a cycle is written out. -/
def rejectionLines (r : Rejection) : List String :=
  r.message :: r.cycleText?.toList.map ("  cycle: " ++ ·)

/-- Obeys a command and writes what it reports. -/
def respondCommand (line : String) (c : Calculator) : Transcript × Calculator :=
  let before := c.outcomes.size
  let (result, c) := c.executeLine line
  let printed := (c.outcomes.extract before).toList.map Outcome.text
  let rejected := match result with
    | .ok () => []
    | .error r => rejectionLines r
  (.outputLines (printed ++ rejected), c)

/-- Obeys a line. -/
def respond (line : String) (c : Calculator) : Transcript × Calculator :=
  match Text.trim line.toList with
  | '.' :: text =>
    match respondDot text c with
    | (.ok t, c) => (t, c)
    | (.error e, c) => (.errorLine ("Error: " ++ e.message), c)
  | text => respondCommand (String.ofList (Text.lower text)) c

/-- The replies to the lines that are still to be typed, one for each prompt, and the state in the
end. The end of the input is prompted for like a line and gets no reply. -/
def replies (c : Calculator) : List (List UInt8) → List Transcript × Calculator
  | [] => (if c.halted then [] else [{}], c)
  | bytes :: rest =>
    if c.halted then ([], c)
    else
      match Script.decodeLine? bytes with
      | none => ([.errorLine ("Error: " ++ Script.ReadError.notUtf8.message)], c)
      | some line =>
        let (reply, c) := respond line c
        let (others, c) := replies c rest
        (reply :: others, c)

/-- The transcript of a whole dialogue. -/
def converse (bytes : ByteArray) : Transcript :=
  (replies Calculator.fresh (Script.byteLines bytes)).1.foldl
    (fun t reply => t ++ .output prompt ++ reply) (.output banner)

end LazyRegisters.Console.Dialogue
