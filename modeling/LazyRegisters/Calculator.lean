import LazyRegisters.Forcing.Run

/-!
# The calculator

The state of a program run: the registers, what has been printed and rejected, and whether the
program has been ended. Operate commands are only recorded. A print command forces its register
and gives its value. A rejected command changes no log; one that is rejected for a cycle keeps the
entries that were applied before the cycle was met.
-/

namespace LazyRegisters

/-- What a command reports. -/
inductive Outcome where
  | printed (register : String) (value : Float)
  | rejected (rejection : Rejection)
  deriving DecidableEq, Repr

def Outcome.text : Outcome → String
  | printed _ value => Number.text Number.Style.result value
  | rejected r => r.message

def Outcome.value? : Outcome → Option Float
  | printed _ value => some value
  | rejected _ => none

def Outcome.reason? : Outcome → Option Reason
  | printed _ _ => none
  | rejected r => some r.reason

/-- The state of a run. -/
structure Calculator where
  store : Store := ∅
  journal : Journal := ∅
  outcomes : Array Outcome := #[]
  /-- Whether the program has been ended. -/
  halted : Bool := false

namespace Calculator

/-- A calculator without registers. -/
def fresh : Calculator := {}

def note (r : Record) (c : Calculator) : Calculator := { c with journal := c.journal.note r }

/-- Adds a listener, who hears of what forcing does from now on. -/
def listen (c : Calculator) : Calculator := { c with journal := c.journal.listen }

def report (o : Outcome) (c : Calculator) : Calculator := { c with outcomes := c.outcomes.push o }

/-- Forces the register of this name and gives its value. -/
def valueOf (name : String) (c : Calculator) : Except Reason Float × Calculator :=
  match c.store.position? name with
  | none => (.error (.undeclared name), c)
  | some p =>
    let ⟨store, journal, outcomes, halted⟩ := c
    let ⟨failure, store, journal⟩ := (Forcing.start store journal p).run
    match failure with
    | some reason => (.error reason, ⟨store, journal, outcomes, halted⟩)
    | none =>
      let value := store.valueAt p
      (.ok value, ⟨store, journal.note (.resolved name value), outcomes, halted⟩)

/-- Records an operation. The target is declared before the register it refers to. -/
def operate (target : String) (op : Operation) (operand : Operand String) (c : Calculator) :
    Calculator :=
  let ⟨store, journal, outcomes, halted⟩ := c
  let (p, store) := store.declare target
  let (operand, store) := store.declareOperand operand
  ⟨store.record p op operand, journal.note (.recorded target op operand.isRegister), outcomes,
    halted⟩

def execute (command : Command) (c : Calculator) : Except Reason Unit × Calculator :=
  match command with
  | .operate target op operand => (.ok (), c.operate target op operand)
  | .print register =>
    match c.valueOf register with
    | (.ok value, c) => (.ok (), c.report (.printed register value))
    | (.error reason, c) => (.error reason, c)
  | .quit => (.ok (), { c.note .quit with halted := true })

/-- Obeys a line, even after the program has been ended. A rejection is returned and not
reported. -/
def executeLine (line : String) (c : Calculator) : Except Rejection Unit × Calculator :=
  match Command.parse line with
  | .error rejection => (.error rejection, c)
  | .ok command =>
    let (result, c) := c.execute command
    (result.mapError (Rejection.ofLine line), c)

/-- Obeys a line and reports a rejection; does nothing once the program has been ended. -/
def step (c : Calculator) (line : String) : Calculator :=
  if c.halted then c
  else
    match c.executeLine line with
    | (.ok (), c) => c
    | (.error rejection, c) => (c.note (.rejected rejection)).report (.rejected rejection)

/-- Obeys lines until they or the program ends. -/
def run (lines : List String) (c : Calculator) : Calculator := lines.foldl step c

end Calculator

end LazyRegisters
