import LazyRegisters.Rejection
import LazyRegisters.Number.Style

/-!
# The journal

What can be observed of a calculation beside its results: *events* tell listeners what forcing does
to the registers, and *records* tell the log of the program what is going on. The journal keeps both
in the order in which they came about.
-/

namespace LazyRegisters

/-- The application of a log entry to the value of its register. -/
structure Application where
  register : String
  index : Nat
  operation : Operation
  operand : Float
  /-- The value of the register after it. -/
  value : Float
  deriving DecidableEq, Repr

/-- What a listener is told. -/
inductive Event where
  | applied (application : Application)
  | cycleDetected (register : String)
  deriving DecidableEq, Repr

/-- How much a record matters. -/
inductive Level where
  | trace
  | debug
  | warning
  deriving DecidableEq, Repr

/-- What is written to the log of the program. -/
inductive Record where
  /-- An operation was appended to the log of a register. -/
  | recorded (register : String) (operation : Operation) (onRegister : Bool)
  /-- The program was ended. -/
  | quit
  /-- A register was put on the dependency path, `depth` registers being there already. -/
  | resolving (register : String) (depth : Nat)
  | applied (application : Application)
  | cycle (register : String) (cycle : List String)
  /-- A register asked for was forced. -/
  | resolved (register : String) (value : Float)
  | rejected (rejection : Rejection)
  deriving DecidableEq, Repr

namespace Record

def level : Record → Level
  | recorded .. | quit | resolved .. => .debug
  | resolving .. | applied _ => .trace
  | cycle .. | rejected _ => .warning

def message : Record → String
  | recorded .. => "recorded operation"
  | quit => "quit"
  | resolving .. => "resolving register"
  | applied _ => "applied log entry"
  | cycle .. => "dependency cycle"
  | resolved .. => "resolved register"
  | rejected _ => "command rejected"

def fields : Record → List (String × String)
  | recorded register op onRegister =>
    [("register", register), ("operator", op.name),
      ("register_operand", if onRegister then "true" else "false")]
  | quit => []
  | resolving register depth => [("register", register), ("depth", toString depth)]
  | applied a =>
    [("register", a.register), ("index", toString a.index), ("operator", a.operation.name),
      ("operand", Number.text Number.Style.plain a.operand),
      ("value", Number.text Number.Style.plain a.value)]
  | cycle register names => [("register", register), ("cycle", pathText names)]
  | resolved register value =>
    [("register", register), ("value", Number.text Number.Style.plain value)]
  | rejected r => [("line", r.line), ("reason", r.reason.message)]

end Record

/-- Everything observed so far, in order. A listener hears the events from the one on that follows
its joining; `listeners` holds, for each of them, how many events came before. -/
structure Journal where
  events : Array Event := #[]
  records : Array Record := #[]
  listeners : Array Nat := #[]

namespace Journal

instance : EmptyCollection Journal := ⟨{}⟩

/-- Brings an event about. -/
def emit (e : Event) (j : Journal) : Journal := { j with events := j.events.push e }

def note (r : Record) (j : Journal) : Journal := { j with records := j.records.push r }

def listen (j : Journal) : Journal := { j with listeners := j.listeners.push j.events.size }

/-- The events from the given one on as they are heard: each by every listener that has joined, in
the order of joining. -/
def heardFrom (start : Nat) (j : Journal) : List (Nat × Event) :=
  ((j.events.extract start).toList.zipIdx start).flatMap fun (e, i) =>
    (j.listeners.toList.zipIdx.filter fun (joined, _) => joined ≤ i).map fun (_, k) => (k, e)

end Journal

end LazyRegisters
