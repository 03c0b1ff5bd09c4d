import LazyRegisters.Calculator
import Mathlib.Logic.Function.Basic

/-!
# The recursive machine

The calculator as one would write it down first. Registers are known by their names only and a log
has no cursor. Forcing a register goes through its log from the beginning, skips what has been
applied, and calls itself for an operand that is a register before the entry is applied; it fails as
soon as it is called for a register that is being forced.
-/

namespace LazyRegisters.Recursive

/-- A register: its value and its log. -/
structure Cell where
  value : Float := 0
  log : List (Entry String) := []
  deriving DecidableEq, Repr

/-- The registers by name, and the events so far. -/
structure Memory where
  cell : String → Cell := fun _ => {}
  events : List Event := []

namespace Memory

def record (name : String) (op : Operation) (operand : Operand String) (m : Memory) : Memory :=
  let cell := m.cell name
  { m with
    cell := Function.update m.cell name { cell with log := cell.log ++ [⟨op, operand, false⟩] } }

/-- Applies an entry of a log and tells of it. -/
def apply (name : String) (index : Nat) (op : Operation) (operand : Float) (m : Memory) : Memory :=
  let cell := m.cell name
  let value := op.apply cell.value operand
  { cell := Function.update m.cell name
      ⟨value, cell.log.modify index fun e => { e with applied := true }⟩
    events := m.events ++ [.applied ⟨name, index, op, operand, value⟩] }

def emit (e : Event) (m : Memory) : Memory := { m with events := m.events ++ [e] }

end Memory

/-- A register that is being forced is no longer among those that are not. -/
theorem countP_notMem_append_lt {names active : List String} {name : String} (hname : name ∈ names)
    (hactive : name ∉ active) :
    names.countP (· ∉ active ++ [name]) < names.countP (· ∉ active) := by
  refine Forcing.countP_lt_of_mem hname (fun x _ hx => ?_) (by simp) (by simpa using hactive)
  simp only [List.mem_append, not_or, decide_eq_true_eq] at hx ⊢
  exact hx.1

mutual

/-- Forces a register of those in `names`, while the ones in `active`, outermost first, are being
forced. -/
def resolve (names active : List String) (name : String) (m : Memory) : Option Reason × Memory :=
  if name ∈ active then
    (some (.cyclic name (active.dropWhile (· != name) ++ [name])), m.emit (.cycleDetected name))
  else if name ∈ names then scan names (active ++ [name]) name 0 (m.cell name).log m
  else (none, m)
termination_by (names.countP (· ∉ active), 0)
decreasing_by exact .left _ _ (countP_notMem_append_lt ‹_› ‹_›)

/-- Applies what has not been applied among the entries of a register from an index on. -/
def scan (names active : List String) (name : String) (index : Nat) (entries : List (Entry String))
    (m : Memory) : Option Reason × Memory :=
  match entries with
  | [] => (none, m)
  | e :: entries =>
    if e.applied then scan names active name (index + 1) entries m
    else
      match e.operand with
      | .number x => scan names active name (index + 1) entries (m.apply name index e.operation x)
      | .register d =>
        match resolve names active d m with
        | (some reason, m) => (some reason, m)
        | (none, m) =>
          scan names active name (index + 1) entries
            (m.apply name index e.operation (m.cell d).value)
termination_by (names.countP (· ∉ active), entries.length)

end

/-- The state of a run. -/
structure Machine where
  /-- The names of the registers in the order of first mention. -/
  names : List String := []
  memory : Memory := {}
  outcomes : List Outcome := []
  halted : Bool := false

namespace Machine

/-- Mentions a register. -/
def declare (name : String) (c : Machine) : Machine :=
  if name ∈ c.names then c else { c with names := c.names ++ [name] }

/-- Mentions the register that an operand names. -/
def declareOperand (operand : Operand String) (c : Machine) : Machine :=
  match operand with
  | .number _ => c
  | .register name => c.declare name

def operate (target : String) (op : Operation) (operand : Operand String) (c : Machine) : Machine :=
  let c := (c.declare target).declareOperand operand
  { c with memory := c.memory.record target op operand }

def report (o : Outcome) (c : Machine) : Machine := { c with outcomes := c.outcomes ++ [o] }

def execute (command : Command) (c : Machine) : Except Reason Unit × Machine :=
  match command with
  | .operate target op operand => (.ok (), c.operate target op operand)
  | .print name =>
    if name ∈ c.names then
      match resolve c.names [] name c.memory with
      | (some reason, m) => (.error reason, { c with memory := m })
      | (none, m) => (.ok (), { c with memory := m }.report (.printed name (m.cell name).value))
    else (.error (.undeclared name), c)
  | .quit => (.ok (), { c with halted := true })

/-- Obeys a line and reports a rejection; does nothing once the program has been ended. -/
def step (c : Machine) (line : String) : Machine :=
  if c.halted then c
  else
    match Command.parse line with
    | .error rejection => c.report (.rejected rejection)
    | .ok command =>
      match c.execute command with
      | (.ok (), c) => c
      | (.error reason, c) => c.report (.rejected (.ofLine line reason))

/-- Obeys lines from the beginning. -/
def run (lines : List String) : Machine := lines.foldl step {}

/-- The registers in the order of first mention. -/
def listing (c : Machine) : List (String × Cell) :=
  c.names.map fun name => (name, c.memory.cell name)

end Machine

/-! ## Forcing -/

theorem resolve_of_mem_active {names active : List String} {name : String} (m : Memory)
    (h : name ∈ active) :
    resolve names active name m =
      (some (.cyclic name (active.dropWhile (· != name) ++ [name])),
        m.emit (.cycleDetected name)) := by
  rw [resolve, if_pos h]

theorem resolve_of_notMem_active {names active : List String} {name : String} (m : Memory)
    (hname : name ∈ names) (h : name ∉ active) :
    resolve names active name m =
      scan names (active ++ [name]) name 0 (m.cell name).log m := by
  rw [resolve, if_neg h, if_pos hname]

theorem scan_nil (names active : List String) (name : String) (index : Nat) (m : Memory) :
    scan names active name index [] m = (none, m) := by
  rw [scan]

theorem scan_number {names active : List String} {name : String} {index : Nat} {e : Entry String}
    {entries : List (Entry String)} {m : Memory} {x : Float} (he : e.applied = false)
    (hx : e.operand = .number x) :
    scan names active name index (e :: entries) m =
      scan names active name (index + 1) entries (m.apply name index e.operation x) := by
  rw [scan, he, hx]
  rfl

theorem scan_register {names active : List String} {name d : String} {index : Nat}
    {e : Entry String} {entries : List (Entry String)} {m : Memory} (he : e.applied = false)
    (hd : e.operand = .register d) :
    scan names active name index (e :: entries) m =
      match resolve names active d m with
      | (some reason, m) => (some reason, m)
      | (none, m) =>
        scan names active name (index + 1) entries
          (m.apply name index e.operation (m.cell d).value) := by
  rw [scan, he, hd]
  rfl

theorem scan_append_of_applied {names active : List String} {name : String} {index : Nat}
    {as : List (Entry String)} (h : ∀ e ∈ as, e.applied) (bs : List (Entry String)) (m : Memory) :
    scan names active name index (as ++ bs) m =
      scan names active name (index + as.length) bs m := by
  induction as generalizing index with
  | nil => rfl
  | cons e as ih =>
    rw [List.cons_append, scan, if_pos (h e List.mem_cons_self),
      ih fun e he => h e (List.mem_cons_of_mem _ he), List.length_cons, Nat.add_right_comm,
      Nat.add_assoc]

end LazyRegisters.Recursive
