import LazyRegisters.Register
import Std.Data.TreeMap

/-!
# The store of registers

The registers of a run in the order of first mention, with an index from names to positions.
Registers are only ever added; a position stays that of the same register.
-/

namespace LazyRegisters

/-- All registers mentioned so far. -/
structure Store where
  registers : Array Register := #[]
  positions : Std.TreeMap String Position := ∅

namespace Store

instance : EmptyCollection Store := ⟨{}⟩

instance : Inhabited Store := ⟨∅⟩

def size (s : Store) : Nat := s.registers.size

/-- The names of the registers in the order of first mention. -/
def names (s : Store) : List String := s.registers.toList.map Register.name

def position? (s : Store) (name : String) : Option Position := s.positions[name]?

def contains (s : Store) (name : String) : Bool := s.positions.contains name

def register? (s : Store) (p : Position) : Option Register := s.registers[p]?

def find? (s : Store) (name : String) : Option Register := (s.position? name).bind s.register?

def nameAt (s : Store) (p : Position) : String := (s.register? p).elim "" Register.name

/-- The value of the register at a position as far as its entries have been applied. -/
def valueAt (s : Store) (p : Position) : Float := (s.register? p).elim 0 Register.value

/-- The first pending entry of the register at a position. -/
def pendingEntryAt? (s : Store) (p : Position) : Option (Entry Position) :=
  (s.register? p).bind Register.pendingEntry?

/-- Whether nothing is pending at a position. -/
def isResolvedAt (s : Store) (p : Position) : Bool := (s.register? p).all Register.isResolved

/-- The position of the register of this name, which is added to the store if it is new. -/
def declare (name : String) (s : Store) : Position × Store :=
  match s.position? name with
  | some p => (p, s)
  | none =>
    (s.size,
      { registers := s.registers.push { name := name }
        positions := s.positions.insert name s.size })

/-- An operand of a command as it stands in a log; the register it names is declared. -/
def declareOperand (operand : Operand String) (s : Store) : Operand Position × Store :=
  match operand with
  | .number x => (.number x, s)
  | .register name =>
    let (p, s) := s.declare name
    (.register p, s)

def modify (p : Position) (f : Register → Register) (s : Store) : Store :=
  { s with registers := s.registers.modify p f }

def record (p : Position) (op : Operation) (operand : Operand Position) (s : Store) : Store :=
  s.modify p (Register.record op operand)

def applyPending (p : Position) (operand : Float) (s : Store) : Store :=
  s.modify p (Register.applyPending operand)

/-- Overwrites the value of the register at a position and leaves its log alone. -/
def setValue (p : Position) (x : Float) (s : Store) : Store :=
  s.modify p fun r => { r with value := x }

/-- The operand of a log entry with the name of its register. -/
def named (s : Store) (operand : Operand Position) : Operand String := operand.map s.nameAt

theorem register?_modify (s : Store) (p q : Position) (f : Register → Register) :
    (s.modify p f).register? q = if p = q then (s.register? q).map f else s.register? q := by
  simp [modify, register?, Array.getElem?_modify]

@[simp] theorem size_modify (s : Store) (p : Position) (f : Register → Register) :
    (s.modify p f).size = s.size := by
  simp [modify, size]

@[simp] theorem position?_modify (s : Store) (p : Position) (f : Register → Register)
    (name : String) : (s.modify p f).position? name = s.position? name := rfl

theorem isResolvedAt_iff (s : Store) (p : Position) :
    s.isResolvedAt p ↔ s.pendingEntryAt? p = none := by
  unfold isResolvedAt pendingEntryAt?
  cases s.register? p with
  | none => simp
  | some r => simpa using Register.isResolved_iff r

theorem lt_size_of_not_isResolvedAt {s : Store} {p : Position} (h : s.isResolvedAt p = false) :
    p < s.size := by
  unfold isResolvedAt register? at h
  rcases Nat.lt_or_ge p s.size with hp | hp
  · exact hp
  · rw [Array.getElem?_eq_none hp] at h
    simp at h

end Store

end LazyRegisters
