import LazyRegisters.Command

/-!
# Registers

A register has a value and a log of operations. Operations are appended to the log when they are
recorded and applied to the value, in order, when the value is asked for; the cursor stands at the
first entry that has not been applied.
-/

namespace LazyRegisters

/-- The place of a register among all registers, in the order of first mention. -/
abbrev Position := Nat

/-- An operation in the log of a register. -/
structure Entry (Ref : Type) where
  operation : Operation
  operand : Operand Ref
  applied : Bool
  deriving DecidableEq, Repr

/-- A named value with the operations recorded against it. -/
structure Register where
  name : String
  value : Float := 0
  log : Array (Entry Position) := #[]
  cursor : Nat := 0
  deriving DecidableEq, Repr

namespace Register

def pendingCount (r : Register) : Nat := r.log.size - r.cursor

def pendingEntry? (r : Register) : Option (Entry Position) := r.log[r.cursor]?

/-- Whether every entry has been applied. -/
def isResolved (r : Register) : Bool := r.log.size ≤ r.cursor

/-- The index of the first entry that has not been applied. -/
def firstPending? (r : Register) : Option Nat := if r.isResolved then none else some r.cursor

def record (op : Operation) (operand : Operand Position) (r : Register) : Register :=
  { r with log := r.log.push ⟨op, operand, false⟩ }

/-- Applies the first pending entry with the value of its operand. -/
def applyPending (operand : Float) (r : Register) : Register :=
  match r.pendingEntry? with
  | none => r
  | some entry =>
    { r with
      value := entry.operation.apply r.value operand
      log := r.log.modify r.cursor fun e => { e with applied := true }
      cursor := r.cursor + 1 }

/-- The register as it is listed: its value so far and how much is pending. -/
def text (r : Register) : String :=
  r.name ++ " = " ++ Number.text Number.Style.result r.value ++
    if r.pendingCount = 0 then "" else " (" ++ toString r.pendingCount ++ " pending)"

theorem isResolved_iff (r : Register) : r.isResolved ↔ r.pendingEntry? = none := by
  simp [isResolved, pendingEntry?]

theorem applyPending_of_resolved {r : Register} (h : r.isResolved) (x : Float) :
    r.applyPending x = r := by
  rw [applyPending, (isResolved_iff r).1 h]

@[simp] theorem name_applyPending (r : Register) (x : Float) :
    (r.applyPending x).name = r.name := by
  unfold applyPending; split <;> rfl

@[simp] theorem size_log_applyPending (r : Register) (x : Float) :
    (r.applyPending x).log.size = r.log.size := by
  unfold applyPending; split <;> simp

theorem pendingCount_applyPending (r : Register) (x : Float) :
    (r.applyPending x).pendingCount = r.pendingCount - 1 := by
  unfold pendingCount
  rw [size_log_applyPending]
  unfold applyPending
  cases h : r.pendingEntry? with
  | none =>
    have := (isResolved_iff r).2 h
    simp only [isResolved, decide_eq_true_eq] at this
    simp only; omega
  | some e => simp only; omega

theorem pendingCount_pos {r : Register} {e : Entry Position} (h : r.pendingEntry? = some e) :
    0 < r.pendingCount := by
  have := (Array.getElem?_eq_some_iff.1 h).1
  unfold pendingCount
  omega

end Register

end LazyRegisters
