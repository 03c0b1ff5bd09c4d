import LazyRegisters.Text.Distance

/-!
# Operations

The arithmetic operations a log entry can hold, the names that commands use for them, and the
suggestion made for a misspelt name.
-/

namespace LazyRegisters

/-- What an entry does to the value of its register. -/
inductive Operation where
  | add
  | subtract
  | multiply
  deriving DecidableEq, Repr

namespace Operation

/-- All operations, in the order in which they are listed. -/
def all : List Operation := [add, subtract, multiply]

def name : Operation → String
  | add => "add"
  | subtract => "subtract"
  | multiply => "multiply"

def ofName? (name : String) : Option Operation := all.find? fun op => op.name == name

/-- The new value of a register: the operation on its value and the operand. -/
def apply : Operation → Float → Float → Float
  | add, value, operand => value + operand
  | subtract, value, operand => value - operand
  | multiply, value, operand => value * operand

/-- Names further away than this get no suggestion. -/
def maxSuggestionDistance : Nat := 2

/-- The operation whose name is nearest to a misspelt one, if it is near enough. -/
def suggest? (name : String) : Option Operation :=
  (List.range (maxSuggestionDistance + 1)).findSome? fun d =>
    all.find? fun op => Text.distance name.toList op.name.toList == d

structure UnknownName where
  name : String
  deriving DecidableEq, Repr

def UnknownName.message (e : UnknownName) : String := "unknown operator '" ++ e.name ++ "'"

/-- Reads a name that stands alone. -/
def parse (name : String) : Except UnknownName Operation :=
  match ofName? name with
  | some op => .ok op
  | none => .error ⟨name⟩

theorem mem_all (op : Operation) : op ∈ all := by cases op <;> decide

@[simp] theorem ofName?_name (op : Operation) : ofName? op.name = some op := by
  cases op <;> decide

end Operation

end LazyRegisters
