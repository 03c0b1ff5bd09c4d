import LazyRegisters.Operation
import LazyRegisters.Text.Word

/-!
# Rejections

A line that cannot be obeyed is rejected for a reason and quoted. A reason that concerns the line
as a whole quotes it unchanged; any other quotes its words with single spaces between them.
-/

namespace LazyRegisters

/-- Why a command is rejected. -/
inductive Reason where
  /-- The line has neither two nor three words. -/
  | arity
  /-- The second of three words names no operation. -/
  | unknownOperation (name : String) (suggestion : Option Operation)
  /-- The target of an operation is a numeral. -/
  | numericName (name : String)
  /-- The first of two words is not the print keyword. -/
  | malformedPrint
  /-- The register to print was never mentioned. -/
  | undeclared (name : String)
  /-- Forcing came back to a register still being forced; the cycle starts and ends with it. -/
  | cyclic (register : String) (cycle : List String)
  deriving DecidableEq, Repr

namespace Reason

/-- The sentence that tells the reason. -/
def message : Reason → String
  | arity => "Command must have 2 or 3 arguments."
  | unknownOperation name suggestion =>
    "Operation \"" ++ name ++ "\" is not defined." ++
      match suggestion with
      | some op => " Did you mean \"" ++ op.name ++ "\"?"
      | none => ""
  | numericName name => "Register \"" ++ name ++ "\" should not be a number."
  | malformedPrint | undeclared _ => "Print command is not well specified."
  | cyclic register _ => "Register \"" ++ register ++ "\" is dependent on itself."

/-- Whether the reason concerns the line as a whole. -/
def quotesLine : Reason → Bool
  | arity | cyclic _ _ => true
  | _ => false

end Reason

/-- The names along a dependency path, with arrows between them. -/
def pathText (names : List String) : String := " -> ".intercalate names

/-- A rejected command: the quoted line and the reason. -/
structure Rejection where
  line : String
  reason : Reason
  deriving DecidableEq, Repr

namespace Rejection

def ofWords (ws : List String) (reason : Reason) : Rejection := ⟨Text.joinWords ws, reason⟩

/-- Quotes `line` instead, if the reason concerns it as a whole. -/
def quoting (line : String) (r : Rejection) : Rejection :=
  if r.reason.quotesLine then ⟨line, r.reason⟩ else r

def ofLine (line : String) (reason : Reason) : Rejection :=
  (ofWords (Text.words line) reason).quoting line

/-- What is reported of a rejected command. -/
def message (r : Rejection) : String :=
  "Invalid command \"" ++ r.line ++ "\" was ignored. " ++ r.reason.message

/-- The text of the dependency path, where there is one. -/
def cycleText? (r : Rejection) : Option String :=
  match r.reason with
  | .cyclic _ cycle => some (pathText cycle)
  | _ => none

@[simp] theorem reason_ofLine (line : String) (reason : Reason) :
    (ofLine line reason).reason = reason := by
  unfold ofLine quoting ofWords
  split <;> rfl

end Rejection

end LazyRegisters
