import LazyRegisters.Number.Numeral
import LazyRegisters.Number.Style
import LazyRegisters.Rejection

/-!
# Commands

A line of three words records an operation against a register, `print` and a name asks for the
value of a register, and `quit` ends the program. Whether a register exists is not asked here: that
depends on the commands before.
-/

namespace LazyRegisters

/-- What an operation is applied with: a number, or the value of a register. Commands refer to
registers by name and logs by position. -/
inductive Operand (Ref : Type) where
  | number (value : Float)
  | register (ref : Ref)
  deriving DecidableEq, Repr

namespace Operand

/-- A numeral is a number and any other word is the name of a register. -/
def ofWord (word : String) : Operand String :=
  match Number.ofWord? word with
  | some x => number x
  | none => register word

def isRegister {Ref : Type} : Operand Ref → Bool
  | number _ => false
  | register _ => true

/-- The operand as a word, a number written in the given style. -/
def text (style : Number.Style) : Operand String → String
  | number x => Number.text style x
  | register name => name

/-- The operand with its reference replaced. -/
def map {Ref Ref' : Type} (f : Ref → Ref') : Operand Ref → Operand Ref'
  | number x => number x
  | register r => register (f r)

end Operand

/-- A well-formed command. -/
inductive Command where
  | operate (target : String) (operation : Operation) (operand : Operand String)
  | print (register : String)
  | quit
  deriving DecidableEq, Repr

namespace Command

def printKeyword : String := "print"

def quitKeyword : String := "quit"

/-- The command made of the given words. The name of the operation is looked at before the
target. -/
def ofWords : List String → Except Reason Command
  | [word] => if word = quitKeyword then .ok quit else .error .arity
  | [keyword, register] =>
    if keyword = printKeyword then .ok (print register) else .error .malformedPrint
  | [target, name, operand] =>
    match Operation.ofName? name with
    | none => .error (.unknownOperation name (Operation.suggest? name))
    | some op =>
      if Number.isNumeral target then .error (.numericName target)
      else .ok (operate target op (Operand.ofWord operand))
  | _ => .error .arity

def parse (line : String) : Except Rejection Command :=
  (ofWords (Text.words line)).mapError (Rejection.ofLine line)

def toWords : Command → List String
  | operate target op operand => [target, op.name, operand.text Number.Style.plain]
  | print register => [printKeyword, register]
  | quit => [quitKeyword]

/-- The command as a line. -/
def text (c : Command) : String := Text.joinWords c.toWords

end Command

end LazyRegisters
