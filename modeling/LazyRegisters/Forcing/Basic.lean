import LazyRegisters.Store
import LazyRegisters.Journal
import Std.Data.TreeSet

/-!
# Forcing: the moves

Forcing a register applies all its pending entries. An entry whose operand is a register that has
pending entries itself waits until that register has been forced. The registers being forced form
a path, each waiting for the one entered after it. A register that is met again while it is on the
path depends on itself.

`Forcing.move` looks at the innermost register of the path and says what is to be done; `enter`,
`leave`, `apply` and `report` do it.
-/

namespace LazyRegisters

/-- A forcing under way. -/
structure Forcing where
  store : Store
  journal : Journal
  /-- The registers being forced, innermost first. -/
  path : List Position
  /-- The registers on the path. -/
  onPath : Std.TreeSet Position

namespace Forcing

/-- What is to be done next. -/
inductive Move where
  /-- The path is empty: everything has been forced. -/
  | finish
  /-- The innermost register is resolved. -/
  | leave
  /-- The innermost register waits for this one. -/
  | enter (dependency : Position)
  /-- The operand of the pending entry is known. -/
  | apply (register : Position) (operand : Float)
  /-- The innermost register waits for one that is on the path. -/
  | cycle (dependency : Position)

/-- The next move. -/
def move (f : Forcing) : Move :=
  match f.path with
  | [] => .finish
  | top :: _ =>
    match f.store.pendingEntryAt? top with
    | none => .leave
    | some entry =>
      match entry.operand with
      | .number x => .apply top x
      | .register d =>
        if f.onPath.contains d then .cycle d
        else if f.store.isResolvedAt d then .apply top (f.store.valueAt d)
        else .enter d

def enter (p : Position) (f : Forcing) : Forcing :=
  { store := f.store
    journal := f.journal.note (.resolving (f.store.nameAt p) f.path.length)
    path := p :: f.path
    onPath := f.onPath.insert p }

def leave (f : Forcing) : Forcing :=
  match f.path with
  | [] => f
  | p :: path => { f with path := path, onPath := f.onPath.erase p }

/-- What applying the first pending entry of a register with this operand amounts to. -/
def application? (p : Position) (operand : Float) (s : Store) : Option Application :=
  (s.register? p).bind fun r =>
    r.pendingEntry?.map fun entry =>
      { register := r.name
        index := r.cursor
        operation := entry.operation
        operand := operand
        value := entry.operation.apply r.value operand }

/-- Applies the first pending entry of a register and tells of it. -/
def apply (p : Position) (operand : Float) (f : Forcing) : Forcing :=
  match application? p operand f.store with
  | none => f
  | some a =>
    { f with
      store := f.store.applyPending p operand
      journal := (f.journal.note (.applied a)).emit (.applied a) }

/-- The registers of the path from a register on, which closes the cycle, outermost first. -/
def cycleAt (p : Position) (f : Forcing) : List Position :=
  p :: (f.path.takeWhile (· != p)).reverse ++ [p]

/-- The reason for giving up at a register that is on the path. -/
def cycleReason (p : Position) (f : Forcing) : Reason :=
  .cyclic (f.store.nameAt p) ((f.cycleAt p).map f.store.nameAt)

/-- Tells of the cycle that a register closes. -/
def report (p : Position) (f : Forcing) : Forcing :=
  let name := f.store.nameAt p
  let names := (f.cycleAt p).map f.store.nameAt
  { f with journal := (f.journal.note (.cycle name names)).emit (.cycleDetected name) }

end Forcing

end LazyRegisters
