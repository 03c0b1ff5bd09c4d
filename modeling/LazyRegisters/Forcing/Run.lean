import LazyRegisters.Forcing.Progress

/-!
# Forcing to the end

`Forcing.run` makes moves until the path is empty or a cycle is met; by `Forcing.Progress` one of
the two comes about. Entries applied before a cycle is met stay applied, and the entry that closed
the cycle stays pending.
-/

namespace LazyRegisters

namespace Forcing

/-- How a forcing ended, and what it left behind. -/
structure Ending where
  /-- Why forcing was given up, if it was. -/
  failure : Option Reason
  store : Store
  journal : Journal

/-- The forcing of a register, with the register alone on its path. -/
def start (store : Store) (journal : Journal) (root : Position) : Forcing :=
  enter root ⟨store, journal, [], ∅⟩

/-- Makes moves to the end. -/
def run (f : Forcing) : Ending :=
  match _h : f.move with
  | .finish => ⟨none, f.store, f.journal⟩
  | .leave => run f.leave
  | .enter d => run (f.enter d)
  | .apply p x => run (f.apply p x)
  | .cycle d =>
    let reason := f.cycleReason d
    let f := f.report d
    ⟨some reason, f.store, f.journal⟩
termination_by f.movesLeft
decreasing_by
  · exact movesLeft_leave _h
  · exact movesLeft_enter _h
  · exact movesLeft_apply _h

end Forcing

end LazyRegisters
