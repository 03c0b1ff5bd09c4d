import LazyRegisters.Proofs.DependencyPath
import LazyRegisters.Proofs.Lines

/-!
# What has been observed makes no difference

The journal and the outcomes of a calculator are written and never read. So calculators with the
same store go on alike, whatever has been observed of them before: forcing a register gives the same
(`valueOf_congr`), and a line is obeyed with the same result (`InStep.executeLine`).
-/

namespace LazyRegisters

namespace Forcing

def observed (j : Journal) (f : Forcing) : Forcing := { f with journal := j }

theorem move_observed (j : Journal) (f : Forcing) : (f.observed j).move = f.move := rfl

theorem leave_observed (j : Journal) (f : Forcing) :
    (f.observed j).leave = f.leave.observed j := by
  obtain ⟨store, journal, _ | ⟨p, path⟩, onPath⟩ := f <;> rfl

theorem exists_enter_observed (j : Journal) (d : Position) (f : Forcing) :
    ∃ j', (f.observed j).enter d = (f.enter d).observed j' := ⟨_, rfl⟩

theorem exists_apply_observed (j : Journal) (p : Position) (x : Float) (f : Forcing) :
    ∃ j', (f.observed j).apply p x = (f.apply p x).observed j' := by
  unfold apply observed
  dsimp only
  cases application? p x f.store with
  | none => exact ⟨j, rfl⟩
  | some a => exact ⟨_, rfl⟩

/-- A forcing ends the same way with any journal. -/
theorem run_observed (j : Journal) (f : Forcing) :
    (f.observed j).run.failure = f.run.failure ∧ (f.observed j).run.store = f.run.store := by
  induction f using run.induct generalizing j with
  | case1 f hmove =>
    rw [run_of_finish hmove, run_of_finish ((move_observed j f).trans hmove)]
    exact ⟨rfl, rfl⟩
  | case2 f hmove ih =>
    rw [run_of_leave hmove, run_of_leave ((move_observed j f).trans hmove), leave_observed]
    exact ih j
  | case3 f d hmove ih =>
    obtain ⟨j', hj'⟩ := exists_enter_observed j d f
    rw [run_of_enter hmove, run_of_enter ((move_observed j f).trans hmove), hj']
    exact ih j'
  | case4 f p x hmove ih =>
    obtain ⟨j', hj'⟩ := exists_apply_observed j p x f
    rw [run_of_apply hmove, run_of_apply ((move_observed j f).trans hmove), hj']
    exact ih j'
  | case5 f d hmove =>
    rw [run_of_cycle hmove, run_of_cycle ((move_observed j f).trans hmove)]
    exact ⟨rfl, rfl⟩

theorem run_start (store : Store) (journal journal' : Journal) (root : Position) :
    (start store journal' root).run.failure = (start store journal root).run.failure ∧
      (start store journal' root).run.store = (start store journal root).run.store :=
  run_observed (start store journal' root).journal (start store journal root)

end Forcing

namespace Calculator

variable {c d : Calculator} {line : String}

/-- Two calculators that have come as far as each other. -/
structure InStep (c d : Calculator) : Prop where
  store_eq : d.store = c.store
  halted_eq : d.halted = c.halted

/-- What forcing a register gives and leaves behind depends on the store alone. -/
theorem valueOf_congr (h : d.store = c.store) (name : String) :
    (d.valueOf name).1 = (c.valueOf name).1 ∧
      (d.valueOf name).2.store = (c.valueOf name).2.store := by
  obtain ⟨store, journal, outcomes, halted⟩ := c
  obtain ⟨store', journal', outcomes', halted'⟩ := d
  cases h
  unfold valueOf
  dsimp only
  cases store.position? name with
  | none => exact ⟨rfl, rfl⟩
  | some root =>
    obtain ⟨hfailure, hstore⟩ := Forcing.run_start store journal journal' root
    dsimp only
    rw [hfailure, hstore]
    cases (Forcing.start store journal root).run.failure with
    | none => exact ⟨rfl, rfl⟩
    | some reason => exact ⟨rfl, rfl⟩

theorem InStep.operate (h : c.InStep d) (target : String) (op : Operation)
    (operand : Operand String) :
    (c.operate target op operand).InStep (d.operate target op operand) := by
  obtain ⟨store, journal, outcomes, halted⟩ := c
  obtain ⟨store', journal', outcomes', halted'⟩ := d
  obtain ⟨hstore, hhalted⟩ := h
  cases hstore
  exact ⟨rfl, hhalted⟩

theorem InStep.valueOf (h : c.InStep d) (name : String) :
    (c.valueOf name).2.InStep (d.valueOf name).2 where
  store_eq := (valueOf_congr h.store_eq name).2
  halted_eq := by rw [halted_valueOf, halted_valueOf, h.halted_eq]

theorem InStep.executeLine (h : c.InStep d) (line : String) :
    (d.executeLine line).1 = (c.executeLine line).1 ∧
      (c.executeLine line).2.InStep (d.executeLine line).2 := by
  cases hparse : Command.parse line with
  | error rejection =>
    rw [executeLine_of_parse_error hparse, executeLine_of_parse_error hparse]
    exact ⟨rfl, h⟩
  | ok command =>
    cases command with
    | operate target op operand =>
      rw [executeLine_of_operate hparse, executeLine_of_operate hparse]
      exact ⟨rfl, h.operate target op operand⟩
    | print name =>
      have hvalue := (valueOf_congr h.store_eq name).1
      have hkept := h.valueOf name
      rcases hc : c.valueOf name with ⟨result, c'⟩
      rcases hd : d.valueOf name with ⟨result', d'⟩
      rw [hc, hd] at hvalue hkept
      cases hvalue
      cases result with
      | error reason =>
        rw [executeLine_of_print_error hparse hc, executeLine_of_print_error hparse hd]
        exact ⟨rfl, hkept⟩
      | ok v =>
        rw [executeLine_of_print_ok hparse hc, executeLine_of_print_ok hparse hd]
        exact ⟨rfl, hkept.store_eq, hkept.halted_eq⟩
    | quit =>
      rw [executeLine_of_quit hparse, executeLine_of_quit hparse]
      exact ⟨rfl, h.store_eq, rfl⟩

/-- Reporting a rejection or not makes no difference. -/
theorem InStep.step (h : c.InStep d) (hhalted : c.halted = false) (line : String) :
    (c.step line).InStep (d.executeLine line).2 := by
  obtain ⟨-, hkept⟩ := h.executeLine line
  rcases hexec : c.executeLine line with ⟨rejection | ⟨⟩, c'⟩ <;> rw [hexec] at hkept
  · rw [step_of_error hhalted hexec]
    exact ⟨hkept.store_eq, hkept.halted_eq⟩
  · rw [step_of_ok hhalted hexec]
    exact hkept

end Calculator

end LazyRegisters
