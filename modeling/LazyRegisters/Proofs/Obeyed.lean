import LazyRegisters.Proofs.Calls

/-!
# The commands obeyed

Calls may obey commands: those of their lines that are commands, as long as the program has not been
ended. `obeyed` lists them. The operate commands among them are the only things that ever reach the
logs; all else that a call does to the registers is to apply entries (`store_perform`). So a
property of stores that outlives applications holds after calls if the operations obeyed keep it
(`performAll_store_induction`).
-/

namespace LazyRegisters

/-- A command, or none, has been obeyed: an operation has been recorded, and any other command only
lets entries be applied. -/
inductive Store.Obeys (s : Store) : Option Command → Store → Prop where
  | operate (target : String) (op : Operation) (operand : Operand String) :
    s.Obeys (some (.operate target op operand)) (s.operate target op operand)
  | evolve {command : Option Command} {touched : Position → Prop} {as : List Application}
    {s' : Store} (hcommand : ∀ target op operand, command ≠ some (.operate target op operand))
    (hev : s.Evolves touched as s') : s.Obeys command s'

/-- Nothing but an operate command changes the store by itself. -/
theorem Store.obeys_self (s : Store) {command : Option Command}
    (hcommand : ∀ target op operand, command ≠ some (.operate target op operand)) :
    s.Obeys command s := by
  have hev : s.Evolves (fun _ => False) [] s := .refl
  exact .evolve hcommand hev

namespace Calculator

/-- The command that a call obeys, if it obeys one. The commands of a run are those of its steps. -/
def command? (c : Calculator) : Call → Option Command
  | .step line => if c.halted then none else (Command.parse line).toOption
  | .executeLine line => (Command.parse line).toOption
  | .execute command => some command
  | .run _ | .valueOf _ | .listen => none

/-- The commands obeyed by calls that are not runs. -/
def commands : List Call → Calculator → List Command
  | [], _ => []
  | call :: calls, c => (c.command? call).toList ++ commands calls (c.perform call)

def obeyed (calls : List Call) (c : Calculator) : List Command :=
  commands (calls.flatMap Call.parts) c

variable {c : Calculator}

/-! ## One call -/

theorem obeys_execute (hs : c.store.Coherent) (command : Command) :
    c.store.Obeys (some command) (c.execute command).2.store := by
  cases command with
  | operate target op operand => exact .operate target op operand
  | print name =>
    obtain ⟨touched, as, hev⟩ := c.evolves_valueOf hs name
    have hstore : (c.execute (.print name)).2.store = (c.valueOf name).2.store := by
      rcases hv : c.valueOf name with ⟨reason | value, c'⟩ <;> simp only [execute, hv, report]
    exact .evolve (by simp) (hstore ▸ hev)
  | quit => exact c.store.obeys_self (by simp)

theorem obeys_executeLine (hs : c.store.Coherent) (line : String) :
    c.store.Obeys (Command.parse line).toOption (c.executeLine line).2.store := by
  cases hparse : Command.parse line with
  | error rejection =>
    rw [executeLine_of_parse_error hparse]
    exact c.store.obeys_self nofun
  | ok command =>
    rw [executeLine, hparse]
    exact obeys_execute hs command

theorem store_step (h : c.halted = false) (line : String) :
    (c.step line).store = (c.executeLine line).2.store := by
  rcases hline : c.executeLine line with ⟨rejection | ⟨⟩, c'⟩
  · rw [step_of_error h hline]
    rfl
  · rw [step_of_ok h hline]

theorem store_perform (hs : c.store.Coherent) {call : Call} (h : call.Single) :
    c.store.Obeys (c.command? call) (c.perform call).store := by
  cases call with
  | step line =>
    by_cases hhalted : c.halted
    · rw [perform, command?, if_pos hhalted, step_of_halted hhalted]
      exact c.store.obeys_self nofun
    · rw [perform, command?, if_neg hhalted, store_step (Bool.eq_false_iff.2 hhalted)]
      exact obeys_executeLine hs line
  | run lines => exact absurd rfl (h lines)
  | executeLine line => exact obeys_executeLine hs line
  | execute command => exact obeys_execute hs command
  | valueOf name =>
    obtain ⟨touched, as, hev⟩ := c.evolves_valueOf hs name
    exact .evolve nofun hev
  | listen => exact c.store.obeys_self nofun

/-! ## All calls -/

/-- What holds of the store and outlives applications holds after all calls, if each operation that
was obeyed keeps it. -/
theorem performAll_store_induction {P : Store → Prop} {calls : List Call} (hs : c.store.Coherent)
    (hevolve : ∀ {s s' : Store} {touched : Position → Prop} {as : List Application}, s.Coherent →
      s.Evolves touched as s' → P s → P s')
    (hoperate : ∀ {s : Store} {target : String} {op : Operation} {operand : Operand String},
      s.Coherent → .operate target op operand ∈ c.obeyed calls → P s →
        P (s.operate target op operand))
    (hc : P c.store) : P (c.performAll calls).store := by
  have hsingle : ∀ call ∈ calls.flatMap Call.parts, call.Single := fun _ =>
    Call.single_of_mem_flatMap
  -- Runs are taken apart first, so that each call obeys at most one command.
  rw [← performAll_parts]
  rw [obeyed] at hoperate
  generalize calls.flatMap Call.parts = calls at hoperate hsingle ⊢
  induction calls generalizing c with
  | nil => exact hc
  | cons call calls ih =>
    have hcall := store_perform hs (hsingle call List.mem_cons_self)
    have hfirst {command : Command} (h : c.command? call = some command) :
        command ∈ commands (call :: calls) c := by
      simp [commands, h]
    refine ih (c := c.perform call) ?_ ?_ (fun hcs hmem => hoperate hcs ?_)
      fun call' h => hsingle call' (List.mem_cons_of_mem call h)
    · exact coherent_performAll [call] hs
    · generalize c.command? call = command, (c.perform call).store = s' at hcall hfirst
      cases hcall with
      | operate target op operand => exact hoperate hs (hfirst rfl) hc
      | evolve _ hev => exact hevolve hs hev hc
    · exact List.mem_append_right _ hmem

/-- What is obeyed in a call that does not execute a command as such is the command of a line. -/
theorem exists_parse_of_command? {call : Call} {command : Command}
    (hcall : ∀ command, call ≠ .execute command) (h : c.command? call = some command) :
    ∃ line, Command.parse line = .ok command := by
  have hline {line : String} (h : (Command.parse line).toOption = some command) :
      ∃ line, Command.parse line = .ok command := by
    refine ⟨line, ?_⟩
    cases hparse : Command.parse line with
    | error rejection => rw [hparse] at h; cases h
    | ok command' => rw [hparse] at h; exact congrArg Except.ok (Option.some.inj h)
  cases call with
  | step line =>
    rw [command?] at h
    split at h
    · cases h
    · exact hline h
  | executeLine line => exact hline h
  | execute command' => exact absurd rfl (hcall command')
  | run _ | valueOf _ | listen => cases h

theorem exists_parse_of_mem_obeyed {calls : List Call}
    (hcalls : ∀ command, .execute command ∉ calls) {command : Command}
    (h : command ∈ c.obeyed calls) : ∃ line, Command.parse line = .ok command := by
  have hparts : ∀ command, .execute command ∉ calls.flatMap Call.parts := by
    intro command hmem
    obtain ⟨call, hcall, hpart⟩ := List.mem_flatMap.1 hmem
    cases call with
    | execute command' =>
      obtain rfl : command = command' := by simpa [Call.parts] using hpart
      exact hcalls command hcall
    | _ => simp [Call.parts] at hpart
  rw [obeyed] at h
  generalize calls.flatMap Call.parts = calls at h hparts
  induction calls generalizing c with
  | nil => cases h
  | cons call calls ih =>
    rcases List.mem_append.1 h with h | h
    · have hcall : ∀ command', call ≠ .execute command' := by
        rintro command' rfl
        exact hparts command' List.mem_cons_self
      exact exists_parse_of_command? hcall (by simpa using h)
    · exact ih h fun command' hmem => hparts command' (List.mem_cons_of_mem call hmem)

end Calculator

end LazyRegisters
