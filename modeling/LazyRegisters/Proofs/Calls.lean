import LazyRegisters.Proofs.DependencyPath
import LazyRegisters.Proofs.Lines

/-!
# Calls of a calculator

A calculator is used through a handful of calls. One that is not a run records an operation, forces
a register, or leaves the registers and the events alone (`effect_perform`); a run is its steps, one
after the other (`performAll_parts`). So what recording and forcing keep holds after any sequence of
calls (`performAll_induction`); in particular the store stays coherent.

`valueOf_spec` says all there is to say about a forcing that is asked for by name.
-/

namespace LazyRegisters

instance decidableEqExcept {ε α : Type} [DecidableEq ε] [DecidableEq α] : DecidableEq (Except ε α)
  | .error e, .error e' => decidable_of_iff (e = e') (by simp)
  | .ok a, .ok a' => decidable_of_iff (a = a') (by simp)
  | .error _, .ok _ => isFalse (by simp)
  | .ok _, .error _ => isFalse (by simp)

/-- A call of a calculator. -/
inductive Call where
  | step (line : String)
  | run (lines : List String)
  | executeLine (line : String)
  | execute (command : Command)
  | valueOf (name : String)
  | listen

namespace Call

/-- The calls that a call consists of: those of a run are its steps. -/
def parts : Call → List Call
  | run lines => lines.map step
  | call => [call]

/-- The call is not a run. -/
def Single (call : Call) : Prop := ∀ lines, call ≠ run lines

theorem single_of_mem_parts {call part : Call} (h : part ∈ call.parts) : part.Single := by
  intro lines
  rintro rfl
  cases call <;> simp [parts] at h

theorem single_of_mem_flatMap {calls : List Call} {part : Call}
    (h : part ∈ calls.flatMap parts) : part.Single := by
  obtain ⟨call, -, hpart⟩ := List.mem_flatMap.1 h
  exact single_of_mem_parts hpart

end Call

/-- The store after an operation has been recorded. -/
def Store.operate (target : String) (op : Operation) (operand : Operand String) (s : Store) :
    Store :=
  let (p, s) := s.declare target
  let (operand, s) := s.declareOperand operand
  s.record p op operand

namespace Calculator

/-- Makes a call and discards what it returns. -/
def perform (c : Calculator) : Call → Calculator
  | .step line => c.step line
  | .run lines => c.run lines
  | .executeLine line => (c.executeLine line).2
  | .execute command => (c.execute command).2
  | .valueOf name => (c.valueOf name).2
  | .listen => c.listen

def performAll (calls : List Call) (c : Calculator) : Calculator := calls.foldl perform c

theorem performAll_append (calls calls' : List Call) (c : Calculator) :
    c.performAll (calls ++ calls') = (c.performAll calls).performAll calls' :=
  List.foldl_append

theorem performAll_call_parts (call : Call) (c : Calculator) :
    c.performAll call.parts = c.perform call := by
  cases call with
  | run lines => exact List.foldl_map
  | _ => rfl

theorem performAll_parts (calls : List Call) (c : Calculator) :
    c.performAll (calls.flatMap Call.parts) = c.performAll calls := by
  induction calls generalizing c with
  | nil => rfl
  | cons call calls ih =>
    rw [List.flatMap_cons, performAll_append, performAll_call_parts, ih]
    rfl

/-! ## What a call does -/

theorem listeners_valueOf (c : Calculator) (name : String) :
    (c.valueOf name).2.journal.listeners = c.journal.listeners := by
  cases hroot : c.store.position? name with
  | none => simp only [valueOf, hroot]
  | some root =>
    have hrun := (Forcing.start c.store c.journal root).listeners_run
    simp only [valueOf, hroot]
    cases hfailure : (Forcing.start c.store c.journal root).run.failure with
    | none => exact hrun
    | some reason => exact hrun

/-- A change of the registers and the events: there is none, or an operation is recorded, or a
register is forced. Listeners only join. -/
structure Effect (c c' : Calculator) : Prop where
  listeners : c.journal.listeners.toList <+: c'.journal.listeners.toList
  kind : (c'.store = c.store ∧ c'.journal.events = c.journal.events) ∨
    (∃ target op operand, c'.store = c.store.operate target op operand ∧
      c'.journal.events = c.journal.events) ∨
    ∃ name, c'.store = (c.valueOf name).2.store ∧
      c'.journal.events = (c.valueOf name).2.journal.events

theorem effect_refl (c : Calculator) : c.Effect c := ⟨List.prefix_rfl, .inl ⟨rfl, rfl⟩⟩

theorem effect_valueOf (c : Calculator) (name : String) : c.Effect (c.valueOf name).2 :=
  ⟨by simp [listeners_valueOf], .inr (.inr ⟨name, rfl, rfl⟩)⟩

/-- Neither outcomes nor records count. -/
theorem Effect.congr {c c' c'' : Calculator} (h : c.Effect c') (hstore : c''.store = c'.store)
    (hevents : c''.journal.events = c'.journal.events)
    (hlisteners : c''.journal.listeners = c'.journal.listeners) : c.Effect c'' := by
  refine ⟨hlisteners ▸ h.listeners, ?_⟩
  rw [hstore, hevents]
  exact h.kind

theorem effect_execute (command : Command) (c : Calculator) : c.Effect (c.execute command).2 := by
  cases command with
  | operate target op operand =>
    exact ⟨List.prefix_rfl, .inr (.inl ⟨target, op, operand, rfl, rfl⟩)⟩
  | print name =>
    have hforced := c.effect_valueOf name
    rcases hv : c.valueOf name with ⟨reason | value, c'⟩ <;> rw [hv] at hforced <;>
      simp only [execute, hv]
    · exact hforced
    · exact hforced.congr rfl rfl rfl
  | quit => exact c.effect_refl.congr rfl rfl rfl

theorem effect_executeLine (line : String) (c : Calculator) :
    c.Effect (c.executeLine line).2 := by
  unfold executeLine
  split
  · exact c.effect_refl
  · exact c.effect_execute _

theorem effect_step (c : Calculator) (line : String) : c.Effect (c.step line) := by
  have hline := c.effect_executeLine line
  unfold step
  split
  · exact c.effect_refl
  · split
    · next he => rwa [he] at hline
    · next he =>
      rw [he] at hline
      exact hline.congr rfl rfl rfl

theorem effect_perform {call : Call} (h : call.Single) (c : Calculator) :
    c.Effect (c.perform call) := by
  cases call with
  | step line => exact c.effect_step line
  | run lines => exact absurd rfl (h lines)
  | executeLine line => exact c.effect_executeLine line
  | execute command => exact c.effect_execute command
  | valueOf name => exact c.effect_valueOf name
  | listen => exact ⟨⟨[_], (Array.toList_push).symm⟩, .inl ⟨rfl, rfl⟩⟩

/-- What every call that is not a run keeps holds after all calls. -/
theorem performAll_single_induction {P : Calculator → Prop}
    (hperform : ∀ c call, call.Single → P c → P (c.perform call)) (calls : List Call)
    (c : Calculator) (hc : P c) : P (c.performAll calls) := by
  rw [← performAll_parts]
  have hsingle : ∀ call ∈ calls.flatMap Call.parts, call.Single := fun _ =>
    Call.single_of_mem_flatMap
  generalize calls.flatMap Call.parts = calls at hsingle
  induction calls generalizing c with
  | nil => exact hc
  | cons call calls ih =>
    exact ih (c.perform call) (hperform c call (hsingle call List.mem_cons_self) hc)
      fun call' h => hsingle call' (List.mem_cons_of_mem call h)

/-- What recording an operation and forcing a register keep holds after all calls. -/
theorem performAll_induction {P : Store → Array Event → Prop}
    (hoperate : ∀ s events target op operand, P s events → P (s.operate target op operand) events)
    (hvalueOf : ∀ (c : Calculator) name, P c.store c.journal.events →
      P (c.valueOf name).2.store (c.valueOf name).2.journal.events)
    (calls : List Call) (c : Calculator) (hc : P c.store c.journal.events) :
    P (c.performAll calls).store (c.performAll calls).journal.events := by
  refine performAll_single_induction (P := fun c => P c.store c.journal.events) ?_ calls c hc
  intro c call hsingle hc
  obtain ⟨hstore, hevents⟩ | ⟨target, op, operand, hstore, hevents⟩ | ⟨name, hstore, hevents⟩ :=
    (effect_perform hsingle c).kind <;> rw [hstore, hevents]
  · exact hc
  · exact hoperate _ _ target op operand hc
  · exact hvalueOf c name hc

theorem listeners_performAll (calls : List Call) (c : Calculator) :
    c.journal.listeners.toList <+: (c.performAll calls).journal.listeners.toList :=
  performAll_single_induction
    (P := fun c' => c.journal.listeners.toList <+: c'.journal.listeners.toList)
    (fun c' _ hsingle hc => hc.trans (effect_perform hsingle c').listeners) calls c
    List.prefix_rfl

/-! ## Forcing by name -/

theorem valueOf_of_undeclared {c : Calculator} {name : String}
    (h : c.store.position? name = none) : c.valueOf name = (.error (.undeclared name), c) := by
  rw [valueOf, h]

/-- A forcing by name is a forcing on track, which ends with the value of the register or with a
cycle. -/
theorem valueOf_spec {c : Calculator} (hs : c.store.Coherent) {name : String} {root : Position}
    (hroot : c.store.position? name = some root) :
    ∃ g : Forcing, g.OnTrack c.store c.journal root ∧
      ((g.path = [] ∧ c.valueOf name = (.ok (g.store.valueAt root),
          { c with store := g.store
                   journal := g.journal.note (.resolved name (g.store.valueAt root)) })) ∨
        ∃ p path d, g.path = p :: path ∧ g.store.BlockedOn p d ∧ d ∈ g.path ∧
          c.valueOf name = (.error (g.cycleReason d),
            { c with store := g.store, journal := (g.report d).journal })) := by
  obtain ⟨g, hg, hend⟩ := (Forcing.OnTrack.start c.store c.journal root).run_spec hs
  refine ⟨g, hg, ?_⟩
  rcases hend with ⟨hpath, hrun⟩ | ⟨p, path, d, hpath, hblocked, hd, hrun⟩
  · exact .inl ⟨hpath, by simp only [valueOf, hroot, hrun]⟩
  · exact .inr ⟨p, path, d, hpath, hblocked, hd, by simp only [valueOf, hroot, hrun]; rfl⟩

/-- Forcing makes a store evolve. It tells of what it applies, and of a cycle at the end. -/
theorem events_valueOf {c : Calculator} (hs : c.store.Coherent) (name : String) :
    ∃ touched as closing, c.store.Evolves touched as (c.valueOf name).2.store ∧
      (c.valueOf name).2.journal.events.toList =
        c.journal.events.toList ++ as.map .applied ++ closing ∧
      (closing = [] ∨ ∃ register, closing = [.cycleDetected register]) := by
  cases hroot : c.store.position? name with
  | none =>
    rw [valueOf_of_undeclared hroot]
    exact ⟨fun _ => False, [], [], .refl, by simp, .inl rfl⟩
  | some root =>
    obtain ⟨g, hg, hend⟩ := valueOf_spec hs hroot
    obtain ⟨as, hev, hevents⟩ := hg.evolves
    rcases hend with ⟨-, hvalue⟩ | ⟨p, path, d, -, -, -, hvalue⟩ <;> rw [hvalue]
    · exact ⟨_, as, [], hev, by simpa [Journal.note] using hevents, .inl rfl⟩
    · refine ⟨_, as, [.cycleDetected (g.store.nameAt d)], hev, ?_, .inr ⟨_, rfl⟩⟩
      simp [Forcing.report, Journal.note, Journal.emit, hevents]

theorem evolves_valueOf {c : Calculator} (hs : c.store.Coherent) (name : String) :
    ∃ touched as, c.store.Evolves touched as (c.valueOf name).2.store := by
  obtain ⟨touched, as, -, hev, -⟩ := events_valueOf hs name
  exact ⟨touched, as, hev⟩

end Calculator

/-! ## Coherence -/

theorem Store.Coherent.operate {s : Store} (h : s.Coherent) (target : String) (op : Operation)
    (operand : Operand String) : (s.operate target op operand).Coherent :=
  ((h.declare target).declareOperand operand).record _ op fun _ hd =>
    (h.declare target).declareOperand_lt hd

theorem Store.Coherent.register?_operate_of_ne {s : Store} (hs : s.Coherent) {p : Position}
    {r : Register} (hr : s.register? p = some r) {target : String} (hne : r.name ≠ target)
    (op : Operation) (operand : Operand String) :
    (s.operate target op operand).register? p = some r :=
  (register?_modify_of_ne (hs.declare_ne hr hne) _).trans
    (register?_declareOperand_of_register? (register?_declare_of_register? hr target) operand)

namespace Calculator

theorem coherent_valueOf {c : Calculator} (hs : c.store.Coherent) (name : String) :
    (c.valueOf name).2.store.Coherent := by
  obtain ⟨touched, as, hev⟩ := c.evolves_valueOf hs name
  exact hev.coherent hs

theorem coherent_performAll (calls : List Call) {c : Calculator} (h : c.store.Coherent) :
    (c.performAll calls).store.Coherent :=
  performAll_induction (P := fun s _ => s.Coherent)
    (fun _ _ target op operand hs => hs.operate target op operand)
    (fun _ name hs => coherent_valueOf hs name) calls c h

theorem coherent_run (lines : List String) : (fresh.run lines).store.Coherent :=
  coherent_performAll [.run lines] Store.coherent_empty

/-- A state that calls lead to. -/
def Reachable (c : Calculator) : Prop := ∃ calls, c = fresh.performAll calls

theorem Reachable.coherent {c : Calculator} (h : c.Reachable) : c.store.Coherent := by
  obtain ⟨calls, rfl⟩ := h
  exact coherent_performAll calls Store.coherent_empty

end Calculator

end LazyRegisters
