import LazyRegisters.Proofs.Obeyed
import LazyRegisters.Proofs.RejectedLine
import LazyRegisters.Proofs.Replay
import Mathlib.Data.List.Forall2

/-!
# The logs as a projection of the lines

What a run leaves behind can be read off the lines that come before the end of the program. The
operate commands among them are the logs: each log is the subsequence of those against its register,
and the registers stand in the order in which they are first mentioned. Every print command and
every line that is no command is answered by one outcome, in the order of the lines. Nothing else
that a line does adds to the logs, takes away from them or reorders them.

`Projects` says so of a calculator and the lines it has obeyed; a step keeps it (`Projects.step`).
-/

namespace LazyRegisters

/-- An operation and the register it is recorded against. -/
structure Recording where
  target : String
  operation : Operation
  operand : Operand String
  deriving DecidableEq, Repr

def Operand.references : Operand String → List String
  | number _ => []
  | register name => [name]

/-- The registers mentioned, the target first. -/
def Recording.mentions (x : Recording) : List String := x.target :: x.operand.references

def Command.recording? : Command → Option Recording
  | operate target op operand => some ⟨target, op, operand⟩
  | print _ | quit => none

theorem Command.bind_recording?_eq_none {command : Option Command}
    (h : ∀ target op operand, command ≠ some (.operate target op operand)) :
    command.bind recording? = none := by
  cases command with
  | none => rfl
  | some command =>
    cases command with
    | operate target op operand => exact absurd rfl (h target op operand)
    | print name => rfl
    | quit => rfl

def recording? (line : String) : Option Recording :=
  (Command.parse line).toOption.bind Command.recording?

/-- The subsequence of what is recorded against one register. -/
def recordedAgainst (name : String) (xs : List Recording) : List (Operation × Operand String) :=
  (xs.filter (·.target = name)).map fun x => (x.operation, x.operand)

theorem recordedAgainst_append (name : String) (xs ys : List Recording) :
    recordedAgainst name (xs ++ ys) = recordedAgainst name xs ++ recordedAgainst name ys := by
  rw [recordedAgainst, List.filter_append, List.map_append]
  rfl

/-- What has been met before is not met for the first time. -/
theorem eraseDups_concat (names : List String) (name : String) :
    (names ++ [name]).eraseDups =
      if name ∈ names.eraseDups then names.eraseDups else names.eraseDups ++ [name] := by
  rw [List.eraseDups_append]
  by_cases h : name ∈ names
  · rw [if_pos (List.mem_eraseDups.2 h)]
    simp [List.removeAll, h]
  · rw [if_neg fun hmem => h (List.mem_eraseDups.1 hmem)]
    simp [List.removeAll, h, List.eraseDups_cons]

/-! ## What is recorded -/

namespace Store

variable {s s' : Store} {command : Option Command}

theorem Coherent.names_declare_eraseDups (hs : s.Coherent) {mentioned : List String}
    (h : s.names = mentioned.eraseDups) (name : String) :
    (s.declare name).2.names = (mentioned ++ [name]).eraseDups := by
  rw [hs.names_declare, h, eraseDups_concat]

/-- The target of an operation is mentioned before the register it refers to. -/
theorem Coherent.names_operate (hs : s.Coherent) {mentioned : List String}
    (h : s.names = mentioned.eraseDups) (x : Recording) :
    (s.operate x.target x.operation x.operand).names = (mentioned ++ x.mentions).eraseDups := by
  have hrecord : (s.operate x.target x.operation x.operand).names =
      ((s.declare x.target).2.declareOperand x.operand).2.names :=
    names_modify _ _ fun _ => rfl
  have htarget := hs.names_declare_eraseDups h x.target
  rw [hrecord, Recording.mentions]
  cases x.operand with
  | number v => exact htarget
  | register name =>
    have hoperand := (hs.declare x.target).names_declare_eraseDups htarget name
    rwa [List.append_assoc] at hoperand

theorem Obeys.recorded_eq (hs : s.Coherent) (h : s.Obeys command s') (name : String) :
    s'.recorded name =
      s.recorded name ++ recordedAgainst name (command.bind Command.recording?).toList := by
  cases h with
  | operate target op operand =>
    rw [hs.recorded_operate]
    by_cases htarget : target = name <;> simp [recordedAgainst, Command.recording?, htarget]
  | evolve hcommand hev =>
    rw [hev.recorded_eq hs, Command.bind_recording?_eq_none hcommand]
    exact (List.append_nil _).symm

theorem Obeys.names_eq (hs : s.Coherent) (h : s.Obeys command s') {mentioned : List String}
    (hnames : s.names = mentioned.eraseDups) :
    s'.names = (mentioned ++
      (command.bind Command.recording?).toList.flatMap Recording.mentions).eraseDups := by
  cases h with
  | operate target op operand =>
    simpa [Command.recording?] using hs.names_operate hnames ⟨target, op, operand⟩
  | evolve hcommand hev =>
    rw [hev.names_eq, hnames, Command.bind_recording?_eq_none hcommand]
    simp

end Store

/-! ## What is answered -/

/-- Whether a line is a print command or no command at all. -/
def asks (line : String) : Bool :=
  match Command.parse line with
  | .error _ => true
  | .ok (.print _) => true
  | .ok _ => false

/-- A line that is no command is answered with the rejection of its parsing; a print command is
answered with a value of its register, or rejected because there is no such register or because a
cycle was met. -/
inductive Answers (line : String) : Outcome → Prop where
  | malformed {rejection : Rejection} (h : Command.parse line = .error rejection) :
    Answers line (.rejected rejection)
  | printed {name : String} (h : Command.parse line = .ok (.print name)) (value : Float) :
    Answers line (.printed name value)
  | undeclared {name : String} (h : Command.parse line = .ok (.print name)) :
    Answers line (.rejected (.ofLine line (.undeclared name)))
  | cyclic {name : String} (h : Command.parse line = .ok (.print name)) (register : String)
    (cycle : List String) : Answers line (.rejected (.ofLine line (.cyclic register cycle)))

namespace Calculator

variable {c : Calculator}

theorem forall₂_answer (hs : c.store.Coherent) (line : String) :
    List.Forall₂ Answers ([line].filter asks) (answer (fun name => (c.valueOf name).1) line) := by
  have hasks : asks line →
      [line].filter asks = [line] := fun h => List.filter_cons_of_pos h
  cases hparse : Command.parse line with
  | error rejection =>
    rw [hasks (by rw [asks, hparse]), answer, hparse]
    exact .cons (.malformed hparse) .nil
  | ok command =>
    cases command with
    | print name =>
      rw [hasks (by rw [asks, hparse]), answer, hparse]
      rcases hv : c.valueOf name with ⟨reason | value, c'⟩ <;> simp only [hv]
      · refine .cons ?_ .nil
        obtain ⟨rfl, -⟩ | ⟨root, register, cycle, rfl, -⟩ := valueOf_error_cases hs hv
        · exact .undeclared hparse
        · exact .cyclic hparse register cycle
      · exact .cons (.printed hparse value) .nil
    | operate target op operand =>
      rw [List.filter_cons_of_neg (by simp [asks, hparse]), answer, hparse]
      exact .nil
    | quit =>
      rw [List.filter_cons_of_neg (by simp [asks, hparse]), answer, hparse]
      exact .nil

/-! ## Runs -/

/-- The logs, the registers and the outcomes are what can be read off the lines. -/
structure Projects (lines : List String) (c : Calculator) : Prop where
  recorded_eq : ∀ name,
    c.store.recorded name = recordedAgainst name (lines.filterMap recording?)
  names_eq : c.store.names =
    ((lines.filterMap recording?).flatMap Recording.mentions).eraseDups
  outcomes : List.Forall₂ Answers (lines.filter asks) c.outcomes.toList

theorem projects_fresh : fresh.Projects [] where
  recorded_eq name := by
    have hcell : fresh.store.cell name = {} :=
      Store.cell_of_position?_eq_none Std.TreeMap.getElem?_emptyc
    rw [Store.recorded, hcell]
    rfl
  names_eq := rfl
  outcomes := .nil

theorem Projects.step {lines : List String} (h : c.Projects lines) (hs : c.store.Coherent)
    (hhalted : c.halted = false) (line : String) : (c.step line).Projects (lines ++ [line]) := by
  have hobeys := obeys_executeLine hs line
  rw [← store_step hhalted] at hobeys
  have hline : ((Command.parse line).toOption.bind Command.recording?).toList =
      [line].filterMap recording? := by
    rw [List.filterMap_cons, recording?]
    cases (Command.parse line).toOption.bind Command.recording? <;> rfl
  refine ⟨fun name => ?_, ?_, ?_⟩
  · rw [hobeys.recorded_eq hs, h.recorded_eq, hline, List.filterMap_append, recordedAgainst_append]
  · rw [hobeys.names_eq hs h.names_eq, hline, List.filterMap_append, List.flatMap_append]
  · rw [outcomes_step hhalted, List.filter_append]
    exact List.rel_append h.outcomes (forall₂_answer hs line)

theorem projects_run (lines : List String) (h : ∀ line ∈ lines, ends line = false) :
    (fresh.run lines).Projects lines ∧ (fresh.run lines).halted = false := by
  induction lines using List.reverseRecOn with
  | nil => exact ⟨projects_fresh, rfl⟩
  | append_singleton lines line ih =>
    obtain ⟨hprojects, hhalted⟩ := ih fun l hl => h l (List.mem_append_left _ hl)
    have hrun : fresh.run (lines ++ [line]) = (fresh.run lines).step line := List.foldl_concat ..
    rw [hrun]
    exact ⟨hprojects.step (coherent_run lines) hhalted line,
      halted_step hhalted (h line (by simp))⟩

/-- **The logs are a projection of the lines** before the one that ends the program, and so are the
registers and the outcomes. -/
theorem run_projects (lines : List String) : (fresh.run lines).Projects (heeded lines) := by
  obtain ⟨⟨hrecorded, hnames, houtcomes⟩, -⟩ :=
    projects_run (heeded lines) fun _ => ends_eq_false
  rw [outcomes_run_heeded rfl] at houtcomes
  rw [store_run_heeded rfl] at hnames
  refine ⟨fun name => ?_, hnames, houtcomes⟩
  rw [← store_run_heeded rfl lines, hrecorded name]

end Calculator

end LazyRegisters
