import LazyRegisters.Proofs.Calls
import LazyRegisters.Proofs.RecursiveForcing

/-!
# The calculator refines the recursive machine

Seen by name, the calculator makes the same steps as the recursive machine. That it has a path, a
cursor, positions and a shortcut for resolved registers cannot be observed in any run.
-/

namespace LazyRegisters

open Recursive Forcing

/-- The registers in the order of first mention, their operands by name. -/
def Store.listing (s : Store) : List (String × Cell) :=
  s.registers.toList.map fun r => (r.name, r.cell s)

namespace Store.Coherent

variable {s : Store} (hs : s.Coherent)

include hs

theorem listing_eq : s.listing = s.names.map fun name => (name, s.cell name) := by
  rw [listing, names, List.map_map]
  refine List.map_congr_left fun r hr => ?_
  obtain ⟨p, hp⟩ := List.mem_iff_getElem?.1 hr
  have hp' : s.register? p = some r := by simpa [register?] using hp
  rw [Function.comp, hs.cell_name hp']

theorem named_declareOperand (operand : Operand String) :
    (s.declareOperand operand).2.named (s.declareOperand operand).1 = operand := by
  cases operand with
  | number x => rfl
  | register name =>
    exact congrArg Operand.register ((hs.declare name).nameAt_eq (s.position?_declare name))

end Store.Coherent

namespace Calculator

def byName (c : Calculator) : Machine where
  names := c.store.names
  memory := c.store.memory c.journal
  outcomes := c.outcomes.toList
  halted := c.halted

theorem byName_report (o : Outcome) (c : Calculator) :
    (c.report o).byName = c.byName.report o := by
  simp [byName, report, Machine.report]

/-! ## Steps -/

variable {c : Calculator} (hs : c.store.Coherent)

include hs

theorem byName_declare (name : String) :
    byName { c with store := (c.store.declare name).2 } = c.byName.declare name := by
  rw [byName, Machine.declare, Store.memory, hs.cell_declare, hs.names_declare]
  by_cases hname : name ∈ c.store.names
  · rw [if_pos hname, if_pos (show name ∈ c.byName.names from hname)]
    rfl
  · rw [if_neg hname, if_neg (show name ∉ c.byName.names from hname)]
    rfl

theorem byName_declareOperand (operand : Operand String) :
    byName { c with store := (c.store.declareOperand operand).2 } =
      c.byName.declareOperand operand := by
  cases operand with
  | number x => rfl
  | register name => exact byName_declare hs name

theorem byName_record {p : Position} {r : Register} (hr : c.store.register? p = some r)
    (op : Operation) (operand : Operand Position) :
    byName { c with store := c.store.record p op operand } =
      { c.byName with memory := c.byName.memory.record r.name op (c.store.named operand) } := by
  have hnames : (c.store.record p op operand).names = c.store.names :=
    c.store.names_modify p fun _ => rfl
  rw [byName, Store.memory, hs.cell_record hr, hnames]
  rfl

theorem byName_operate (target : String) (op : Operation) (operand : Operand String) :
    (c.operate target op operand).byName = c.byName.operate target op operand := by
  have hs₁ := hs.declare target
  obtain ⟨r, hr, hname⟩ := hs.exists_register?_declare target
  have hr₂ := Store.register?_declareOperand_of_register? hr operand
  let c₁ : Calculator := { c with store := (c.store.declare target).2 }
  let c₂ : Calculator := { c with store := (c₁.store.declareOperand operand).2 }
  have hrecord := byName_record (c := c₂) (hs₁.declareOperand operand) hr₂ op
    (c₁.store.declareOperand operand).1
  rw [hs₁.named_declareOperand, hname, byName_declareOperand (c := c₁) hs₁, byName_declare hs]
    at hrecord
  exact hrecord

theorem resolve_valueOf {name : String} {root : Position}
    (hroot : c.store.position? name = some root) :
    ∃ s j, s.names = c.store.names ∧
      ((∃ reason, c.valueOf name = (.error reason, { c with store := s, journal := j }) ∧
          resolve c.byName.names [] name c.byName.memory = (some reason, s.memory j)) ∨
        (c.valueOf name = (.ok (s.cell name).value, { c with store := s, journal := j }) ∧
          resolve c.byName.names [] name c.byName.memory = (none, s.memory j))) := by
  obtain ⟨r, hr, rfl⟩ := hs.position?_iff.1 hroot
  have hlt := hs.lt_size_of_position? hroot
  have hcall : resolve c.byName.names [] r.name c.byName.memory =
      (Forcing.start c.store c.journal root).call c.store r := by
    show resolve c.store.names [] r.name (c.store.memory c.journal) =
      scan _ [c.store.nameAt root] _ _ _ _
    rw [hs.resolve_eq hr List.not_mem_nil, Store.nameAt_of_register? hr]
    rfl
  have hmirrors := (OnTrack.start c.store c.journal root).mirrors hs hlt rfl hr
  rw [hcall]
  generalize (Forcing.start c.store c.journal root).call c.store r = out at hmirrors
  cases hmirrors with
  | @fails reason s j hrun hnames =>
    refine ⟨s, j, hnames, .inl ⟨reason, ?_, rfl⟩⟩
    simp only [valueOf, hroot, hrun]
  | @returns g hg hpath hrun hmoves hres hkept =>
    have hfinish : g.run = ⟨none, g.store, g.journal⟩ := run_of_finish (move_of_path_eq_nil hpath)
    have hvalue : g.store.valueAt root = (g.store.cell r.name).value := by
      rw [← hg.value_eq hs hlt, Store.nameAt_of_register? hr]
      rfl
    refine ⟨g.store, g.journal.note (.resolved r.name (g.store.valueAt root)), hg.names_eq,
      .inr ⟨?_, rfl⟩⟩
    simp only [valueOf, hroot, ← hrun, hfinish, hvalue]

theorem byName_execute (command : Command) :
    c.byName.execute command = ((c.execute command).1, (c.execute command).2.byName) := by
  cases command with
  | operate target op operand =>
    rw [Machine.execute, ← byName_operate hs]
    rfl
  | print name =>
    cases hroot : c.store.position? name with
    | none =>
      have hname : name ∉ c.byName.names := by
        show name ∉ c.store.names
        rw [hs.mem_names_iff, hroot]
        simp
      rw [Machine.execute, if_neg hname, execute, valueOf_of_undeclared hroot]
    | some root =>
      have hname : name ∈ c.byName.names := hs.mem_names_iff.2 ⟨root, hroot⟩
      obtain ⟨s, j, hnames, hforced⟩ := resolve_valueOf hs hroot
      have hstate : { c.byName with memory := s.memory j } =
          byName { c with store := s, journal := j } := by
        rw [byName, byName, hnames]
      rw [Machine.execute, if_pos hname, execute]
      rcases hforced with ⟨reason, hvalue, hresolve⟩ | ⟨hvalue, hresolve⟩
      · simp only [hvalue, hresolve, hstate]
      · simp only [hvalue, hresolve, hstate, byName_report]
        rfl
  | quit => rfl

theorem byName_step (line : String) : (c.step line).byName = c.byName.step line := by
  unfold step Machine.step
  by_cases hhalted : c.halted
  · rw [if_pos hhalted, if_pos (show c.byName.halted from hhalted)]
  · rw [if_neg hhalted, if_neg (show ¬ c.byName.halted from hhalted), executeLine]
    cases Command.parse line with
    | error rejection => exact byName_report _ (c.note (.rejected rejection))
    | ok command =>
      have hexecute := byName_execute hs command
      rcases hresult : c.execute command with ⟨reason | ⟨⟩, c'⟩
      · rw [hresult] at hexecute
        simp only [hexecute, hresult]
        exact byName_report _ (c'.note (.rejected (.ofLine line reason)))
      · rw [hresult] at hexecute
        simp only [hexecute, hresult]
        rfl

theorem byName_run (lines : List String) :
    (c.run lines).byName = lines.foldl Machine.step c.byName := by
  induction lines generalizing c with
  | nil => rfl
  | cons line lines ih =>
    have hs' : (c.step line).store.Coherent := coherent_performAll [.step line] hs
    rw [List.foldl_cons, ← byName_step hs, ← ih hs']
    rfl

omit hs in
theorem byName_fresh : fresh.byName = {} := by
  have hcell : (∅ : Store).cell = fun _ => {} := by
    funext name
    exact Store.cell_of_position?_eq_none Std.TreeMap.getElem?_emptyc
  show (⟨[], ⟨(∅ : Store).cell, []⟩, [], false⟩ : Machine) = {}
  rw [hcell]

omit hs in
/-- **A run cannot be told from one of the recursive machine**: outcomes, events, the end of the
program and the registers are the same. -/
theorem run_refines (lines : List String) :
    (fresh.run lines).outcomes.toList = (Machine.run lines).outcomes ∧
      (fresh.run lines).journal.events.toList = (Machine.run lines).memory.events ∧
      (fresh.run lines).halted = (Machine.run lines).halted ∧
      (fresh.run lines).store.listing = (Machine.run lines).listing := by
  have hs : (fresh.run lines).store.Coherent :=
    coherent_performAll [.run lines] Store.coherent_empty
  have hrun : (fresh.run lines).byName = Machine.run lines := by
    rw [byName_run Store.coherent_empty, byName_fresh, Machine.run]
  rw [← hrun, hs.listing_eq]
  exact ⟨rfl, rfl, rfl, rfl⟩

end Calculator

end LazyRegisters
