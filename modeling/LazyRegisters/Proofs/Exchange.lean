import LazyRegisters.Proofs.Replay
import LazyRegisters.Proofs.Representation

/-!
# Exchanging operations

Operations that are recorded one after the other against different registers can change places. What
is left of their order is the order in which registers are first mentioned, and that is lost on the
recursive machine: forcing asks only whether a register has been mentioned at all. Machines that
differ in nothing but that order (`Machine.Alike`) stay so in every step, and the calculator is such
a machine when it is seen by name.
-/

namespace LazyRegisters

namespace Recursive

/-! ## The order of first mention -/

variable {names names' : List String}

theorem scan_congr {active : List String}
    (hresolve : ∀ d m, resolve names' active d m = resolve names active d m) (name : String)
    (index : Nat) (entries : List (Entry String)) (m : Memory) :
    scan names' active name index entries m = scan names active name index entries m := by
  induction entries generalizing index m with
  | nil => rw [scan_nil, scan_nil]
  | cons e entries ih =>
    cases happlied : e.applied with
    | true => rw [scan, if_pos happlied, scan, if_pos happlied, ih]
    | false =>
      cases hoperand : e.operand with
      | number x => rw [scan_number happlied hoperand, scan_number happlied hoperand, ih]
      | register d =>
        rw [scan_register happlied hoperand, scan_register happlied hoperand, hresolve]
        rcases resolve names active d m with ⟨_ | reason, m'⟩
        · exact ih (index + 1) _
        · rfl

/-- Forcing depends on which registers there are and not on their order. -/
theorem resolve_congr (hnames : ∀ name, name ∈ names' ↔ name ∈ names) (active : List String)
    (name : String) (m : Memory) :
    resolve names' active name m = resolve names active name m := by
  -- The registers that are not being forced get fewer with each nested call.
  induction hn : names.countP (· ∉ active) using Nat.strong_induction_on
    generalizing active name m with
  | _ n ih =>
    by_cases hactive : name ∈ active
    · rw [resolve_of_mem_active m hactive, resolve_of_mem_active m hactive]
    · by_cases hname : name ∈ names
      · rw [resolve_of_notMem_active m hname hactive,
          resolve_of_notMem_active m ((hnames name).2 hname) hactive]
        refine scan_congr (fun d m' => ?_) name 0 _ m
        exact ih _ (hn ▸ countP_notMem_append_lt hname hactive) (active ++ [name]) d m' rfl
      · have hname' : name ∉ names' := fun h => hname ((hnames name).1 h)
        rw [resolve, if_neg hactive, if_neg hname', resolve, if_neg hactive, if_neg hname]

theorem Memory.record_comm {t₁ t₂ : String} (h : t₁ ≠ t₂) (op₁ op₂ : Operation)
    (x₁ x₂ : Operand String) (m : Memory) :
    (m.record t₁ op₁ x₁).record t₂ op₂ x₂ = (m.record t₂ op₂ x₂).record t₁ op₁ x₁ := by
  simp only [record, Function.update_of_ne h, Function.update_of_ne h.symm]
  rw [Function.update_comm h]

namespace Machine

/-- The machines differ at most in the order of their registers. -/
structure Alike (c c' : Machine) : Prop where
  mem_names_iff : ∀ name, name ∈ c'.names ↔ name ∈ c.names
  memory_eq : c'.memory = c.memory
  outcomes_eq : c'.outcomes = c.outcomes
  halted_eq : c'.halted = c.halted

variable {c c' : Machine} {target : String} {op : Operation} {operand : Operand String}

theorem alike_refl (c : Machine) : c.Alike c := ⟨fun _ => Iff.rfl, rfl, rfl, rfl⟩

/-! ## Recording -/

theorem mem_names_declare {name name' : String} :
    name' ∈ (c.declare name).names ↔ name' ∈ c.names ∨ name' = name := by
  unfold declare
  split
  · next h => exact ⟨.inl, fun hname => hname.elim id fun heq => heq ▸ h⟩
  · simp

theorem mem_names_operate {name : String} :
    name ∈ (c.operate target op operand).names ↔
      name ∈ c.names ∨ name = target ∨ operand = .register name := by
  have hdeclared : name ∈ (c.operate target op operand).names ↔
      name ∈ ((c.declare target).declareOperand operand).names := Iff.rfl
  rw [hdeclared]
  cases operand with
  | number x => simp [declareOperand, mem_names_declare]
  | register d =>
    simp only [declareOperand, mem_names_declare, Operand.register.injEq, or_assoc, eq_comm]

theorem operate_eq (c : Machine) (target : String) (op : Operation) (operand : Operand String) :
    c.operate target op operand =
      { c with names := (c.operate target op operand).names
               memory := c.memory.record target op operand } := by
  have hdeclare (c : Machine) (name : String) :
      c.declare name = { c with names := (c.declare name).names } := by
    unfold declare
    split <;> rfl
  have hoperand (c : Machine) :
      c.declareOperand operand = { c with names := (c.declareOperand operand).names } := by
    cases operand with
    | number x => rfl
    | register d => exact hdeclare c d
  unfold operate
  rw [hoperand, hdeclare]

@[simp] theorem memory_operate :
    (c.operate target op operand).memory = c.memory.record target op operand := by
  rw [operate_eq]

@[simp] theorem outcomes_operate : (c.operate target op operand).outcomes = c.outcomes := by
  rw [operate_eq]

@[simp] theorem halted_operate : (c.operate target op operand).halted = c.halted := by
  rw [operate_eq]

/-- Operations against different registers leave machines alike in whichever order they are
recorded. -/
theorem alike_operate_operate {t₁ t₂ : String} (h : t₁ ≠ t₂) (op₁ op₂ : Operation)
    (x₁ x₂ : Operand String) (c : Machine) :
    ((c.operate t₁ op₁ x₁).operate t₂ op₂ x₂).Alike ((c.operate t₂ op₂ x₂).operate t₁ op₁ x₁) := by
  refine ⟨fun name => ?_, ?_, ?_, ?_⟩
  · simp only [mem_names_operate]
    tauto
  · simp only [memory_operate]
    exact Memory.record_comm h.symm op₂ op₁ x₂ x₁ c.memory
  · simp only [outcomes_operate]
  · simp only [halted_operate]

/-! ## Steps -/

theorem Alike.report (h : c.Alike c') (o : Outcome) : (c.report o).Alike (c'.report o) :=
  ⟨h.mem_names_iff, h.memory_eq, congrArg (· ++ [o]) h.outcomes_eq, h.halted_eq⟩

theorem Alike.operate (h : c.Alike c') (target : String) (op : Operation)
    (operand : Operand String) :
    (c.operate target op operand).Alike (c'.operate target op operand) := by
  refine ⟨fun name => ?_, ?_, ?_, ?_⟩
  · rw [mem_names_operate, mem_names_operate, h.mem_names_iff]
  · rw [memory_operate, memory_operate, h.memory_eq]
  · rw [outcomes_operate, outcomes_operate, h.outcomes_eq]
  · rw [halted_operate, halted_operate, h.halted_eq]

theorem Alike.execute (h : c.Alike c') (command : Command) :
    (c'.execute command).1 = (c.execute command).1 ∧
      (c.execute command).2.Alike (c'.execute command).2 := by
  cases command with
  | operate target op operand => exact ⟨rfl, h.operate target op operand⟩
  | print name =>
    rw [Machine.execute, Machine.execute]
    by_cases hname : name ∈ c.names
    · have hforced (m : Memory) : Alike { c with memory := m } { c' with memory := m } :=
        ⟨h.mem_names_iff, rfl, h.outcomes_eq, h.halted_eq⟩
      rw [if_pos hname, if_pos ((h.mem_names_iff name).2 hname), h.memory_eq,
        resolve_congr h.mem_names_iff]
      rcases resolve c.names [] name c.memory with ⟨_ | reason, m⟩
      · exact ⟨rfl, (hforced m).report _⟩
      · exact ⟨rfl, hforced m⟩
    · have hname' : name ∉ c'.names := fun h' => hname ((h.mem_names_iff name).1 h')
      rw [if_neg hname, if_neg hname']
      exact ⟨rfl, h⟩
  | quit => exact ⟨rfl, h.mem_names_iff, h.memory_eq, h.outcomes_eq, rfl⟩

theorem Alike.step (h : c.Alike c') (line : String) : (c.step line).Alike (c'.step line) := by
  unfold Machine.step
  rw [h.halted_eq]
  split
  · exact h
  · cases Command.parse line with
    | error rejection => exact h.report _
    | ok command =>
      obtain ⟨hresult, hstate⟩ := h.execute command
      dsimp only
      generalize c.execute command = out, c'.execute command = out' at hresult hstate ⊢
      obtain ⟨result, d⟩ := out
      obtain ⟨result', d'⟩ := out'
      obtain rfl : result' = result := hresult
      cases result' with
      | error reason => exact hstate.report _
      | ok => exact hstate

theorem Alike.steps (h : c.Alike c') (lines : List String) :
    (lines.foldl Machine.step c).Alike (lines.foldl Machine.step c') := by
  induction lines generalizing c c' with
  | nil => exact h
  | cons line lines ih => exact ih (h.step line)

theorem step_of_operate {line : String}
    (hparse : Command.parse line = .ok (.operate target op operand)) (c : Machine) :
    c.step line = if c.halted then c else c.operate target op operand := by
  unfold Machine.step
  rw [hparse]
  rfl

/-- Two lines that operate on different registers can change places. -/
theorem alike_run_exchange {l₁ l₂ t₁ t₂ : String} {op₁ op₂ : Operation} {x₁ x₂ : Operand String}
    (h₁ : Command.parse l₁ = .ok (.operate t₁ op₁ x₁))
    (h₂ : Command.parse l₂ = .ok (.operate t₂ op₂ x₂)) (hne : t₁ ≠ t₂)
    (before after : List String) :
    (run (before ++ [l₁, l₂] ++ after)).Alike (run (before ++ [l₂, l₁] ++ after)) := by
  -- Neither line is obeyed on a machine that has been halted before.
  have hswap (c : Machine) : ((c.step l₁).step l₂).Alike ((c.step l₂).step l₁) := by
    rw [step_of_operate h₁ c, step_of_operate h₂ c]
    by_cases hhalted : c.halted
    · rw [if_pos hhalted, if_pos hhalted, step_of_operate h₁, step_of_operate h₂, if_pos hhalted,
        if_pos hhalted]
      exact c.alike_refl
    · rw [if_neg hhalted, if_neg hhalted, step_of_operate h₁, step_of_operate h₂, halted_operate,
        halted_operate, if_neg hhalted, if_neg hhalted]
      exact alike_operate_operate hne op₁ op₂ x₁ x₂ c
  simp only [run, List.foldl_append]
  exact (hswap _).steps after

end Machine

end Recursive

open Recursive

/-! ## What is found by name -/

namespace Store

/-- What is known of the register of this name: its name, its cell, and its cursor. -/
def look? (s : Store) (name : String) : Option (String × Cell × Nat) :=
  (s.find? name).map fun r => (r.name, r.cell s, r.cursor)

theorem Coherent.look?_eq {s : Store} (hs : s.Coherent) (name : String) :
    s.look? name =
      if name ∈ s.names then some (name, s.cell name, s.appliedCount name) else none := by
  cases hp : s.position? name with
  | none =>
    have hname : name ∉ s.names := by
      rw [hs.mem_names_iff, hp]
      simp
    rw [if_neg hname, look?, find?, hp]
    rfl
  | some p =>
    obtain ⟨r, hr, rfl⟩ := hs.position?_iff.1 hp
    rw [if_pos (hs.mem_names_iff.2 ⟨p, hp⟩), look?, hs.find?_name hr, hs.cell_name hr,
      hs.appliedCount_name hr]
    rfl

end Store

namespace Calculator

theorem byName_run_fresh (lines : List String) :
    (fresh.run lines).byName = Machine.run lines := by
  rw [byName_run Store.coherent_empty, byName_fresh, Machine.run]

/-- **Operations against different registers commute**, whatever comes before and after and whatever
they refer to: outcomes and events are the same, and so is all that is found by name. Only the order
of the registers may differ. -/
theorem run_exchange {l₁ l₂ t₁ t₂ : String} {op₁ op₂ : Operation} {x₁ x₂ : Operand String}
    (h₁ : Command.parse l₁ = .ok (.operate t₁ op₁ x₁))
    (h₂ : Command.parse l₂ = .ok (.operate t₂ op₂ x₂)) (hne : t₁ ≠ t₂)
    (before after : List String) :
    let c := fresh.run (before ++ [l₁, l₂] ++ after)
    let c' := fresh.run (before ++ [l₂, l₁] ++ after)
    c'.outcomes = c.outcomes ∧ c'.journal.events = c.journal.events ∧ c'.halted = c.halted ∧
      (∀ name, c'.store.look? name = c.store.look? name) ∧
      c'.store.names.Perm c.store.names := by
  intro c c'
  have hs : c.store.Coherent := coherent_performAll [.run _] Store.coherent_empty
  have hs' : c'.store.Coherent := coherent_performAll [.run _] Store.coherent_empty
  have halike := Machine.alike_run_exchange h₁ h₂ hne before after
  rw [← byName_run_fresh, ← byName_run_fresh] at halike
  obtain ⟨hnames, hmemory, houtcomes, hhalted⟩ := halike
  have hnames : ∀ name, name ∈ c'.store.names ↔ name ∈ c.store.names := hnames
  have hcell : c'.store.cell = c.store.cell := congrArg Memory.cell hmemory
  have hevents : c'.journal.events.toList = c.journal.events.toList :=
    congrArg Memory.events hmemory
  refine ⟨Array.toList_inj.1 houtcomes, Array.toList_inj.1 hevents, hhalted, fun name => ?_, ?_⟩
  · simp only [hs.look?_eq, hs'.look?_eq, hnames, Store.appliedCount, hcell]
  · exact (List.perm_ext_iff_of_nodup hs'.names_nodup hs.names_nodup).2 hnames

/-- The lines mention two new registers and close a cycle, each being the operand of the other. The
registers are in another order then, and cycles are met as before. -/
theorem run_exchange_mutual :
    let c := fresh.run (["a add 5"] ++ ["n add m", "m subtract n"] ++
      ["n multiply a", "print a", "print q", "print n", "m add 1", "print m"])
    let c' := fresh.run (["a add 5"] ++ ["m subtract n", "n add m"] ++
      ["n multiply a", "print a", "print q", "print n", "m add 1", "print m"])
    c'.outcomes = c.outcomes ∧ c'.journal.events = c.journal.events ∧
      (∀ name, c'.store.look? name = c.store.look? name) ∧
      c.store.names = ["a", "n", "m"] ∧ c'.store.names = ["a", "m", "n"] ∧
      c'.outcomes.toList.filterMap Outcome.reason? =
        [.undeclared "q", .cyclic "n" ["n", "m", "n"], .cyclic "m" ["m", "n", "m"]] ∧
      c'.store.look? "m" = some ("m",
        ⟨0, [⟨.subtract, .register "n", false⟩, ⟨.add, .number 1, false⟩]⟩, 0) := by
  intro c c'
  have hn : Command.parse "n add m" = .ok (.operate "n" .add (.register "m")) := by decide +kernel
  have hm : Command.parse "m subtract n" = .ok (.operate "m" .subtract (.register "n")) := by
    decide +kernel
  obtain ⟨houtcomes, hevents, -, hlook, -⟩ := run_exchange hn hm (by decide) ["a add 5"]
    ["n multiply a", "print a", "print q", "print n", "m add 1", "print m"]
  exact ⟨houtcomes, hevents, hlook, by decide +kernel, by decide +kernel, by decide +kernel,
    by decide +kernel⟩

end Calculator

end LazyRegisters
