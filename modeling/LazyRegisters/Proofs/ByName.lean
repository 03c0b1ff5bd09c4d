import LazyRegisters.Proofs.DependencyPath
import LazyRegisters.Proofs.Recursive

/-!
# A store by name

What a store comes to when positions and cursors are forgotten: the names in the order of first
mention and, for each name, a value and a log whose operands are names. Every change of a store is a
change of one cell of the memory.
-/

namespace LazyRegisters

open Recursive

/-- A log entry with the name of the register that it refers to. -/
def Entry.named (s : Store) (e : Entry Position) : Entry String :=
  ⟨e.operation, s.named e.operand, e.applied⟩

/-- A register as a cell, its operands by name. -/
def Register.cell (s : Store) (r : Register) : Cell := ⟨r.value, r.log.toList.map (Entry.named s)⟩

theorem Register.cell_congr {s s' : Store} {r : Register}
    (h : ∀ op d, (op, Operand.register d) ∈ r.plan → s'.nameAt d = s.nameAt d) :
    r.cell s' = r.cell s := by
  have hlog : r.log.toList.map (Entry.named s') = r.log.toList.map (Entry.named s) := by
    refine List.map_congr_left fun e he => ?_
    have hplan := mem_plan he
    rw [Entry.named, Entry.named]
    congr 1
    cases hop : e.operand with
    | number x => rfl
    | register d =>
      rw [hop] at hplan
      exact congrArg Operand.register (h e.operation d hplan)
  rw [cell, cell, hlog]

/-- The log of a coherent register is what has been applied and what is pending. -/
theorem Register.Coherent.scan_log {r : Register} (h : r.Coherent) (s : Store)
    (names active : List String) (name : String) (m : Memory) :
    scan names active name 0 (r.cell s).log m =
      scan names active name r.cursor (r.pending.map (Entry.named s)) m := by
  have happlied : ∀ e ∈ (r.log.toList.take r.cursor).map (Entry.named s), e.applied := by
    intro e he
    obtain ⟨e₀, he₀, rfl⟩ := List.mem_map.1 he
    exact h.applied_of_mem_take he₀
  have hlength : ((r.log.toList.take r.cursor).map (Entry.named s)).length = r.cursor := by
    rw [List.length_map, List.length_take, Array.length_toList, Nat.min_eq_left h.cursor_le]
  have hsplit : (r.cell s).log =
      (r.log.toList.take r.cursor).map (Entry.named s) ++ r.pending.map (Entry.named s) := by
    rw [h.pending_eq_drop, ← List.map_append, List.take_append_drop]
    rfl
  rw [hsplit, scan_append_of_applied happlied, hlength, Nat.zero_add]

namespace Store

def cell (s : Store) (name : String) : Cell := (s.find? name).elim {} (Register.cell s)

variable {s : Store} {p : Position} {r : Register}

theorem Coherent.cell_name (hs : s.Coherent) (hr : s.register? p = some r) :
    s.cell r.name = r.cell s := by
  rw [cell, hs.find?_name hr, Option.elim_some]

theorem cell_of_position?_eq_none {name : String} (h : s.position? name = none) :
    s.cell name = {} := by
  rw [cell, find?, h, Option.bind_none, Option.elim_none]

theorem Coherent.mem_names_iff (hs : s.Coherent) {name : String} :
    name ∈ s.names ↔ ∃ p, s.position? name = some p := by
  constructor
  · intro h
    obtain ⟨r, hr, rfl⟩ := List.mem_map.1 h
    obtain ⟨p, hp⟩ := List.mem_iff_getElem?.1 hr
    exact ⟨p, hs.position?_name (by simpa [register?] using hp)⟩
  · rintro ⟨p, hp⟩
    obtain ⟨r, hr, rfl⟩ := hs.position?_iff.1 hp
    exact List.mem_map.2 ⟨r, List.mem_of_getElem? (by simpa [register?] using hr), rfl⟩

/-! ## Changing a register -/

theorem Coherent.cell_modify (hs : s.Coherent) {f : Register → Register}
    (hname : ∀ r, (f r).name = r.name) (hr : s.register? p = some r) :
    (s.modify p f).cell = Function.update s.cell r.name ((f r).cell s) := by
  have hcell (r' : Register) : r'.cell (s.modify p f) = r'.cell s :=
    Register.cell_congr fun _ d _ => congrFun (s.nameAt_modify p hname) d
  funext name
  by_cases h : name = r.name
  · subst h
    rw [Function.update_self, cell, find?, position?_modify, hs.position?_name hr, Option.bind_some,
      register?_modify_self hr, Option.elim_some, hcell]
  · rw [Function.update_of_ne h]
    unfold cell find?
    rw [position?_modify]
    cases hp : s.position? name with
    | none => rfl
    | some q =>
      have hpq : p ≠ q := by
        rintro rfl
        obtain ⟨r', hr', rfl⟩ := hs.position?_iff.1 hp
        rw [hr] at hr'
        exact h (congrArg Register.name (Option.some.inj hr').symm)
      rw [Option.bind_some, Option.bind_some, register?_modify_of_ne hpq]
      cases s.register? q with
      | none => rfl
      | some r' => exact hcell r'

theorem Coherent.cell_applyPending (hs : s.Coherent) (hr : s.register? p = some r)
    {e : Entry Position} (he : r.pendingEntry? = some e) (x : Float) :
    (s.applyPending p x).cell = Function.update s.cell r.name
      ⟨e.operation.apply (s.cell r.name).value x,
        (s.cell r.name).log.modify r.cursor fun e => { e with applied := true }⟩ := by
  rw [Store.applyPending, hs.cell_modify (fun r => r.name_applyPending x) hr, hs.cell_name hr,
    Register.applyPending_eq he]
  congr 1
  rw [Register.cell, Register.cell, Array.toList_modify]
  congr 1
  refine map_modify ?_ _ _
  exact fun _ => rfl

theorem Coherent.cell_record (hs : s.Coherent) (hr : s.register? p = some r) (op : Operation)
    (operand : Operand Position) :
    (s.record p op operand).cell = Function.update s.cell r.name
      { s.cell r.name with
        log := (s.cell r.name).log ++ [⟨op, s.named operand, false⟩] } := by
  rw [Store.record, hs.cell_modify (f := Register.record op operand) (fun _ => rfl) hr,
    hs.cell_name hr]
  simp [Register.cell, Register.record, Entry.named]

/-! ## Declaring -/

theorem Coherent.cell_add (hs : s.Coherent) {name : String} (hnew : s.position? name = none) :
    (s.add name).cell = s.cell := by
  have hnameAt {d : Position} (hd : d < s.size) : (s.add name).nameAt d = s.nameAt d := by
    rw [nameAt, register?_add, if_neg (Nat.ne_of_lt hd), nameAt]
  funext name'
  by_cases h : name = name'
  · subst h
    rw [cell_of_position?_eq_none hnew, cell, find?, position?_add, if_pos rfl, Option.bind_some,
      register?_add, if_pos rfl]
    rfl
  · unfold cell find?
    rw [position?_add, if_neg h]
    cases hp : s.position? name' with
    | none => rfl
    | some q =>
      obtain ⟨r, hr, -⟩ := hs.position?_iff.1 hp
      rw [Option.bind_some, Option.bind_some, register?_add_of_register? hr, hr, Option.elim_some,
        Option.elim_some]
      exact Register.cell_congr fun op d hd => hnameAt (hs.operand_lt hr hd)

theorem Coherent.cell_declare (hs : s.Coherent) (name : String) :
    (s.declare name).2.cell = s.cell := by
  obtain ⟨q, -, hd⟩ | ⟨hnew, hd⟩ := s.declare_cases name <;> rw [hd]
  exact hs.cell_add hnew

theorem Coherent.names_declare (hs : s.Coherent) (name : String) :
    (s.declare name).2.names = if name ∈ s.names then s.names else s.names ++ [name] := by
  obtain ⟨q, hq, hd⟩ | ⟨hnew, hd⟩ := s.declare_cases name <;> rw [hd]
  · rw [if_pos (hs.mem_names_iff.2 ⟨q, hq⟩)]
  · have hmem : name ∉ s.names := by
      rw [hs.mem_names_iff, hnew]
      simp
    rw [if_neg hmem]
    simp [names, Store.add]

end Store

end LazyRegisters
