import LazyRegisters.Proofs.Obeyed
import LazyRegisters.Proofs.Words
import Mathlib.Data.List.Nodup

/-!
# How a store represents its registers

A store keeps several things twice: names in the registers and in the index, what has been applied
in the marks of the entries and in the cursor. They agree in every store that calls lead to
(`Store.Represented`). The names themselves come out of lines, as targets and as operands, so each
of them is a word that is no numeral.
-/

namespace LazyRegisters

/-- What can be the name of a register: a word that is no numeral. -/
structure IsName (name : String) : Prop where
  ne_empty : name ≠ ""
  unseparated : ∀ ch ∈ name.toList, ch ∉ [' ', '\t', '\n', '\r', '\x0c']
  not_numeral : Number.ofWord? name = none

/-- What is kept twice agrees, names are distinct, and each of them can be the name of a
register. -/
structure Store.Represented (s : Store) : Prop extends s.Coherent where
  names_nodup : s.names.Nodup
  pendingCount_eq : ∀ {p : Position} {r : Register}, s.register? p = some r →
    r.pendingCount = r.log.toList.countP (!·.applied)
  isName : ∀ name ∈ s.names, IsName name

/-! ## Names in commands -/

/-- A word of a line that is no numeral can be the name of a register. -/
theorem isName_of_mem_words (line : String) {word : String} (h : word ∈ Text.words line)
    (hnumeral : Number.ofWord? word = none) : IsName word := by
  obtain ⟨hne, hunseparated⟩ := Text.isWord_of_mem_words h
  refine ⟨hne, fun ch hch hsep => ?_, hnumeral⟩
  have hseparator : Text.isSeparator ch := by
    simpa [Text.isSeparator, or_assoc] using hsep
  rw [hunseparated ch hch] at hseparator
  cases hseparator

theorem Operand.ofWord_eq_register {word name : String} (h : ofWord word = .register name) :
    word = name ∧ Number.ofWord? word = none := by
  unfold ofWord at h
  split at h
  · cases h
  · next hnone => exact ⟨Operand.register.inj h, hnone⟩

theorem Command.ofWords_eq_operate {ws : List String} {target : String} {op : Operation}
    {operand : Operand String} (h : ofWords ws = .ok (.operate target op operand)) :
    ∃ name word, ws = [target, name, word] ∧ Number.isNumeral target = false ∧
      Operand.ofWord word = operand := by
  unfold ofWords at h
  split at h
  · split at h <;> cases h
  · split at h <;> cases h
  · next target' name word =>
    split at h
    · cases h
    · split at h
      · cases h
      · next hnumeral =>
        cases h
        exact ⟨name, word, rfl, Bool.eq_false_iff.2 hnumeral, rfl⟩
  · cases h

theorem Command.isName_of_parse {line target : String} {op : Operation} {operand : Operand String}
    (h : parse line = .ok (.operate target op operand)) :
    IsName target ∧ ∀ name, operand = .register name → IsName name := by
  obtain ⟨opName, word, hline, hnumeral, hoperand⟩ := ofWords_eq_operate (parse_eq_ok_iff.1 h)
  constructor
  · refine isName_of_mem_words line (by simp [hline]) ?_
    simpa [Number.isNumeral] using hnumeral
  · rintro name rfl
    obtain ⟨rfl, hnone⟩ := Operand.ofWord_eq_register hoperand
    exact isName_of_mem_words line (by simp [hline]) hnone

/-! ## Names in the store -/

namespace Store

variable {s : Store}

theorem mem_names_declare {name name' : String} (h : name' ∈ (s.declare name).2.names) :
    name' ∈ s.names ∨ name' = name := by
  obtain ⟨q, -, hd⟩ | ⟨-, hd⟩ := s.declare_cases name <;> rw [hd] at h
  · exact .inl h
  · simpa [names, add] using h

theorem mem_names_declareOperand {operand : Operand String} {name' : String}
    (h : name' ∈ (s.declareOperand operand).2.names) :
    name' ∈ s.names ∨ operand = .register name' := by
  cases operand with
  | number x => exact .inl h
  | register name =>
    exact (mem_names_declare h).imp_right fun hname => congrArg Operand.register hname.symm

theorem mem_names_operate {target : String} {op : Operation} {operand : Operand String}
    {name : String} (h : name ∈ (s.operate target op operand).names) :
    name ∈ s.names ∨ name = target ∨ operand = .register name := by
  have hrecord : (s.operate target op operand).names =
      ((s.declare target).2.declareOperand operand).2.names :=
    names_modify _ _ fun _ => rfl
  rw [hrecord] at h
  rcases mem_names_declareOperand h with h | h
  · exact (mem_names_declare h).imp_right .inl
  · exact .inr (.inr h)

/-- Names are distinct because each of them leads back to its register. -/
theorem Coherent.names_nodup (hs : s.Coherent) : s.names.Nodup := by
  have hregister {p : Position} {name : String} (h : s.names[p]? = some name) :
      s.position? name = some p := by
    rw [names, List.getElem?_map] at h
    obtain ⟨r, hr, rfl⟩ := Option.map_eq_some_iff.1 h
    exact hs.position?_name (by simpa [register?] using hr)
  refine List.nodup_iff_getElem?_ne_getElem?.2 fun i j hij hj heq => ?_
  obtain ⟨name, hname⟩ : ∃ name, s.names[j]? = some name := ⟨_, List.getElem?_eq_getElem hj⟩
  have hi := hregister (heq.trans hname)
  rw [hregister hname] at hi
  exact absurd (Option.some.inj hi) (Nat.ne_of_gt hij)

end Store

namespace Register

theorem Coherent.pendingCount_eq {r : Register} (h : r.Coherent) :
    r.pendingCount = r.log.toList.countP (!·.applied) := by
  rw [← h.length_pending, pending, List.countP_eq_length_filter]

end Register

namespace Calculator

/-- **What is kept twice agrees after any calls**, and all names can be names of registers, unless
commands are executed that are not those of lines. -/
theorem represented_performAll (calls : List Call) (hcalls : ∀ command, .execute command ∉ calls) :
    (fresh.performAll calls).store.Represented := by
  have hs : (fresh.performAll calls).store.Coherent :=
    coherent_performAll calls Store.coherent_empty
  refine ⟨hs, hs.names_nodup, fun hr => (hs.register hr).pendingCount_eq, ?_⟩
  refine performAll_store_induction (P := fun s => ∀ name ∈ s.names, IsName name)
    Store.coherent_empty ?_ ?_ nofun
  · intro s s' touched as _ hev h
    rwa [hev.names_eq]
  · intro s target op operand _ hobeyed h name hname
    obtain ⟨line, hline⟩ := exists_parse_of_mem_obeyed hcalls hobeyed
    obtain ⟨htarget, hoperand⟩ := Command.isName_of_parse hline
    rcases Store.mem_names_operate hname with hname | rfl | hname
    · exact h name hname
    · exact htarget
    · exact hoperand name hname

/-- A forcing has been given up half way, registers have been mentioned first as operands, and lines
with numerals for targets have been rejected. -/
theorem represented_performAll_half_way :
    let calls := [Call.run ["x add 1_0", "x add y_", "x multiply x", "1_0 add x", "print x"],
      .valueOf "z", .executeLine "_1 subtract 1__0", .step "nan multiply 2"]
    (∀ command, .execute command ∉ calls) ∧ (fresh.performAll calls).store.Represented ∧
      (fresh.performAll calls).store.names = ["x", "y_", "_1", "1__0"] ∧
      ((fresh.performAll calls).store.registers.map fun r => (r.cursor, r.pendingCount)) =
        #[(2, 1), (0, 0), (0, 1), (0, 0)] := by
  intro calls
  have hcalls : ∀ command, .execute command ∉ calls := by simp [calls]
  exact ⟨hcalls, represented_performAll calls hcalls, by decide +kernel, by decide +kernel⟩

end Calculator

end LazyRegisters
