import LazyRegisters.Store
import Mathlib.Data.List.Basic

/-!
# Coherent registers and stores

In every store that commands build, the cursor of a register stands within its log, exactly the
entries before it are marked as applied, every operand refers to a register of the store, and the
index of names is the inverse of the list of registers. Under this invariant a register is its name,
its value and two lists: its *plan*, which is all that was ever recorded, and its *pending* entries,
which are what is left of it. `declare`, `record` and `applyPending` keep a store coherent.
-/

namespace LazyRegisters

/-- What is read off the elements of a list changes as the element that is modified does. -/
theorem map_modify {α β : Type} {f : α → α} {f' : β → β} {g : α → β}
    (h : ∀ a, g (f a) = f' (g a)) (l : List α) (i : Nat) :
    (l.modify i f).map g = (l.map g).modify i f' := by
  refine List.ext_getElem? fun j => ?_
  rw [List.getElem?_map, List.getElem?_modify, List.getElem?_modify, List.getElem?_map]
  cases l[j]? with
  | none => rfl
  | some a => by_cases hij : i = j <;> simp [hij, h]

theorem map_modify_of_eq {α β : Type} {f : α → α} {g : α → β} (h : ∀ a, g (f a) = g a)
    (l : List α) (i : Nat) : (l.modify i f).map g = l.map g := by
  have hid : ∀ a, g (f a) = id (g a) := h
  rw [map_modify hid, List.modify_id]

namespace Register

/-- The cursor stands within the log and tells the applied entries from the others. -/
structure Coherent (r : Register) : Prop where
  cursor_le : r.cursor ≤ r.log.size
  applied_iff : ∀ {i : Nat} {e : Entry Position}, r.log[i]? = some e → (e.applied ↔ i < r.cursor)

/-- The entries that have not been applied, first to last. -/
def pending (r : Register) : List (Entry Position) := r.log.toList.filter fun e => !e.applied

/-- The operations recorded against a register, applied or not. -/
def plan (r : Register) : List (Operation × Operand Position) :=
  r.log.toList.map fun e => (e.operation, e.operand)

/-- The register with nothing left to apply. -/
def settled (value : Float) (r : Register) : Register :=
  { r with
    value := value
    log := r.log.map fun e => { e with applied := true }
    cursor := r.log.size }

theorem coherent_empty (name : String) : Coherent { name := name } :=
  ⟨Nat.le_refl _, fun h => by simp at h⟩

theorem mem_plan {r : Register} {e : Entry Position} (h : e ∈ r.log.toList) :
    (e.operation, e.operand) ∈ r.plan :=
  List.mem_map.2 ⟨e, h, rfl⟩

theorem mem_plan_of_pendingEntry? {r : Register} {e : Entry Position}
    (h : r.pendingEntry? = some e) : (e.operation, e.operand) ∈ r.plan :=
  mem_plan (Array.mem_toList_iff.2 (Array.mem_of_getElem? h))

/-! ## Pending entries -/

theorem Coherent.applied_of_mem_take {r : Register} (h : r.Coherent) {e : Entry Position}
    (he : e ∈ r.log.toList.take r.cursor) : e.applied := by
  obtain ⟨i, hi⟩ := List.mem_iff_getElem?.1 he
  rw [List.getElem?_take] at hi
  split at hi
  · next hlt => exact (h.applied_iff (by simpa using hi)).2 hlt
  · cases hi

theorem Coherent.applied_eq_false {r : Register} (h : r.Coherent) {i : Nat} {e : Entry Position}
    (hi : r.cursor ≤ i) (he : r.log[i]? = some e) : e.applied = false := by
  rw [Bool.eq_false_iff, ne_eq, h.applied_iff he]
  omega

/-- In a coherent register the pending entries start at the cursor. -/
theorem Coherent.pending_eq_drop {r : Register} (h : r.Coherent) :
    r.pending = r.log.toList.drop r.cursor := by
  have htake : (r.log.toList.take r.cursor).filter (fun e => !e.applied) = [] := by
    rw [List.filter_eq_nil_iff]
    intro e he
    simp [h.applied_of_mem_take he]
  have hdrop : (r.log.toList.drop r.cursor).filter (fun e => !e.applied) =
      r.log.toList.drop r.cursor := by
    rw [List.filter_eq_self]
    intro e he
    obtain ⟨i, hi⟩ := List.mem_iff_getElem?.1 he
    rw [List.getElem?_drop] at hi
    simp [h.applied_eq_false (Nat.le_add_right r.cursor i) (by simpa using hi)]
  calc r.pending = (r.log.toList.take r.cursor ++ r.log.toList.drop r.cursor).filter
        (fun e => !e.applied) := by rw [List.take_append_drop]; rfl
    _ = r.log.toList.drop r.cursor := by rw [List.filter_append, htake, hdrop, List.nil_append]

theorem Coherent.length_pending {r : Register} (h : r.Coherent) :
    r.pending.length = r.pendingCount := by
  rw [h.pending_eq_drop, List.length_drop, Array.length_toList, pendingCount]

theorem Coherent.pendingEntry?_eq {r : Register} (h : r.Coherent) :
    r.pendingEntry? = r.pending.head? := by
  rw [h.pending_eq_drop, List.head?_drop, pendingEntry?, Array.getElem?_toList]

theorem Coherent.isResolved_iff {r : Register} (h : r.Coherent) :
    r.isResolved ↔ r.pending = [] := by
  rw [Register.isResolved_iff, h.pendingEntry?_eq, List.head?_eq_none_iff]

/-! ## Recording and applying -/

theorem Coherent.record {r : Register} (h : r.Coherent) (op : Operation)
    (operand : Operand Position) : (r.record op operand).Coherent := by
  refine ⟨?_, fun {i e} hi => ?_⟩
  · have := h.cursor_le
    simp only [Register.record, Array.size_push]
    omega
  · simp only [Register.record, Array.getElem?_push] at hi ⊢
    split at hi
    · next hsize =>
      obtain rfl := Option.some.inj hi
      have hle := h.cursor_le
      simp only [Bool.false_eq_true, false_iff]
      omega
    · exact h.applied_iff hi

theorem applyPending_eq {r : Register} {e : Entry Position} (h : r.pendingEntry? = some e)
    (x : Float) :
    r.applyPending x =
      { r with
        value := e.operation.apply r.value x
        log := r.log.modify r.cursor fun e => { e with applied := true }
        cursor := r.cursor + 1 } := by
  rw [applyPending, h]

@[simp] theorem plan_applyPending (r : Register) (x : Float) :
    (r.applyPending x).plan = r.plan := by
  unfold applyPending
  split
  · rfl
  · unfold plan
    simp only [Array.toList_modify]
    refine map_modify_of_eq ?_ _ _
    exact fun _ => rfl

theorem Coherent.applyPending {r : Register} (h : r.Coherent) (x : Float) :
    (r.applyPending x).Coherent := by
  cases he : r.pendingEntry? with
  | none => rwa [Register.applyPending_of_resolved ((Register.isResolved_iff r).2 he)]
  | some e =>
    rw [applyPending_eq he]
    have hlt : r.cursor < r.log.size := (Array.getElem?_eq_some_iff.1 he).1
    refine ⟨by rw [Array.size_modify]; exact hlt, fun {i e'} hi => ?_⟩
    simp only [Array.getElem?_modify] at hi ⊢
    split at hi
    · next hc =>
      subst hc
      obtain ⟨e'', -, rfl⟩ := Option.map_eq_some_iff.1 hi
      simp
    · next hc =>
      rw [h.applied_iff hi]
      omega

/-- Applying the first pending entry takes it off the pending ones. -/
theorem Coherent.pending_applyPending {r : Register} (h : r.Coherent) (x : Float) :
    (r.applyPending x).pending = r.pending.tail := by
  cases he : r.pendingEntry? with
  | none =>
    have hr := (Register.isResolved_iff r).2 he
    rw [Register.applyPending_of_resolved hr, h.isResolved_iff.1 hr, List.tail_nil]
  | some e =>
    rw [(h.applyPending x).pending_eq_drop, h.pending_eq_drop, applyPending_eq he, List.tail_drop]
    simp only [Array.toList_modify]
    exact List.drop_modify_of_lt _ _ _ _ (Nat.lt_succ_self _)

/-- A coherent register is its name, its value, its plan and its cursor. -/
theorem Coherent.eq_of_plan_eq {r r' : Register} (h : r.Coherent) (h' : r'.Coherent)
    (hname : r'.name = r.name) (hvalue : r'.value = r.value) (hplan : r'.plan = r.plan)
    (hcursor : r'.cursor = r.cursor) : r' = r := by
  have hlog : r'.log = r.log := by
    refine Array.toList_inj.1 (List.ext_getElem? fun i => ?_)
    have hi := congrArg (·[i]?) hplan
    simp only [plan, List.getElem?_map] at hi
    cases he' : r'.log.toList[i]? with
    | none => rw [he'] at hi; cases he : r.log.toList[i]? <;> simp_all
    | some e' =>
      rw [he'] at hi
      obtain ⟨e, he, heq⟩ := Option.map_eq_some_iff.1 hi.symm
      have happlied : e'.applied = e.applied := by
        rw [Bool.eq_iff_iff, h'.applied_iff (by simpa using he'), h.applied_iff (by simpa using he),
          hcursor]
      rw [he]
      cases e; cases e'
      simp_all
  cases r; cases r'
  simp_all

theorem plan_settled (r : Register) (value : Float) : (r.settled value).plan = r.plan := by
  simp [plan, settled, Function.comp_def]

theorem coherent_settled (r : Register) (value : Float) : (r.settled value).Coherent := by
  refine ⟨by simp [settled], fun {i e} hi => ?_⟩
  simp only [settled, Array.getElem?_map] at hi ⊢
  obtain ⟨e', he', rfl⟩ := Option.map_eq_some_iff.1 hi
  simpa using (Array.getElem?_eq_some_iff.1 he').1

theorem size_log_eq_of_plan_eq {r r' : Register} (h : r'.plan = r.plan) :
    r'.log.size = r.log.size := by
  simpa [plan] using congrArg List.length h

/-- A coherent register without pending entries is settled: its log holds its plan, all applied. -/
theorem Coherent.eq_settled {r r' : Register} (h' : r'.Coherent) (hname : r'.name = r.name)
    (hplan : r'.plan = r.plan) (hr : r'.isResolved) : r' = r.settled r'.value := by
  have hcursor : r'.cursor = r.log.size := by
    have hsize := size_log_eq_of_plan_eq hplan
    have hle := h'.cursor_le
    simp only [isResolved, decide_eq_true_eq] at hr
    omega
  exact (r.coherent_settled r'.value).eq_of_plan_eq h' hname rfl
    (hplan.trans (r.plan_settled r'.value).symm) hcursor

end Register

namespace Store

/-- Every register is coherent, every operand is in the store, and names and positions are each
other's inverse. -/
structure Coherent (s : Store) : Prop where
  register : ∀ {p : Position} {r : Register}, s.register? p = some r → r.Coherent
  operand_lt : ∀ {p : Position} {r : Register} {op : Operation} {d : Position},
    s.register? p = some r → (op, Operand.register d) ∈ r.plan → d < s.size
  position?_iff : ∀ {name : String} {p : Position},
    s.position? name = some p ↔ ∃ r, s.register? p = some r ∧ r.name = name

theorem lt_size_of_register? {s : Store} {p : Position} {r : Register}
    (h : s.register? p = some r) : p < s.size :=
  (Array.getElem?_eq_some_iff.1 h).1

theorem exists_register?_of_lt {s : Store} {p : Position} (h : p < s.size) :
    ∃ r, s.register? p = some r :=
  ⟨_, Array.getElem?_eq_getElem h⟩

theorem register?_empty (p : Position) : (∅ : Store).register? p = none := Array.getElem?_empty

theorem coherent_empty : Coherent ∅ where
  register {p r} h := by rw [register?_empty] at h; cases h
  operand_lt {p r op d} h := by rw [register?_empty] at h; cases h
  position?_iff {name p} := by
    have hnone : (∅ : Store).position? name = none := Std.TreeMap.getElem?_emptyc
    simp [hnone, register?_empty]

/-- In a coherent store a name tells where a register is. -/
theorem Coherent.position?_name {s : Store} (h : s.Coherent) {p : Position} {r : Register}
    (hr : s.register? p = some r) : s.position? r.name = some p :=
  h.position?_iff.2 ⟨r, hr, rfl⟩

theorem Coherent.find?_name {s : Store} (h : s.Coherent) {p : Position} {r : Register}
    (hr : s.register? p = some r) : s.find? r.name = some r := by
  rw [find?, h.position?_name hr, Option.bind_some, hr]

theorem Coherent.name_of_find? {s : Store} (h : s.Coherent) {name : String} {r : Register}
    (hr : s.find? name = some r) : r.name = name := by
  obtain ⟨p, hp, hfound⟩ := Option.bind_eq_some_iff.1 hr
  obtain ⟨r', hr', hname⟩ := h.position?_iff.1 hp
  rw [hfound] at hr'
  cases hr'
  exact hname

theorem nameAt_of_register? {s : Store} {p : Position} {r : Register}
    (h : s.register? p = some r) : s.nameAt p = r.name := by
  rw [nameAt, h, Option.elim_some]

theorem valueAt_of_register? {s : Store} {p : Position} {r : Register}
    (h : s.register? p = some r) : s.valueAt p = r.value := by
  rw [valueAt, h, Option.elim_some]

theorem Coherent.nameAt_eq {s : Store} (h : s.Coherent) {name : String} {p : Position}
    (hp : s.position? name = some p) : s.nameAt p = name := by
  obtain ⟨r, hr, rfl⟩ := h.position?_iff.1 hp
  exact nameAt_of_register? hr

theorem Coherent.position?_nameAt {s : Store} (h : s.Coherent) {p : Position} (hp : p < s.size) :
    s.position? (s.nameAt p) = some p := by
  obtain ⟨r, hr⟩ := exists_register?_of_lt hp
  rw [nameAt_of_register? hr, h.position?_name hr]

theorem Coherent.nameAt_inj {s : Store} (h : s.Coherent) {p q : Position} (hp : p < s.size)
    (hq : q < s.size) (hname : s.nameAt p = s.nameAt q) : p = q := by
  obtain ⟨r, hr⟩ := exists_register?_of_lt hp
  obtain ⟨r', hr'⟩ := exists_register?_of_lt hq
  have hpos := h.position?_name hr
  rw [← nameAt_of_register? hr, hname, nameAt_of_register? hr', h.position?_name hr'] at hpos
  exact (Option.some.inj hpos).symm

/-! ## Declaring -/

/-- The store with a new register behind all others. -/
def add (name : String) (s : Store) : Store where
  registers := s.registers.push { name := name }
  positions := s.positions.insert name s.size

/-- Declaring a name finds its register or adds one. -/
theorem declare_cases (s : Store) (name : String) :
    (∃ p, s.position? name = some p ∧ s.declare name = (p, s)) ∨
      (s.position? name = none ∧ s.declare name = (s.size, s.add name)) := by
  unfold declare
  cases s.position? name with
  | none => exact .inr ⟨rfl, rfl⟩
  | some p => exact .inl ⟨p, rfl, rfl⟩

theorem register?_add (s : Store) (name : String) (p : Position) :
    (s.add name).register? p = if p = s.size then some { name := name } else s.register? p :=
  Array.getElem?_push

theorem position?_add (s : Store) (name name' : String) :
    (s.add name).position? name' = if name = name' then some s.size else s.position? name' := by
  simp only [position?, add, Std.TreeMap.getElem?_insert, Std.LawfulEqCmp.compare_eq_iff_eq]

@[simp] theorem size_add (s : Store) (name : String) : (s.add name).size = s.size + 1 :=
  Array.size_push _

theorem register?_add_of_register? {s : Store} {p : Position} {r : Register}
    (h : s.register? p = some r) (name : String) : (s.add name).register? p = some r := by
  rw [register?_add, if_neg (Nat.ne_of_lt (lt_size_of_register? h)), h]

theorem Coherent.add {s : Store} (h : s.Coherent) {name : String}
    (hnew : s.position? name = none) : (s.add name).Coherent where
  register {p r} hr := by
    rw [register?_add] at hr
    split at hr
    · obtain rfl := Option.some.inj hr
      exact Register.coherent_empty name
    · exact h.register hr
  operand_lt {p r op d} hr hd := by
    rw [register?_add] at hr
    rw [size_add]
    split at hr
    · obtain rfl := Option.some.inj hr
      simp [Register.plan] at hd
    · exact Nat.lt_succ_of_lt (h.operand_lt hr hd)
  position?_iff {name' p} := by
    rw [position?_add, register?_add]
    by_cases hname : name = name'
    · subst hname
      rw [if_pos rfl]
      constructor
      · intro hp
        obtain rfl := Option.some.inj hp
        exact ⟨{ name := name }, by simp, rfl⟩
      · rintro ⟨r, hr, hrn⟩
        split at hr
        · next hp => rw [hp]
        · rw [← hrn, h.position?_name hr] at hnew
          cases hnew
    · rw [if_neg hname, h.position?_iff]
      constructor
      · rintro ⟨r, hr, hrn⟩
        exact ⟨r, by rw [if_neg (Nat.ne_of_lt (lt_size_of_register? hr)), hr], hrn⟩
      · rintro ⟨r, hr, hrn⟩
        split at hr
        · obtain rfl := Option.some.inj hr
          exact absurd hrn hname
        · exact ⟨r, hr, hrn⟩

theorem register?_declare_of_register? {s : Store} {p : Position} {r : Register}
    (h : s.register? p = some r) (name : String) : (s.declare name).2.register? p = some r := by
  obtain ⟨q, -, hd⟩ | ⟨-, hd⟩ := s.declare_cases name <;> rw [hd]
  · exact h
  · exact register?_add_of_register? h name

theorem Coherent.declare {s : Store} (h : s.Coherent) (name : String) :
    (s.declare name).2.Coherent := by
  obtain ⟨q, -, hd⟩ | ⟨hnew, hd⟩ := s.declare_cases name <;> rw [hd]
  · exact h
  · exact h.add hnew

theorem position?_declare (s : Store) (name : String) :
    (s.declare name).2.position? name = some (s.declare name).1 := by
  obtain ⟨q, hq, hd⟩ | ⟨-, hd⟩ := s.declare_cases name <;> rw [hd]
  · exact hq
  · rw [position?_add, if_pos rfl]

theorem Coherent.exists_register?_declare {s : Store} (h : s.Coherent) (name : String) :
    ∃ r, (s.declare name).2.register? (s.declare name).1 = some r ∧ r.name = name :=
  (h.declare name).position?_iff.1 (s.position?_declare name)

theorem Coherent.declare_ne {s : Store} (h : s.Coherent) {p : Position} {r : Register}
    (hr : s.register? p = some r) {name : String} (hne : r.name ≠ name) :
    (s.declare name).1 ≠ p := by
  intro hp
  obtain ⟨r', hr', hname⟩ := h.exists_register?_declare name
  rw [hp, register?_declare_of_register? hr name] at hr'
  exact hne ((Option.some.inj hr').symm ▸ hname)

theorem register?_declareOperand_of_register? {s : Store} {p : Position} {r : Register}
    (h : s.register? p = some r) (operand : Operand String) :
    (s.declareOperand operand).2.register? p = some r := by
  cases operand with
  | number x => exact h
  | register name => exact register?_declare_of_register? h name

theorem Coherent.declareOperand {s : Store} (h : s.Coherent) (operand : Operand String) :
    (s.declareOperand operand).2.Coherent := by
  cases operand with
  | number x => exact h
  | register name => exact h.declare name

theorem Coherent.lt_size_of_position? {s : Store} (h : s.Coherent) {name : String} {p : Position}
    (hp : s.position? name = some p) : p < s.size := by
  obtain ⟨r, hr, -⟩ := h.position?_iff.1 hp
  exact lt_size_of_register? hr

theorem Coherent.declareOperand_lt {s : Store} (h : s.Coherent) {operand : Operand String}
    {d : Position} (hd : (s.declareOperand operand).1 = .register d) :
    d < (s.declareOperand operand).2.size := by
  cases operand with
  | number x => cases hd
  | register name =>
    obtain rfl : (s.declare name).1 = d := Operand.register.inj hd
    exact (h.declare name).lt_size_of_position? (s.position?_declare name)

/-! ## Changing a register -/

theorem register?_modify_self {s : Store} {p : Position} {r : Register}
    (h : s.register? p = some r) (f : Register → Register) :
    (s.modify p f).register? p = some (f r) := by
  rw [register?_modify, if_pos rfl, h, Option.map_some]

theorem register?_modify_of_ne {s : Store} {p q : Position} (h : p ≠ q)
    (f : Register → Register) : (s.modify p f).register? q = s.register? q := by
  rw [register?_modify, if_neg h]

theorem nameAt_modify (s : Store) (p : Position) {f : Register → Register}
    (hname : ∀ r, (f r).name = r.name) : (s.modify p f).nameAt = s.nameAt := by
  funext q
  unfold nameAt
  rw [register?_modify]
  split
  · cases s.register? q with
    | none => rfl
    | some r => exact hname r
  · rfl

theorem names_modify (s : Store) (p : Position) {f : Register → Register}
    (hname : ∀ r, (f r).name = r.name) : (s.modify p f).names = s.names := by
  unfold names modify
  rw [Array.toList_modify]
  exact map_modify_of_eq hname _ _

/-- A change that keeps a register coherent, its name, and its operands in the store keeps the store
coherent. -/
theorem Coherent.modify {s : Store} (h : s.Coherent) {p : Position} {f : Register → Register}
    (hname : ∀ r, (f r).name = r.name)
    (hf : ∀ r, s.register? p = some r → (f r).Coherent ∧
      ∀ op d, (op, Operand.register d) ∈ (f r).plan → d < s.size) : (s.modify p f).Coherent where
  register {q r} hr := by
    by_cases hpq : p = q
    · subst hpq
      rw [register?_modify, if_pos rfl] at hr
      obtain ⟨r₀, hr₀, rfl⟩ := Option.map_eq_some_iff.1 hr
      exact (hf r₀ hr₀).1
    · rw [register?_modify_of_ne hpq] at hr
      exact h.register hr
  operand_lt {q r op d} hr hd := by
    rw [size_modify]
    by_cases hpq : p = q
    · subst hpq
      rw [register?_modify, if_pos rfl] at hr
      obtain ⟨r₀, hr₀, rfl⟩ := Option.map_eq_some_iff.1 hr
      exact (hf r₀ hr₀).2 op d hd
    · rw [register?_modify_of_ne hpq] at hr
      exact h.operand_lt hr hd
  position?_iff {name q} := by
    rw [position?_modify, h.position?_iff]
    by_cases hpq : p = q
    · subst hpq
      rw [register?_modify, if_pos rfl]
      constructor
      · rintro ⟨r, hr, hrn⟩
        exact ⟨f r, by rw [hr, Option.map_some], (hname r).trans hrn⟩
      · rintro ⟨r, hr, hrn⟩
        obtain ⟨r₀, hr₀, rfl⟩ := Option.map_eq_some_iff.1 hr
        exact ⟨r₀, hr₀, (hname r₀).symm.trans hrn⟩
    · rw [register?_modify_of_ne hpq]

theorem Coherent.record {s : Store} (h : s.Coherent) (p : Position) (op : Operation)
    {operand : Operand Position} (hd : ∀ d, operand = .register d → d < s.size) :
    (s.record p op operand).Coherent := by
  refine h.modify (fun _ => rfl) fun r hr => ⟨(h.register hr).record op operand, ?_⟩
  intro op' d hmem
  simp only [Register.plan, Register.record, Array.toList_push, List.map_append, List.map_cons,
    List.map_nil, List.mem_append, List.mem_singleton, Prod.mk.injEq] at hmem
  rcases hmem with hmem | ⟨-, hmem⟩
  · exact h.operand_lt hr hmem
  · exact hd d hmem.symm

theorem Coherent.applyPending {s : Store} (h : s.Coherent) (p : Position) (x : Float) :
    (s.applyPending p x).Coherent := by
  refine h.modify (fun r => r.name_applyPending x) fun r hr => ?_
  refine ⟨(h.register hr).applyPending x, fun op d hmem => ?_⟩
  rw [Register.plan_applyPending] at hmem
  exact h.operand_lt hr hmem

end Store

end LazyRegisters
