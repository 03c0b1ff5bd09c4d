import LazyRegisters.Proofs.Refinement
import Mathlib.Data.List.Induction

/-!
# Replaying the events

A listener who has joined before all calls can tell the registers from the events alone. The
applications to a register come one by one in the order of its log, and replaying them all from zero
gives the values of the store (`Told`). Each of them is as its entry says: the operand is the number
recorded there, or the replayed value of the register that the entry refers to, and nothing recorded
against that one was still to be applied (`Explained`).

One application is put in terms of names first (`Store.Applies.byName`), then those of a forcing
(`Store.Evolves.told`), then those of all calls.
-/

namespace LazyRegisters

/-- The events that a listener has heard; listeners are counted in the order of joining. -/
def Journal.heardBy (k : Nat) (j : Journal) : List Event :=
  ((j.heardFrom 0).filter fun x => x.1 = k).map Prod.snd

def applicationsTo (name : String) (events : List Event) : List Application :=
  events.filterMap fun
    | .applied a => if a.register = name then some a else none
    | .cycleDetected _ => none

/-- The values that events leave the registers with, all being zero at first. -/
def replay (events : List Event) : String → Float :=
  events.foldl (fun value event =>
    match event with
    | .applied a => Function.update value a.register a.value
    | .cycleDetected _ => value) fun _ => 0

namespace Store

def recorded (s : Store) (name : String) : List (Operation × Operand String) :=
  (s.cell name).log.map fun e => (e.operation, e.operand)

def appliedCount (s : Store) (name : String) : Nat := (s.cell name).log.countP (·.applied)

/-- The events tell the applied entries and the values of all registers. -/
structure Told (s : Store) (events : List Event) : Prop where
  indices : ∀ name,
    (applicationsTo name events).map Application.index = List.range (s.appliedCount name)
  values : ∀ name, replay events name = (s.cell name).value

/-- What an operand is applied with after the given events: a number with itself, and a register
with its replayed value, once all that was recorded against it has been applied. -/
inductive Supplied (s : Store) (before : List Event) : Operand String → Float → Prop where
  | number (x : Float) : s.Supplied before (.number x) x
  | register (d : String) (hall : (applicationsTo d before).length = (s.recorded d).length) :
    s.Supplied before (.register d) (replay before d)

/-- An application comes about after the given events as an entry with this operand says. -/
structure Accounts (s : Store) (before : List Event) (a : Application) (operand : Operand String) :
    Prop where
  value_eq : a.value = a.operation.apply (replay before a.register) a.operand
  supplied : s.Supplied before operand a.operand

end Store

/-! ## Lists of events -/

theorem applicationsTo_append (name : String) (events events' : List Event) :
    applicationsTo name (events ++ events') =
      applicationsTo name events ++ applicationsTo name events' :=
  List.filterMap_append

theorem replay_concat_applied (events : List Event) (a : Application) :
    replay (events ++ [.applied a]) = Function.update (replay events) a.register a.value := by
  rw [replay, List.foldl_append]
  rfl

theorem replay_concat_cycleDetected (events : List Event) (name : String) :
    replay (events ++ [.cycleDetected name]) = replay events := by
  rw [replay, List.foldl_append]
  rfl

theorem getElem?_append_cases {α : Type} {l l' : List α} {i : Nat} {a : α}
    (h : (l ++ l')[i]? = some a) :
    (i < l.length ∧ l[i]? = some a ∧ (l ++ l').take i = l.take i) ∨
      ∃ k, i = l.length + k ∧ l'[k]? = some a ∧ (l ++ l').take i = l ++ l'.take k := by
  rcases Nat.lt_or_ge i l.length with hlt | hge
  · rw [List.getElem?_append_left hlt] at h
    exact .inl ⟨hlt, h, List.take_append_of_le_length (Nat.le_of_lt hlt)⟩
  · rw [List.getElem?_append_right hge] at h
    refine .inr ⟨i - l.length, (Nat.add_sub_cancel' hge).symm, h, ?_⟩
    rw [List.take_append, List.take_of_length_le hge]

theorem getElem?_map_applied_append {as : List Application} {closing : List Event} {i : Nat}
    {a : Application} (hclosing : ∀ a, Event.applied a ∉ closing)
    (h : (as.map Event.applied ++ closing)[i]? = some (.applied a)) :
    as[i]? = some a ∧ (as.map Event.applied ++ closing).take i = (as.take i).map .applied := by
  obtain ⟨-, h, htake⟩ | ⟨k, -, h, -⟩ := getElem?_append_cases h
  · rw [List.getElem?_map] at h
    obtain ⟨a', ha', heq⟩ := Option.map_eq_some_iff.1 h
    obtain rfl := Event.applied.inj heq
    exact ⟨ha', by rw [htake, List.map_take]⟩
  · exact absurd (List.mem_of_getElem? h) (hclosing a)

/-! ## One application -/

namespace Store

variable {s s' : Store} {p : Position} {a : Application} {r : Register}

theorem Coherent.value_cell (hs : s.Coherent) (hr : s.register? p = some r) :
    (s.cell r.name).value = r.value := by
  rw [hs.cell_name hr]
  rfl

theorem Coherent.recorded_name (hs : s.Coherent) (hr : s.register? p = some r) :
    s.recorded r.name = r.log.toList.map fun e => (e.operation, s.named e.operand) := by
  rw [recorded, hs.cell_name hr, Register.cell, List.map_map]
  rfl

theorem Coherent.appliedCount_name (hs : s.Coherent) (hr : s.register? p = some r) :
    s.appliedCount r.name = r.cursor := by
  have hcr := hs.register hr
  have hcount : s.appliedCount r.name = r.log.toList.countP (·.applied) := by
    rw [appliedCount, hs.cell_name hr, Register.cell, List.countP_map]
    rfl
  have hsplit : r.log.toList.countP (·.applied) + r.pending.length = r.log.size := by
    simpa [Register.pending, List.countP_eq_length_filter] using
      (List.length_eq_countP_add_countP (·.applied) (l := r.log.toList)).symm
  have hle := hcr.cursor_le
  rw [hcr.length_pending, Register.pendingCount] at hsplit
  omega

theorem Supplies.byName (hs : s.Coherent) {op : Operation} {operand : Operand Position} {x : Float}
    (hr : s.register? p = some r) (hplan : (op, operand) ∈ r.plan) (h : s.Supplies operand x) :
    s.named operand = .number x ∨ ∃ d, s.named operand = .register d ∧ x = (s.cell d).value ∧
      s.appliedCount d = (s.recorded d).length := by
  cases h with
  | number x => exact .inl rfl
  | @register d hres =>
    obtain ⟨rd, hrd⟩ := exists_register?_of_lt (hs.operand_lt hr hplan)
    refine .inr ⟨s.nameAt d, rfl, ?_, ?_⟩ <;> rw [nameAt_of_register? hrd]
    · rw [hs.value_cell hrd, valueAt_of_register? hrd]
    · have hle := (hs.register hrd).cursor_le
      rw [isResolvedAt, hrd, Option.all_some, Register.isResolved, decide_eq_true_iff] at hres
      rw [hs.appliedCount_name hrd, hs.recorded_name hrd, List.length_map, Array.length_toList]
      omega

/-- An application by name: it is the next one of its register, applies what is recorded there to
the value of the register, and a register among the operands has nothing left to apply. -/
theorem Applies.byName (hs : s.Coherent) (h : s.Applies p a s') :
    s'.cell = Function.update s.cell a.register
        ⟨a.value, (s.cell a.register).log.modify a.index fun e => { e with applied := true }⟩ ∧
      a.index = s.appliedCount a.register ∧
      a.value = a.operation.apply (s.cell a.register).value a.operand ∧
      ∃ operand, (s.recorded a.register)[a.index]? = some (a.operation, operand) ∧
        (operand = .number a.operand ∨ ∃ d, operand = .register d ∧ a.operand = (s.cell d).value ∧
          s.appliedCount d = (s.recorded d).length) := by
  obtain @⟨r, e, x, hr, he, hx⟩ := h
  have hlog : r.log[r.cursor]? = some e := he
  refine ⟨?_, (hs.appliedCount_name hr).symm, by rw [hs.value_cell hr], s.named e.operand, ?_, ?_⟩
  · rw [hs.cell_applyPending hr he, hs.value_cell hr]
  · rw [hs.recorded_name hr, List.getElem?_map, Array.getElem?_toList, hlog, Option.map_some]
  · exact hx.byName hs hr (Register.mem_plan_of_pendingEntry? he)

theorem Applies.recorded_eq (hs : s.Coherent) (h : s.Applies p a s') :
    s'.recorded = s.recorded := by
  funext name
  rw [recorded, recorded, (h.byName hs).1]
  by_cases hname : name = a.register
  · subst hname
    rw [Function.update_self]
    refine map_modify_of_eq ?_ _ _
    exact fun _ => rfl
  · rw [Function.update_of_ne hname]

theorem Applies.appliedCount_eq (hs : s.Coherent) (h : s.Applies p a s') :
    s'.appliedCount =
      Function.update s.appliedCount a.register (s.appliedCount a.register + 1) := by
  have hs' := h.coherent hs
  funext name
  by_cases hname : name = a.register
  · subst hname
    rw [Function.update_self]
    obtain @⟨r, e, x, hr, he, hx⟩ := h
    have hr' : (s.applyPending p x).register? p = some (r.applyPending x) :=
      register?_modify_self hr _
    have hcount := hs'.appliedCount_name hr'
    rw [Register.name_applyPending, Register.applyPending_eq he] at hcount
    rw [hcount, hs.appliedCount_name hr]
  · rw [Function.update_of_ne hname, appliedCount, (h.byName hs).1, Function.update_of_ne hname,
      appliedCount]

/-! ## Applications are told of -/

variable {before events : List Event} {as : List Application} {touched : Position → Prop}

theorem told_empty : (∅ : Store).Told [] := by
  have hcell (name : String) : (∅ : Store).cell name = {} :=
    cell_of_position?_eq_none Std.TreeMap.getElem?_emptyc
  exact ⟨fun name => by simp [applicationsTo, appliedCount, hcell], fun name => by
    rw [hcell]
    rfl⟩

theorem Told.concat_applied (hs : s.Coherent) (h : s.Told events) (ha : s.Applies p a s') :
    s'.Told (events ++ [.applied a]) := by
  obtain ⟨hcell, hindex, -⟩ := ha.byName hs
  refine ⟨fun name => ?_, fun name => ?_⟩
  · rw [applicationsTo_append, List.map_append, h.indices, ha.appliedCount_eq hs]
    by_cases hname : name = a.register
    · subst hname
      rw [Function.update_self, List.range_succ, ← hindex]
      simp [applicationsTo]
    · rw [Function.update_of_ne hname]
      simp [applicationsTo, Ne.symm hname]
  · rw [replay_concat_applied, hcell]
    by_cases hname : name = a.register
    · subst hname
      rw [Function.update_self, Function.update_self]
    · rw [Function.update_of_ne hname, Function.update_of_ne hname, h.values]

theorem Told.concat_cycleDetected (h : s.Told events) (name : String) :
    s.Told (events ++ [.cycleDetected name]) := by
  refine ⟨fun name' => ?_, fun name' => ?_⟩
  · rw [applicationsTo_append, ← h.indices]
    simp [applicationsTo]
  · rw [replay_concat_cycleDetected, h.values]

/-- What is applied next comes about as its entry says. -/
theorem Told.accounts (hs : s.Coherent) (h : s.Told events) (ha : s.Applies p a s') :
    ∃ operand, (s.recorded a.register)[a.index]? = some (a.operation, operand) ∧
      s.Accounts events a operand := by
  obtain ⟨-, -, hvalue, operand, hrecorded, hoperand⟩ := ha.byName hs
  refine ⟨operand, hrecorded, by rw [hvalue, h.values], ?_⟩
  obtain rfl | ⟨d, rfl, hd, hall⟩ := hoperand
  · exact .number _
  · rw [hd, ← h.values]
    refine .register d ?_
    rw [← hall, ← List.length_map Application.index, h.indices, List.length_range]

theorem Supplied.congr {operand : Operand String} {x : Float}
    (h : s.Supplied before operand x) (hrecorded : s'.recorded = s.recorded) :
    s'.Supplied before operand x := by
  cases h with
  | number x => exact .number x
  | register d hall => exact .register d (by rw [hrecorded, hall])

theorem Evolves.recorded_eq (hs : s.Coherent) (hev : s.Evolves touched as s') :
    s'.recorded = s.recorded := by
  induction hev with
  | refl => rfl
  | tail hev _ ha ih => exact (ha.recorded_eq (hev.coherent hs)).trans ih

/-- What a sequence of applications tells. -/
theorem Evolves.told (hs : s.Coherent) (hev : s.Evolves touched as s') (h : s.Told events) :
    s'.Told (events ++ as.map .applied) ∧ s'.recorded = s.recorded ∧
      ∀ i a, as[i]? = some a → ∃ operand,
        (s.recorded a.register)[a.index]? = some (a.operation, operand) ∧
          s.Accounts (events ++ (as.take i).map .applied) a operand := by
  induction hev with
  | refl => exact ⟨by simpa using h, rfl, fun i a hi => by simp at hi⟩
  | @tail as s₁ s₂ q b hev _ hb ih =>
    obtain ⟨htold, hrecorded, haccounts⟩ := ih
    have hs₁ := hev.coherent hs
    refine ⟨?_, (hb.recorded_eq hs₁).trans hrecorded, fun i a hi => ?_⟩
    · rw [List.map_append, ← List.append_assoc]
      exact htold.concat_applied hs₁ hb
    · obtain ⟨-, hi, htake⟩ | ⟨k, rfl, hk, htake⟩ := getElem?_append_cases hi <;> rw [htake]
      · exact haccounts i a hi
      · obtain ⟨rfl, rfl⟩ : k = 0 ∧ b = a := by simpa [List.getElem?_singleton] using hk
        obtain ⟨operand, hentry, hacc⟩ := htold.accounts hs₁ hb
        rw [List.take_zero, List.append_nil]
        exact ⟨operand, hrecorded ▸ hentry, hacc.value_eq, hacc.supplied.congr hrecorded.symm⟩

/-! ## Recording tells nothing -/

theorem Coherent.cell_declareOperand (hs : s.Coherent) (operand : Operand String) :
    (s.declareOperand operand).2.cell = s.cell := by
  cases operand with
  | number x => rfl
  | register name => exact hs.cell_declare name

theorem Coherent.cell_operate (hs : s.Coherent) (target : String) (op : Operation)
    (operand : Operand String) :
    (s.operate target op operand).cell = Function.update s.cell target
      { s.cell target with log := (s.cell target).log ++ [⟨op, operand, false⟩] } := by
  have hs₁ := hs.declare target
  obtain ⟨r, hr, hname⟩ := hs.exists_register?_declare target
  have hrecord := (hs₁.declareOperand operand).cell_record
    (register?_declareOperand_of_register? hr operand) op
    ((s.declare target).2.declareOperand operand).1
  rw [hs₁.named_declareOperand, hname, hs₁.cell_declareOperand, hs.cell_declare] at hrecord
  exact hrecord

theorem Told.operate (hs : s.Coherent) (h : s.Told events) (target : String) (op : Operation)
    (operand : Operand String) : (s.operate target op operand).Told events := by
  have hcell := hs.cell_operate target op operand
  refine ⟨fun name => ?_, fun name => ?_⟩
  · rw [h.indices, appliedCount, appliedCount, hcell]
    by_cases hname : name = target
    · subst hname
      simp
    · rw [Function.update_of_ne hname]
  · rw [h.values, hcell]
    by_cases hname : name = target
    · subst hname
      rw [Function.update_self]
    · rw [Function.update_of_ne hname]

theorem Coherent.recorded_operate (hs : s.Coherent) (target : String) (op : Operation)
    (operand : Operand String) (name : String) :
    (s.operate target op operand).recorded name =
      s.recorded name ++ if target = name then [(op, operand)] else [] := by
  rw [recorded, recorded, hs.cell_operate]
  by_cases hname : target = name
  · subst hname
    simp
  · simp [Function.update_of_ne (Ne.symm hname), hname]

theorem Coherent.recorded_operate_prefix (hs : s.Coherent) (target : String) (op : Operation)
    (operand : Operand String) (name : String) :
    s.recorded name <+: (s.operate target op operand).recorded name := by
  rw [hs.recorded_operate]
  exact List.prefix_append _ _

end Store

/-! ## What a listener hears -/

/-- The first of the listeners is told of an event once; the others are counted from 1. -/
theorem Journal.tellings_zero (others : List Nat) (i : Nat) (e : Event) :
    ((((0 :: others).zipIdx.filter fun (joined, _) => joined ≤ i).map fun (_, k) => (k, e)).filter
      fun x => x.1 = 0).map Prod.snd = [e] := by
  have hothers : ((((others.zipIdx 1).filter fun (joined, _) => joined ≤ i).map
      fun (_, k) => (k, e)).filter fun x => x.1 = 0) = [] := by
    rw [List.filter_eq_nil_iff]
    intro x hx hzero
    obtain ⟨y, hy, rfl⟩ := List.mem_map.1 hx
    have hone := List.le_snd_of_mem_zipIdx (List.mem_filter.1 hy).1
    simp only [decide_eq_true_eq] at hzero
    omega
  rw [List.zipIdx_cons, List.filter_cons_of_pos (by simp), List.map_cons,
    List.filter_cons_of_pos (by simp), hothers]
  rfl

theorem Journal.heardBy_zero {j : Journal} (h : [0] <+: j.listeners.toList) :
    j.heardBy 0 = j.events.toList := by
  obtain ⟨others, hothers⟩ := h
  have htold : (fun x : Event × Nat => (((j.listeners.toList.zipIdx.filter
      fun (joined, _) => joined ≤ x.2).map fun (_, k) => (k, x.1)).filter
        fun x => x.1 = 0).map Prod.snd) = fun x => [x.1] := by
    funext x
    rw [← hothers]
    exact tellings_zero others x.2 x.1
  rw [heardBy, heardFrom, List.filter_flatMap, List.map_flatMap, htold, ← List.map_eq_flatMap,
    List.zipIdx_map_fst, Array.extract_eq_self_of_le (Nat.le_refl _)]

namespace Calculator

/-- A calculator after calls, with a listener who has joined before all of them. -/
def attended (calls : List Call) : Calculator := fresh.listen.performAll calls

/-- What the first listener has heard after calls. -/
def heard (calls : List Call) : List Event := (attended calls).journal.heardBy 0

/-- An event of an application, the one at the index `i`, came about during one of the calls. No
operation was recorded by that call. The application is that of an entry which is still recorded at
the end, and came about as the entry says. -/
def Explained (calls : List Call) (i : Nat) (a : Application) : Prop :=
  ∃ earlier call later operand, calls = earlier ++ call :: later ∧
    heard earlier <+: (heard calls).take i ∧
    (heard calls).take (i + 1) <+: heard (earlier ++ [call]) ∧
    (attended (earlier ++ [call])).store.recorded = (attended earlier).store.recorded ∧
    ((attended calls).store.recorded a.register)[a.index]? = some (a.operation, operand) ∧
    (attended earlier).store.Accounts ((heard calls).take i) a operand

theorem heard_eq (calls : List Call) : heard calls = (attended calls).journal.events.toList :=
  Journal.heardBy_zero (listeners_performAll calls fresh.listen)

theorem Effect.told {c c' : Calculator} (hs : c.store.Coherent) (h : c.Effect c')
    (htold : c.store.Told c.journal.events.toList) :
    ∃ new, c'.journal.events.toList = c.journal.events.toList ++ new ∧
      c'.store.Told c'.journal.events.toList ∧
      (∀ name, c.store.recorded name <+: c'.store.recorded name) ∧
      ∀ i a, new[i]? = some (.applied a) → c'.store.recorded = c.store.recorded ∧
        ∃ operand, (c.store.recorded a.register)[a.index]? = some (a.operation, operand) ∧
          c.store.Accounts (c.journal.events.toList ++ new.take i) a operand := by
  obtain ⟨hstore, hevents⟩ | ⟨target, op, operand, hstore, hevents⟩ | ⟨name, hstore, hevents⟩ :=
    h.kind <;> rw [hstore, hevents]
  · exact ⟨[], by simp, htold, fun _ => List.prefix_rfl, fun i a hi => by simp at hi⟩
  · exact ⟨[], by simp, htold.operate hs target op operand,
      hs.recorded_operate_prefix target op operand, fun i a hi => by simp at hi⟩
  · obtain ⟨touched, as, closing, hev, hnew, hclosing⟩ := events_valueOf hs name
    obtain ⟨htold', hrecorded, haccounts⟩ := hev.told hs htold
    refine ⟨as.map .applied ++ closing, by rw [hnew, List.append_assoc], ?_, fun name => ?_,
      fun i a hi => ⟨hrecorded, ?_⟩⟩
    · rw [hnew]
      obtain rfl | ⟨register, rfl⟩ := hclosing
      · rwa [List.append_nil]
      · exact htold'.concat_cycleDetected register
    · exact hrecorded ▸ List.prefix_rfl
    · have hnone : ∀ a, .applied a ∉ closing := by
        obtain rfl | ⟨register, rfl⟩ := hclosing <;> simp
      obtain ⟨hi, htake⟩ := getElem?_map_applied_append hnone hi
      rw [htake]
      exact haccounts i a hi

/-! ## All calls -/

theorem attended_concat (calls : List Call) (call : Call) :
    attended (calls ++ [call]) = (attended calls).perform call :=
  performAll_append calls [call] fresh.listen

/-- What has been explained stays so. -/
theorem Explained.concat {calls : List Call} {call : Call} {new : List Event} {i : Nat}
    {a : Application} (h : Explained calls i a)
    (hnew : heard (calls ++ [call]) = heard calls ++ new) (hi : i < (heard calls).length)
    (hrecorded : ∀ name, (attended calls).store.recorded name <+:
      (attended (calls ++ [call])).store.recorded name) : Explained (calls ++ [call]) i a := by
  obtain ⟨earlier, during, later, operand, hcalls, hbefore, hafter, hkept, hentry, haccounts⟩ := h
  refine ⟨earlier, during, later ++ [call], operand, by rw [hcalls]; simp, ?_, ?_, hkept, ?_, ?_⟩
  · rwa [hnew, List.take_append_of_le_length (Nat.le_of_lt hi)]
  · rwa [hnew, List.take_append_of_le_length hi]
  · obtain ⟨more, hmore⟩ := hrecorded a.register
    rw [← hmore, List.getElem?_append_left (List.getElem?_eq_some_iff.1 hentry).1, hentry]
  · rwa [hnew, List.take_append_of_le_length (Nat.le_of_lt hi)]

/-- After calls that are not runs, the first listener can tell the store, and all that he has heard
of is explained. -/
theorem told_and_explained {calls : List Call} (hsingle : ∀ call ∈ calls, call.Single) :
    (attended calls).store.Told (heard calls) ∧
      ∀ i a, (heard calls)[i]? = some (.applied a) → Explained calls i a := by
  induction calls using List.reverseRecOn with
  | nil =>
    rw [heard_eq]
    exact ⟨Store.told_empty, fun i a hi => by cases hi⟩
  | append_singleton calls call ih =>
    obtain ⟨htold, hexplained⟩ := ih fun call' h => hsingle call' (List.mem_append_left _ h)
    have hs : (attended calls).store.Coherent := coherent_performAll calls Store.coherent_empty
    have heffect := effect_perform (hsingle call (by simp)) (attended calls)
    rw [← attended_concat] at heffect
    rw [heard_eq] at htold
    obtain ⟨new, hnew, htold', hprefix, haccounts⟩ := heffect.told hs htold
    rw [← heard_eq, ← heard_eq] at hnew
    rw [← heard_eq] at htold'
    refine ⟨htold', fun i a hi => ?_⟩
    rw [hnew] at hi
    obtain ⟨hlt, hi, -⟩ | ⟨k, -, hk, htake⟩ := getElem?_append_cases hi
    · exact (hexplained i a hi).concat hnew hlt hprefix
    · rw [← hnew] at htake
      obtain ⟨hrecorded, operand, hentry, hacc⟩ := haccounts k a hk
      refine ⟨calls, call, [], operand, rfl, ?_, List.take_prefix _ _, hrecorded,
        hrecorded ▸ hentry, ?_⟩
      · rw [htake]
        exact List.prefix_append _ _
      · rw [htake, heard_eq calls]
        exact hacc

/-- **Every entry is applied once, and told of as it is.** The events of a register carry the
indices of its applied entries, in order and each of them once; the replayed values are those of the
store; and every application is explained by its entry and by the events before it. -/
theorem heard_faithful (calls : List Call) :
    (∀ name, (applicationsTo name (heard calls)).map Application.index =
          List.range ((attended calls).store.appliedCount name) ∧
        replay (heard calls) name = ((attended calls).store.cell name).value) ∧
      ∀ i a, (heard calls)[i]? = some (.applied a) →
        Explained (calls.flatMap Call.parts) i a := by
  have hsame : attended (calls.flatMap Call.parts) = attended calls :=
    performAll_parts calls fresh.listen
  have hheard : heard (calls.flatMap Call.parts) = heard calls := by
    rw [heard, hsame, heard]
  have hsingle : ∀ part ∈ calls.flatMap Call.parts, part.Single := fun _ =>
    Call.single_of_mem_flatMap
  obtain ⟨htold, hexplained⟩ := told_and_explained hsingle
  rw [hsame, hheard] at htold
  rw [hheard] at hexplained
  exact ⟨fun name => ⟨htold.indices name, htold.values name⟩, hexplained⟩

/-- `b` is forced, operated on again and forced once more, with an unknown operator and a cycle in
between. -/
theorem heard_faithful_incremental :
    let calls := [Call.run ["a add 5", "b add a", "b add 1", "print b", "a multiply 2",
      "b subtract a", "c add 4", "c add c", "b divide 2", "print c", "print b", "print b"]]
    (heard calls)[6]? = some (.applied ⟨"b", 2, .subtract, 10, -4⟩) ∧
      Explained (calls.flatMap Call.parts) 6 ⟨"b", 2, .subtract, 10, -4⟩ ∧
      (attended calls).store.appliedCount "b" = 3 ∧
      (applicationsTo "b" (heard calls)).map Application.index = [0, 1, 2] ∧
      replay (heard calls) "b" = -4 ∧ ((attended calls).store.cell "b").value = -4 := by
  intro calls
  have hheard : (heard calls)[6]? = some (.applied ⟨"b", 2, .subtract, 10, -4⟩) := by
    decide +kernel
  have hcount : (attended calls).store.appliedCount "b" = 3 := by decide +kernel
  have hvalue : ((attended calls).store.cell "b").value = -4 := by decide +kernel
  obtain ⟨htold, hexplained⟩ := heard_faithful calls
  obtain ⟨hindices, hreplay⟩ := htold "b"
  exact ⟨hheard, hexplained 6 _ hheard, hcount, hindices.trans (congrArg List.range hcount),
    hreplay.trans hvalue, hvalue⟩

end Calculator

end LazyRegisters
