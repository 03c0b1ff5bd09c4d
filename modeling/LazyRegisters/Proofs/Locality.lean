import LazyRegisters.Proofs.Calls

/-!
# Forcing is local

A move reads no registers but the innermost of the path and the one that it is blocked on, and
changes none but the innermost. All of these can be reached from the root. So an operation that is
recorded against a register which cannot be reached makes no difference to a forcing, whether it is
recorded before or after it: `Recorded` relates the two forcings, each move keeps them related, and
in the end the stores are equal.

The graph is the one before both. The operation may close a cycle in it, but no path that forcing
goes along comes to it.
-/

namespace LazyRegisters

namespace Store

/-! ## Recording and changing another register -/

theorem modify_push_of_lt {rs : Array Register} {p : Position} (h : p < rs.size) (r : Register)
    (f : Register → Register) : (rs.push r).modify p f = (rs.modify p f).push r := by
  refine Array.ext_getElem? fun i => ?_
  simp only [Array.getElem?_modify, Array.getElem?_push, Array.size_modify]
  by_cases hi : i = rs.size
  · have hpi : p ≠ i := hi ▸ Nat.ne_of_lt h
    rw [if_neg hpi, if_pos hi, if_pos hi]
  · rw [if_neg hi, if_neg hi]

theorem modify_modify_of_ne {p q : Position} (h : p ≠ q) (f g : Register → Register) (s : Store) :
    (s.modify p f).modify q g = (s.modify q g).modify p f := by
  unfold modify
  congr 1
  refine Array.toList_inj.1 ?_
  simp only [Array.toList_modify]
  exact List.modify_modify_ne f g _ h

theorem declare_modify {s : Store} {p : Position} (h : p < s.size) (f : Register → Register)
    (name : String) :
    (s.modify p f).declare name = ((s.declare name).1, (s.declare name).2.modify p f) := by
  obtain ⟨q, hq, hd⟩ | ⟨hnew, hd⟩ := s.declare_cases name
  · rw [hd, declare, position?_modify, hq]
  · rw [hd, declare, position?_modify, hnew, size_modify]
    simp only [modify, add]
    rw [modify_push_of_lt h]

theorem declareOperand_modify {s : Store} {p : Position} (h : p < s.size)
    (f : Register → Register) (operand : Operand String) :
    (s.modify p f).declareOperand operand =
      ((s.declareOperand operand).1, (s.declareOperand operand).2.modify p f) := by
  cases operand with
  | number x => rfl
  | register name => simp only [declareOperand, declare_modify h]

variable {s : Store} {p q : Position} {r : Register} {target : String}

/-- Recording an operation commutes with changes of other registers than its target. -/
theorem Coherent.operate_modify (hs : s.Coherent) (hr : s.register? p = some r)
    (hne : r.name ≠ target) (f : Register → Register) (op : Operation) (operand : Operand String) :
    (s.modify p f).operate target op operand = (s.operate target op operand).modify p f := by
  have hr' := register?_declare_of_register? hr target
  simp only [Store.operate, declare_modify (lt_size_of_register? hr),
    declareOperand_modify (lt_size_of_register? hr'), Store.record]
  exact modify_modify_of_ne (hs.declare_ne hr hne).symm _ _ _

end Store

namespace Forcing

/-! ## One move -/

/-- The next move depends on the innermost register and on the one that it is blocked on. -/
theorem move_congr {f g : Forcing} (hpath : g.path = f.path) (hset : g.onPath = f.onPath)
    (htop : ∀ p ∈ f.path, g.store.register? p = f.store.register? p)
    (hnext : ∀ p ∈ f.path, ∀ d, f.store.BlockedOn p d →
      g.store.register? d = f.store.register? d) : g.move = f.move := by
  cases hp : f.path with
  | nil => rw [move_of_path_eq_nil hp, move_of_path_eq_nil (hpath.trans hp)]
  | cons p path =>
    have hmem : p ∈ f.path := by rw [hp]; exact List.mem_cons_self
    have hpending : g.store.pendingEntryAt? p = f.store.pendingEntryAt? p := by
      rw [Store.pendingEntryAt?, htop p hmem, Store.pendingEntryAt?]
    have hp' := hpath.trans hp
    cases he : f.store.pendingEntryAt? p with
    | none =>
      rw [move_of_isResolvedAt hp ((Store.isResolvedAt_iff _ _).2 he),
        move_of_isResolvedAt hp' ((Store.isResolvedAt_iff _ _).2 (hpending.trans he))]
    | some e =>
      have he' := hpending.trans he
      cases hop : e.operand with
      | number x => rw [move_of_number hp he hop, move_of_number hp' he' hop]
      | register d =>
        have hd := hnext p hmem d ⟨e, he, hop⟩
        rw [move_of_blockedOn hp ⟨e, he, hop⟩, move_of_blockedOn hp' ⟨e, he', hop⟩, hset,
          Store.isResolvedAt, hd, Store.isResolvedAt, Store.valueAt, hd, Store.valueAt]

/-- The forcing `g` goes on like `f` in a store where an operation has been recorded. -/
structure Recorded (target : String) (op : Operation) (operand : Operand String)
    (f g : Forcing) : Prop where
  store_eq : g.store = f.store.operate target op operand
  events_eq : g.journal.events = f.journal.events
  path_eq : g.path = f.path
  onPath_eq : g.onPath = f.onPath

variable {s₀ : Store} {j₀ : Journal} {root p d : Position} {target : String} {op : Operation}
  {operand : Operand String} {f g : Forcing}

theorem Recorded.enter (h : Recorded target op operand f g) (d : Position) :
    Recorded target op operand (f.enter d) (g.enter d) where
  store_eq := h.store_eq
  events_eq := h.events_eq
  path_eq := congrArg (d :: ·) h.path_eq
  onPath_eq := congrArg (·.insert d) h.onPath_eq

theorem Recorded.leave (h : Recorded target op operand f g) (hmove : f.move = .leave) :
    Recorded target op operand f.leave g.leave := by
  obtain ⟨p, path, hpath, -⟩ := of_move_leave hmove
  rw [leave_of_path_eq hpath, leave_of_path_eq (h.path_eq.trans hpath)]
  exact ⟨h.store_eq, h.events_eq, rfl, congrArg (·.erase p) h.onPath_eq⟩

section Apart

variable (hs : s₀.Coherent) (hroot : root < s₀.size)
  (hfar : ∀ t, s₀.position? target = some t → ¬ s₀.Reaches root t)

include hs hroot hfar

theorem OnTrack.exists_register?_ne (h : f.OnTrack s₀ j₀ root) (hp : s₀.Reaches root p) :
    ∃ r, f.store.register? p = some r ∧ r.name ≠ target := by
  obtain ⟨as, hev, -⟩ := h.evolves
  have hlt : p < f.store.size := hev.size_eq ▸ hs.lt_of_reaches hp hroot
  obtain ⟨r, hr⟩ := Store.exists_register?_of_lt hlt
  refine ⟨r, hr, ?_⟩
  rintro rfl
  have hpos := (h.coherent hs).position?_name hr
  rw [hev.position?_eq] at hpos
  exact hfar p hpos hp

theorem OnTrack.register?_recorded (h : f.OnTrack s₀ j₀ root)
    (hg : Recorded target op operand f g) (hp : s₀.Reaches root p) :
    g.store.register? p = f.store.register? p := by
  obtain ⟨r, hr, hne⟩ := h.exists_register?_ne hs hroot hfar hp
  rw [hg.store_eq, hr, (h.coherent hs).register?_operate_of_ne hr hne]

theorem OnTrack.move_recorded (h : f.OnTrack s₀ j₀ root) (hg : Recorded target op operand f g) :
    g.move = f.move := by
  obtain ⟨as, hev, -⟩ := h.evolves
  refine move_congr hg.path_eq hg.onPath_eq (fun p hp => ?_) fun p hp d hblocked => ?_
  · exact h.register?_recorded hs hroot hfar hg (h.reaches p hp)
  · have hedge := hev.awaits_of_awaits hs (hblocked.awaits (h.coherent hs))
    exact h.register?_recorded hs hroot hfar hg ((h.reaches p hp).tail hedge)

theorem OnTrack.apply_recorded (h : f.OnTrack s₀ j₀ root) (hg : Recorded target op operand f g)
    {x : Float} (hmove : f.move = .apply p x) :
    Recorded target op operand (f.apply p x) (g.apply p x) := by
  obtain ⟨e, he⟩ := pendingEntryAt?_of_move_apply hmove
  obtain ⟨path, -, hpath, -⟩ := move_spec hmove
  have hp : s₀.Reaches root p := h.reaches p (by rw [hpath]; exact List.mem_cons_self)
  obtain ⟨r, hr, hne⟩ := h.exists_register?_ne hs hroot hfar hp
  have hsame := h.register?_recorded hs hroot hfar hg hp
  have he' : g.store.pendingEntryAt? p = some e := by
    rw [Store.pendingEntryAt?, hsame]
    exact he
  have happlication : application? p x g.store = application? p x f.store := by
    rw [application?, hsame, application?]
  refine ⟨?_, ?_, ?_, ?_⟩
  · rw [store_apply x he, store_apply x he', hg.store_eq]
    exact ((h.coherent hs).operate_modify hr hne _ op operand).symm
  · unfold Forcing.apply
    rw [happlication]
    split
    · exact hg.events_eq
    · next a _ => exact congrArg (Array.push · (Event.applied a)) hg.events_eq
  · rw [path_apply, path_apply, hg.path_eq]
  · rw [onPath_apply, onPath_apply, hg.onPath_eq]

theorem OnTrack.cycle_recorded (h : f.OnTrack s₀ j₀ root) (hg : Recorded target op operand f g)
    (hd : d ∈ f.path) :
    g.cycleReason d = f.cycleReason d ∧
      (g.report d).journal.events = (f.report d).journal.events := by
  have hcycle : g.cycleAt d = f.cycleAt d := by rw [cycleAt, hg.path_eq, cycleAt]
  have hname (p : Position) (hp : p ∈ f.path) : g.store.nameAt p = f.store.nameAt p := by
    rw [Store.nameAt, h.register?_recorded hs hroot hfar hg (h.reaches p hp), Store.nameAt]
  have hnames : (g.cycleAt d).map g.store.nameAt = (f.cycleAt d).map f.store.nameAt := by
    rw [hcycle]
    exact List.map_congr_left fun p hp => hname p (mem_path_of_mem_cycleAt hd hp)
  rw [cycleReason, hnames, hname d hd]
  refine ⟨rfl, ?_⟩
  simp only [report, Journal.note, Journal.emit, hg.events_eq, hname d hd]

/-! ## All moves -/

/-- Two forcings that are related end alike. -/
theorem OnTrack.run_recorded (h : f.OnTrack s₀ j₀ root) (hg : Recorded target op operand f g) :
    g.run.failure = f.run.failure ∧ g.run.store = f.run.store.operate target op operand ∧
      g.run.journal.events = f.run.journal.events ∧
      ∀ p, s₀.Reaches root p → g.run.store.register? p = f.run.store.register? p := by
  -- The moves of `f` are those of `g` too, as long as the two are related.
  induction f using run.induct generalizing g with
  | case1 f hmove =>
    have hmove' := (h.move_recorded hs hroot hfar hg).trans hmove
    rw [run_of_finish hmove, run_of_finish hmove']
    exact ⟨rfl, hg.store_eq, hg.events_eq, fun p => h.register?_recorded hs hroot hfar hg⟩
  | case2 f hmove ih =>
    have hmove' := (h.move_recorded hs hroot hfar hg).trans hmove
    rw [run_of_leave hmove, run_of_leave hmove']
    exact ih (h.leave hmove) (hg.leave hmove)
  | case3 f d hmove ih =>
    have hmove' := (h.move_recorded hs hroot hfar hg).trans hmove
    rw [run_of_enter hmove, run_of_enter hmove']
    exact ih (h.enter hs hmove) (hg.enter d)
  | case4 f p x hmove ih =>
    have hmove' := (h.move_recorded hs hroot hfar hg).trans hmove
    rw [run_of_apply hmove, run_of_apply hmove']
    exact ih (h.apply hs hmove) (h.apply_recorded hs hroot hfar hg hmove)
  | case5 f d hmove =>
    have hmove' := (h.move_recorded hs hroot hfar hg).trans hmove
    obtain ⟨p, path, -, -, hcontains⟩ := move_spec hmove
    obtain ⟨hreason, hevents⟩ :=
      h.cycle_recorded hs hroot hfar hg ((h.contains_iff d).1 hcontains)
    have hregister (p : Position) (hp : s₀.Reaches root p) :
        g.store.register? p = f.store.register? p := h.register?_recorded hs hroot hfar hg hp
    rw [run_of_cycle hmove, run_of_cycle hmove']
    exact ⟨congrArg some hreason, hg.store_eq, hevents, hregister⟩

end Apart

end Forcing

namespace Calculator

variable {c : Calculator} {name target : String} {root : Position}

theorem valueOf_of_run (hroot : c.store.position? name = some root) {out : Forcing.Ending}
    (hrun : (Forcing.start c.store c.journal root).run = out) :
    (c.valueOf name).1 = out.failure.elim (.ok (out.store.valueAt root)) .error ∧
      (c.valueOf name).2.store = out.store ∧
      (c.valueOf name).2.journal.events = out.journal.events := by
  rcases out with ⟨failure, s, j⟩
  simp only [valueOf, hroot, hrun]
  cases failure with
  | none => exact ⟨rfl, rfl, rfl⟩
  | some reason => exact ⟨rfl, rfl, rfl⟩

/-- **Forcing a register commutes with recording an operation that it does not depend on**, one
whose target cannot be reached from it. The result is the same, be it a value or a cycle, the same
events come about, and the same store is left. -/
theorem valueOf_execute_comm (hc : c.Reachable) (hroot : c.store.position? name = some root)
    (hfar : ∀ t, c.store.position? target = some t → ¬ c.store.Reaches root t) (op : Operation)
    (operand : Operand String) :
    let o := Command.operate target op operand
    ((c.execute o).2.valueOf name).1 = (c.valueOf name).1 ∧
      ((c.execute o).2.valueOf name).2.store = ((c.valueOf name).2.execute o).2.store ∧
      ((c.execute o).2.valueOf name).2.journal.events =
        ((c.valueOf name).2.execute o).2.journal.events := by
  intro o
  have hs := hc.coherent
  have hlt := hs.lt_size_of_position? hroot
  let c₁ : Calculator := (c.execute o).2
  have htrack := Forcing.OnTrack.start c.store c.journal root
  have hrecorded : Forcing.Recorded target op operand (Forcing.start c.store c.journal root)
      (Forcing.start c₁.store c₁.journal root) := ⟨rfl, rfl, rfl, rfl⟩
  have hroot₁ : c₁.store.position? name = some root := by
    obtain ⟨r, hr, hne⟩ := htrack.exists_register?_ne hs hlt hfar .refl
    have hr : c.store.register? root = some r := hr
    have hname : r.name = name := by rw [← Store.nameAt_of_register? hr, hs.nameAt_eq hroot]
    rw [← hname]
    exact (hs.operate target op operand).position?_name
      (hs.register?_operate_of_ne hr hne op operand)
  obtain ⟨hfailure, hstore, hevents, hregister⟩ := htrack.run_recorded hs hlt hfar hrecorded
  obtain ⟨hresult, hstore₀, hevents₀⟩ := valueOf_of_run hroot rfl
  obtain ⟨hresult₁, hstore₁, hevents₁⟩ := valueOf_of_run hroot₁ rfl
  refine ⟨?_, ?_, ?_⟩
  · rw [hresult, hresult₁, hfailure, Store.valueAt, hregister root .refl, Store.valueAt]
  · rw [hstore₁, hstore, ← hstore₀]
    rfl
  · rw [hevents₁, hevents, ← hevents₀]
    rfl

/-- `n` has been computed from `a` and now comes upon a cycle; `a` is operated on with `n`, which
would be a cycle too if what `n` took from `a` were still pending. -/
theorem valueOf_execute_comm_of_applied :
    let c := fresh.performAll [.run ["a add 5", "n add a", "print n", "n add b", "b add 2",
      "n add y", "y add n"]]
    let o := Command.operate "a" .multiply (.register "n")
    ¬ c.store.Reaches 1 0 ∧ ((c.execute o).2.valueOf "n").1 = (c.valueOf "n").1 ∧
      ((c.execute o).2.valueOf "n").2.store = ((c.valueOf "n").2.execute o).2.store ∧
      ((c.execute o).2.valueOf "n").2.journal.events =
        ((c.valueOf "n").2.execute o).2.journal.events ∧
      (c.valueOf "n").1 = .error (.cyclic "n" ["n", "y", "n"]) ∧
      ((c.valueOf "n").2.execute o).2.journal.events.toList =
        [.applied ⟨"a", 0, .add, 5, 5⟩, .applied ⟨"n", 0, .add, 5, 5⟩,
          .applied ⟨"b", 0, .add, 2, 2⟩, .applied ⟨"n", 1, .add, 2, 7⟩, .cycleDetected "n"] := by
  intro c o
  have hc : c.Reachable := ⟨_, rfl⟩
  -- what `n`, `b` and `y` wait for is among them
  have hclosed : ∀ x ∈ [1, 2, 3], ∀ d < c.store.size, c.store.Awaits x d → d ∈ [1, 2, 3] := by
    decide +kernel
  have hfar : ¬ c.store.Reaches 1 0 := fun h =>
    absurd (hc.coherent.mem_of_reaches hclosed (by decide) h) (by decide)
  have hroot : c.store.position? "n" = some 1 := by decide +kernel
  have hposition : c.store.position? "a" = some 0 := by decide +kernel
  obtain ⟨hresult, hstore, hevents⟩ := valueOf_execute_comm hc hroot
    (fun t ht => Option.some.inj (hposition.symm.trans ht) ▸ hfar) .multiply (.register "n")
  exact ⟨hfar, hresult, hstore, hevents, by decide +kernel, by decide +kernel⟩

end Calculator

end LazyRegisters
