import LazyRegisters.Proofs.ForcingOutcome
import LazyRegisters.Proofs.Obeyed

/-!
# A value is kept until something new is recorded

A register that has been forced has nothing pending. Forcing it again applies nothing, and nothing
that is done to other registers changes it: applications leave a resolved register alone, whatever
they are made for, and an operation is recorded in the log of its target only. So its value stays
until an operation is recorded against the register itself.
-/

namespace LazyRegisters

namespace Calculator

variable {c c' : Calculator} {name : String} {root : Position} {r : Register}

theorem valueOf_of_resolved (hs : c.store.Coherent) (hr : c.store.register? root = some r)
    (hres : r.isResolved) :
    (c.valueOf r.name).1 = .ok r.value ∧ (c.valueOf r.name).2.store = c.store ∧
      (c.valueOf r.name).2.journal.events = c.journal.events := by
  have hpath : (Forcing.start c.store c.journal root).path = [root] := rfl
  have hleave : (Forcing.start c.store c.journal root).move = .leave := by
    refine Forcing.move_of_isResolvedAt hpath ?_
    show c.store.isResolvedAt root
    rw [Store.isResolvedAt, hr, Option.all_some, hres]
  have hfinish : (Forcing.start c.store c.journal root).leave.move = .finish := by
    rw [Forcing.leave_of_path_eq hpath]
    exact Forcing.move_of_path_eq_nil rfl
  have hrun := (Forcing.run_of_leave hleave).trans (Forcing.run_of_finish hfinish)
  rw [Forcing.leave_of_path_eq hpath] at hrun
  have hvalue := Store.valueAt_of_register? hr
  simp only [valueOf, hs.position?_name hr, hrun]
  exact ⟨congrArg Except.ok hvalue, rfl, rfl⟩

theorem exists_resolved_of_valueOf (hs : c.store.Coherent) {v : Float}
    (h : c.valueOf name = (.ok v, c')) :
    ∃ root r, c'.store.register? root = some r ∧ r.name = name ∧ r.value = v ∧ r.isResolved := by
  cases hroot : c.store.position? name with
  | none =>
    rw [valueOf_of_undeclared hroot] at h
    cases h
  | some root =>
    obtain ⟨g, hg, ⟨hpath, hvalue⟩ | ⟨p, path, d, -, -, -, hvalue⟩⟩ := valueOf_spec hs hroot <;>
      rw [hvalue] at h <;> cases h
    have hnil := hg.pendingAt_root hs hpath
    obtain ⟨as, hev, -⟩ := hg.evolves
    have hroot' := (hev.position?_eq name).trans hroot
    obtain ⟨r, hr, hname⟩ := (hev.coherent hs).position?_iff.1 hroot'
    rw [Store.pendingAt_of_register? hr] at hnil
    exact ⟨root, r, hr, hname, (Store.valueAt_of_register? hr).symm,
      ((hev.coherent hs).register hr).isResolved_iff.2 hnil⟩

/-- A resolved register stays as it is until an operation is recorded against it. -/
theorem register?_performAll_of_resolved (hs : c.store.Coherent)
    (hr : c.store.register? root = some r) (hres : r.isResolved) {calls : List Call}
    (hcalls : ∀ op operand, .operate r.name op operand ∉ c.obeyed calls) :
    (c.performAll calls).store.register? root = some r := by
  refine performAll_store_induction (P := fun s => s.register? root = some r) hs ?_ ?_ hr
  · intro s s' touched as hcs hev h
    have hnil : s.pendingAt root = [] := by
      rw [Store.pendingAt_of_register? h]
      exact (hcs.register h).isResolved_iff.1 hres
    rw [hev.register?_of_pendingAt_eq_nil hcs hnil, h]
  · intro s target op operand hcs hobeyed h
    refine hcs.register?_operate_of_ne h ?_ op operand
    rintro rfl
    exact hcalls op operand hobeyed

/-- **A value is kept until something new is recorded against its register.** Until then forcing the
register again gives the same value and does nothing else, whatever has been done to the registers
that the value came from. -/
theorem valueOf_kept (hc : c.Reachable) {v : Float} (h : c.valueOf name = (.ok v, c'))
    (calls : List Call) (hcalls : ∀ op operand, .operate name op operand ∉ c'.obeyed calls) :
    ((c'.performAll calls).valueOf name).1 = .ok v ∧
      ((c'.performAll calls).valueOf name).2.store = (c'.performAll calls).store ∧
      ((c'.performAll calls).valueOf name).2.journal.events =
        (c'.performAll calls).journal.events := by
  have hs' := coherent_valueOf hc.coherent name
  rw [h] at hs'
  obtain ⟨root, r, hr, rfl, rfl, hres⟩ := exists_resolved_of_valueOf hc.coherent h
  exact valueOf_of_resolved (coherent_performAll calls hs')
    (register?_performAll_of_resolved hs' hr hres hcalls) hres

/-- The value of `r` came from `a`, which is changed, forced, and made to depend on itself. `r` is
an operand of another register and the target of a line that is rejected and of one that comes after
the end of the program. -/
theorem valueOf_kept_off_cycle :
    let c := fresh.performAll [.run ["a add 5", "r add a", "r multiply 2"]]
    let calls := [Call.valueOf "a", .run ["a multiply 3", "print a", "a add q", "q subtract a",
      "print a", "b add r", "b add a", "print b", "r divide 2", "print r", "quit", "r add 1"],
      .executeLine "q add r"]
    let c' := (c.valueOf "r").2
    (c.valueOf "r").1 = .ok 10 ∧ (∀ op operand, .operate "r" op operand ∉ c'.obeyed calls) ∧
      ((c'.performAll calls).valueOf "r").1 = .ok 10 ∧
      ((c'.performAll calls).valueOf "r").2.store = (c'.performAll calls).store ∧
      ((c'.performAll calls).valueOf "r").2.journal.events =
        (c'.performAll calls).journal.events ∧
      ((c'.performAll calls).valueOf "a").1 = .error (.cyclic "a" ["a", "q", "a"]) := by
  intro c calls c'
  have hvalue : (c.valueOf "r").1 = .ok 10 := by decide +kernel
  have hforced : c.valueOf "r" = (.ok 10, c') := Prod.ext hvalue rfl
  have hobeyed : c'.obeyed calls =
      [.operate "a" .multiply (.number 3), .print "a", .operate "a" .add (.register "q"),
        .operate "q" .subtract (.register "a"), .print "a", .operate "b" .add (.register "r"),
        .operate "b" .add (.register "a"), .print "b", .print "r", .quit,
        .operate "q" .add (.register "r")] := by decide +kernel
  have hcalls : ∀ op operand, .operate "r" op operand ∉ c'.obeyed calls := by simp [hobeyed]
  obtain ⟨hagain, hstore, hevents⟩ := valueOf_kept ⟨_, rfl⟩ hforced calls hcalls
  exact ⟨hvalue, hcalls, hagain, hstore, hevents, by decide +kernel⟩

end Calculator

end LazyRegisters
