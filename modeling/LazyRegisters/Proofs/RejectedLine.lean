import LazyRegisters.Proofs.ForcingOutcome
import LazyRegisters.Proofs.Lasso
import LazyRegisters.Proofs.Lines

/-!
# What a rejected line leaves behind

A line that is rejected for anything but a cycle leaves no trace. A line that is rejected for a
cycle has stopped forcing half way: registers may have been advanced by some of their pending
entries. `Register.advance` is a register after its first `n` pending entries, and that is all that
can have happened to a register, whatever the store has evolved through
(`Store.Evolves.exists_advance`).
-/

namespace LazyRegisters

namespace Register

/-- The register after its first `n` pending entries have been applied, each register among their
operands standing for the given value. -/
def advance (value : Position → Float) (n : Nat) (r : Register) : Register :=
  { r with
    value := (r.pending.take n).foldl
      (fun v e => e.operation.apply v (e.operand.valueIn value)) r.value
    log := r.log.mapIdx fun i e => if i < r.cursor + n then { e with applied := true } else e
    cursor := r.cursor + n }

theorem plan_advance (value : Position → Float) (n : Nat) (r : Register) :
    (r.advance value n).plan = r.plan := by
  refine List.ext_getElem? fun i => ?_
  simp only [plan, advance, Array.toList_mapIdx, List.getElem?_map, List.getElem?_mapIdx]
  cases r.log.toList[i]? with
  | none => rfl
  | some e => by_cases hi : i < r.cursor + n <;> simp [hi]

theorem Coherent.advance {r : Register} (h : r.Coherent) (value : Position → Float) {n : Nat}
    (hn : n ≤ r.pending.length) : (r.advance value n).Coherent := by
  have hle := h.cursor_le
  rw [h.length_pending, pendingCount] at hn
  refine ⟨?_, fun {i e} hi => ?_⟩
  · simp only [Register.advance, Array.size_mapIdx]
    omega
  · simp only [Register.advance, Array.getElem?_mapIdx] at hi ⊢
    obtain ⟨e', he', rfl⟩ := Option.map_eq_some_iff.1 hi
    by_cases hlt : i < r.cursor + n
    · simp [hlt]
    · rw [if_neg hlt, h.applied_iff he']
      omega

end Register

namespace Store

variable {s s' : Store} {touched : Position → Prop} {as : List Application} {p : Position}
  {r : Register}

/-- The pending entries of a register are those applied on the way and those still pending. What was
applied was applied with denotations. -/
theorem Evolves.exists_done (hs : s.Coherent) (h : s.Evolves touched as s') (p : Position) :
    ∃ done, s.pendingAt p = done ++ s'.pendingAt p ∧
      s'.valueAt p =
        done.foldl (fun v e => e.operation.apply v (e.operand.valueIn s.denote)) (s.valueAt p) ∧
      ∀ e ∈ done, ∀ d, e.operand = .register d → s.Grounded d := by
  induction h with
  | refl => exact ⟨[], rfl, rfl, nofun⟩
  | @tail _ s₁ s₂ q _ hev _ ha ih =>
    obtain ⟨done, hpending, hvalue, hground⟩ := ih
    have hs₁ := hev.coherent hs
    obtain ⟨e, x, hq, hsup, hqvalue, hother⟩ := ha.spec hs₁
    by_cases hpq : p = q
    · subst hpq
      have hoperand : e.operand.valueIn s.denote = x ∧
          ∀ d, e.operand = .register d → s.Grounded d := by
        generalize e.operand = operand at hsup
        cases hsup with
        | number x => exact ⟨rfl, nofun⟩
        | @register d hres =>
          have hnil := (hs₁.isResolvedAt_iff d).1 hres
          have hd := (hev.grounded_iff hs).1 (grounded_of_pendingAt_eq_nil hnil)
          refine ⟨?_, fun d' hd' => Operand.register.inj hd' ▸ hd⟩
          rw [← denote_of_pendingAt_eq_nil hnil]
          exact (hev.denote_eq hs hd).symm
      refine ⟨done ++ [e], by rw [hpending, hq, List.append_assoc, List.singleton_append], ?_, ?_⟩
      · rw [hqvalue, hvalue, List.foldl_append, List.foldl_cons, List.foldl_nil, hoperand.1]
      · intro e' he'
        rcases List.mem_append.1 he' with he' | he'
        · exact hground e' he'
        · rw [List.mem_singleton.1 he']
          exact hoperand.2
    · have hsame := hother p hpq
      refine ⟨done, by rw [hpending, pendingAt_congr hsame], ?_, hground⟩
      rw [← hvalue, valueAt, hsame, valueAt]

theorem Evolves.exists_advance (hs : s.Coherent) (h : s.Evolves touched as s')
    (hr : s.register? p = some r) :
    ∃ n, n ≤ r.pending.length ∧ s'.register? p = some (r.advance s.denote n) ∧
      ∀ e ∈ r.pending.take n, ∀ d, e.operand = .register d → s.Grounded d := by
  obtain ⟨r', hr', hname, hplan⟩ := h.exists_register? hr
  obtain ⟨done, hpending, hvalue, hground⟩ := h.exists_done hs p
  rw [pendingAt_of_register? hr, pendingAt_of_register? hr'] at hpending
  rw [valueAt_of_register? hr, valueAt_of_register? hr'] at hvalue
  have hn : done.length ≤ r.pending.length := by
    rw [hpending, List.length_append]
    exact Nat.le_add_right _ _
  have htake : r.pending.take done.length = done := by
    rw [hpending, List.take_left]
  have hcr := hs.register hr
  have hcr' := (h.coherent hs).register hr'
  have hcursor : r'.cursor = r.cursor + done.length := by
    have hlength := congrArg List.length hpending
    have hsize := Register.size_log_eq_of_plan_eq hplan
    have hle := hcr.cursor_le
    have hle' := hcr'.cursor_le
    rw [List.length_append, hcr.length_pending, hcr'.length_pending] at hlength
    unfold Register.pendingCount at hlength
    omega
  refine ⟨done.length, hn, ?_, by rwa [htake]⟩
  rw [hr', (hcr.advance s.denote hn).eq_of_plan_eq hcr' hname ?_
    (hplan.trans (r.plan_advance s.denote _).symm) hcursor]
  rw [hvalue, Register.advance, htake]

end Store

theorem Forcing.getLast?_dropLast_cycleAt {f : Forcing} {p d : Position} {path : List Position}
    (hpath : f.path = p :: path) : (f.cycleAt d).dropLast.getLast? = some p := by
  rw [cycleAt, List.dropLast_concat, hpath]
  by_cases hpd : p = d
  · subst hpd
    simp
  · rw [List.takeWhile_cons_of_pos (by simpa using hpd), List.reverse_cons, ← List.cons_append]
    exact List.getLast?_concat

theorem Command.reason_of_ofWords {ws : List String} {reason : Reason}
    (h : ofWords ws = .error reason) (register : String) (cycle : List String) :
    reason ≠ .cyclic register cycle := by
  rintro rfl
  unfold ofWords at h
  split at h
  · split at h <;> cases h
  · split at h <;> cases h
  · split at h
    · cases h
    · split at h <;> cases h
  · cases h

theorem Command.reason_of_parse {line : String} {rejection : Rejection}
    (h : parse line = .error rejection) (register : String) (cycle : List String) :
    rejection.reason ≠ .cyclic register cycle := by
  unfold parse at h
  cases hwords : ofWords (Text.words line) with
  | ok command => rw [hwords] at h; cases h
  | error reason =>
    rw [hwords] at h
    obtain rfl := Except.error.inj h
    rw [Rejection.reason_ofLine]
    exact reason_of_ofWords hwords register cycle

namespace Calculator

/-- What a forcing of the register at `root` leaves behind when it meets a cycle. -/
structure Interrupted (c : Calculator) (root : Position) (register : String) (cycle : List String)
    (c' : Calculator) : Prop where
  names_eq : c'.store.names = c.store.names
  outcomes_eq : c'.outcomes = c.outcomes
  halted_eq : c'.halted = c.halted
  /-- What the root does not reach is left alone. -/
  register?_eq : ∀ p, ¬ c.store.Reaches root p → c'.store.register? p = c.store.register? p
  /-- Every other register has been advanced, if at all, by entries that lead to no cycle. -/
  advanced : ∀ p r, c.store.register? p = some r →
    ∃ n, n ≤ r.pending.length ∧ c'.store.register? p = some (r.advance c.store.denote n) ∧
      (r.advance c.store.denote n).plan = r.plan ∧
      ∀ e ∈ r.pending.take n, ∀ d, e.operand = .register d →
        c.store.Grounded d ∧ ¬ ∃ q, c.store.Reaches d q ∧ c.store.OnCycle q
  /-- The register before the last of the cycle stands at the entry that closes it. -/
  closing : ∃ p d r e, c'.store.register? p = some r ∧ cycle.dropLast.getLast? = some r.name ∧
    r.pendingEntry? = some e ∧ e.operand = .register d ∧ c'.store.nameAt d = register ∧
    ∀ i e, r.cursor ≤ i → r.log[i]? = some e → e.applied = false

variable {c c' : Calculator} {line name : String} {rejection : Rejection} {reason : Reason}

/-- A forcing fails because there is nothing to be forced, or it is interrupted. -/
theorem valueOf_error_cases (hs : c.store.Coherent) (h : c.valueOf name = (.error reason, c')) :
    (reason = .undeclared name ∧ c' = c) ∨
      ∃ root register cycle, reason = .cyclic register cycle ∧
        c.store.position? name = some root ∧ c.Interrupted root register cycle c' := by
  cases hroot : c.store.position? name with
  | none =>
    rw [valueOf_of_undeclared hroot] at h
    obtain ⟨hreason, rfl⟩ := Prod.mk.inj h
    exact .inl ⟨(Except.error.inj hreason).symm, rfl⟩
  | some root =>
    obtain ⟨g, hg, ⟨-, hvalue⟩ | ⟨p, path, d, hpath, ⟨e, he, hd⟩, -, hvalue⟩⟩ :=
      valueOf_spec hs hroot <;> rw [hvalue] at h <;> obtain ⟨hreason, rfl⟩ := Prod.mk.inj h
    · cases hreason
    obtain ⟨as, hev, -⟩ := hg.evolves
    obtain ⟨r, hr, her⟩ := Option.bind_eq_some_iff.1 he
    refine .inr ⟨root, g.store.nameAt d, (g.cycleAt d).map g.store.nameAt,
      (Except.error.inj hreason).symm, rfl, ?_⟩
    refine ⟨hev.names_eq, rfl, rfl, fun q => hev.register?_of_not_touched hs, fun q rq hrq => ?_,
      p, d, r, e, hr, ?_, her, hd, rfl, fun i e => ((hg.coherent hs).register hr).applied_eq_false⟩
    · obtain ⟨n, hn, hrq', hground⟩ := hev.exists_advance hs hrq
      refine ⟨n, hn, hrq', rq.plan_advance _ n, fun e' he' d' hd' => ?_⟩
      have hd'' := hground e' he' d' hd'
      exact ⟨hd'', fun ⟨q', hreach, hcycle⟩ => hd''.not_onCycle_of_reaches hreach hcycle⟩
    · rw [← List.map_dropLast, List.getLast?_map, Forcing.getLast?_dropLast_cycleAt hpath,
        Option.map_some, Store.nameAt_of_register? hr]

/-- Only a line that asks for a register is rejected for more than its words. -/
theorem executeLine_error_cases (h : c.executeLine line = (.error rejection, c')) :
    (c' = c ∧ ∀ register cycle, rejection.reason ≠ .cyclic register cycle) ∨
      ∃ name reason, Command.parse line = .ok (.print name) ∧
        c.valueOf name = (.error reason, c') ∧ rejection = .ofLine line reason := by
  cases hparse : Command.parse line with
  | error rejection' =>
    rw [executeLine_of_parse_error hparse] at h
    obtain ⟨hrejection, rfl⟩ := Prod.mk.inj h
    exact .inl ⟨rfl, Except.error.inj hrejection ▸ Command.reason_of_parse hparse⟩
  | ok command =>
    cases command with
    | operate target op operand =>
      rw [executeLine_of_operate hparse] at h
      cases h
    | print name =>
      rcases hv : c.valueOf name with ⟨reason | v, c₁⟩
      · rw [executeLine_of_print_error hparse hv] at h
        obtain ⟨hrejection, rfl⟩ := Prod.mk.inj h
        exact .inr ⟨name, reason, rfl, hv, (Except.error.inj hrejection).symm⟩
      · rw [executeLine_of_print_ok hparse hv] at h
        cases h
    | quit =>
      rw [executeLine_of_quit hparse] at h
      cases h

/-- **What a rejected line leaves behind**: nothing at all, unless a cycle was met. Then registers
that the printed one reaches may have been advanced by pending entries that lead to no cycle, with
the denotations that their operands had before, and from the entry on that closed the cycle
everything is still pending. -/
theorem executeLine_rejected (hc : c.Reachable)
    (h : c.executeLine line = (.error rejection, c')) :
    ((∀ register cycle, rejection.reason ≠ .cyclic register cycle) → c' = c) ∧
      ∀ register cycle, rejection.reason = .cyclic register cycle →
        ∃ name root, Command.parse line = .ok (.print name) ∧
          c.store.position? name = some root ∧ c.Interrupted root register cycle c' := by
  obtain ⟨rfl, hreason⟩ | ⟨name, reason, hparse, hv, rfl⟩ := executeLine_error_cases h
  · exact ⟨fun _ => rfl, fun register cycle hcyclic => absurd hcyclic (hreason register cycle)⟩
  · rw [Rejection.reason_ofLine]
    obtain ⟨rfl, rfl⟩ | ⟨root, register, cycle, rfl, hroot, hleft⟩ :=
      valueOf_error_cases hc.coherent hv
    · exact ⟨fun _ => rfl, nofun⟩
    · refine ⟨fun hreason => absurd rfl (hreason register cycle), ?_⟩
      intro register' cycle' hcyclic
      obtain ⟨rfl, rfl⟩ := Reason.cyclic.inj hcyclic
      exact ⟨name, root, hparse, hroot, hleft⟩

/-- A cycle of `b` and `c` behind a register: all three are left half way, and `z` is not touched.
An unknown register leaves no trace. -/
theorem executeLine_rejected_half_way :
    let c := fresh.performAll [.run ["a add 5", "x add a", "x multiply b", "x add 1",
      "b subtract a", "b add c", "c add 2", "c add b", "z add 1"]]
    let c' := (c.executeLine "print x").2
    (c.executeLine "print x").1 = .error ⟨"print x", .cyclic "b" ["b", "c", "b"]⟩ ∧
      (∃ name root, Command.parse "print x" = .ok (.print name) ∧
        c.store.position? name = some root ∧ c.Interrupted root "b" ["b", "c", "b"] c') ∧
      (c'.store.registers.map fun r => (r.name, r.value, r.cursor)) =
        #[("a", 5, 1), ("x", 5, 1), ("b", -5, 1), ("c", 2, 1), ("z", 0, 0)] ∧
      (c.executeLine "print y").2 = c := by
  intro c c'
  have hreason : (c.executeLine "print x").1 =
      .error ⟨"print x", .cyclic "b" ["b", "c", "b"]⟩ := by decide +kernel
  have hcyclic : c.executeLine "print x" =
      (.error ⟨"print x", .cyclic "b" ["b", "c", "b"]⟩, c') := Prod.ext hreason rfl
  have hunknown : c.executeLine "print y" =
      (.error ⟨"print y", .undeclared "y"⟩, (c.executeLine "print y").2) :=
    Prod.ext (by decide +kernel) rfl
  exact ⟨hreason, (executeLine_rejected ⟨_, rfl⟩ hcyclic).2 _ _ rfl, by decide +kernel,
    (executeLine_rejected ⟨_, rfl⟩ hunknown).1 nofun⟩

end Calculator

end LazyRegisters
