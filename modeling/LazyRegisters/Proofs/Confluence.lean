import LazyRegisters.Proofs.ForcingOutcome
import LazyRegisters.Proofs.Lasso
import LazyRegisters.Proofs.Lines

/-!
# Forcing is confluent

What a register comes to does not depend on what has been forced before. Its value is its
denotation, which no application changes. If it has none, forcing it gets stuck at its *obstacle*,
the first pending entry that refers to a register which is not grounded; applications take other
entries away, so obstacles stay as well. The obstacles lead from the register into the cycle that is
reported, and as each register has one obstacle at most, there is only one way to follow them.
-/

namespace LazyRegisters

/-! ## Chains of a functional relation -/

theorem prefix_or_prefix_of_isChain {R : Position → Position → Prop}
    (hR : ∀ {x y z}, R x y → R x z → y = z) {l l' : List Position} (h : l.IsChain R)
    (h' : l'.IsChain R) (hhead : l.head? = l'.head?) : l <+: l' ∨ l' <+: l := by
  induction l generalizing l' with
  | nil => exact .inl (List.nil_prefix)
  | cons x l ih =>
    cases l' with
    | nil => exact .inr (List.nil_prefix)
    | cons x' l' =>
      obtain rfl : x = x' := by simpa using hhead
      rw [List.prefix_cons_inj, List.prefix_cons_inj]
      cases l with
      | nil => exact .inl (List.nil_prefix)
      | cons y l =>
        cases l' with
        | nil => exact .inr (List.nil_prefix)
        | cons y' l' =>
          obtain ⟨hxy, hl⟩ := List.isChain_cons_cons.1 h
          obtain ⟨hxy', hl'⟩ := List.isChain_cons_cons.1 h'
          exact ih hl hl' (congrArg some (hR hxy hxy'))

/-- A chain without repetition that comes back to itself is the shorter one of no other. -/
theorem eq_of_concat_prefix {l l' : List Position} {z z' : Position} (h : l ++ [z] <+: l' ++ [z'])
    (hz : z ∈ l) (hnodup : l'.Nodup) : l = l' ∧ z = z' := by
  rcases List.prefix_concat_iff.1 h with heq | hpre
  · exact ⟨(List.append_inj' heq rfl).1, by simpa using (List.append_inj' heq rfl).2⟩
  · have hrepeated := hnodup.sublist hpre.sublist
    exact absurd rfl ((List.nodup_append.1 hrepeated).2.2 z hz z (List.mem_singleton_self z))

namespace Store

/-! ## Obstacles -/

/-- The entry refers to a register that is not grounded. -/
def Hopeless (s : Store) (e : Entry Position) : Prop :=
  ∃ d, e.operand = .register d ∧ ¬ s.Grounded d

open Classical in
/-- The first pending entry of a register that can never be applied. -/
noncomputable def obstacle? (s : Store) (x : Position) : Option (Entry Position) :=
  (s.pendingAt x).find? fun e => decide (s.Hopeless e)

/-- The obstacle of the register at `x` refers to the one at `d`. -/
def StuckOn (s : Store) (x d : Position) : Prop :=
  ∃ e, s.obstacle? x = some e ∧ e.operand = .register d

variable {s s' : Store} {touched : Position → Prop} {as : List Application} {x d d' : Position}

theorem StuckOn.unique (h : s.StuckOn x d) (h' : s.StuckOn x d') : d = d' := by
  obtain ⟨e, he, hd⟩ := h
  obtain ⟨e', he', hd'⟩ := h'
  obtain rfl := Option.some.inj (he.symm.trans he')
  exact Operand.register.inj (hd.symm.trans hd')

/-- An entry that blocks a register and refers to one that is not grounded is its obstacle. -/
theorem BlockedOn.stuckOn (hs : s.Coherent) (h : s.BlockedOn x d) (hd : ¬ s.Grounded d) :
    s.StuckOn x d := by
  obtain ⟨e, he, hop⟩ := h
  rw [hs.pendingEntryAt?_eq] at he
  obtain ⟨rest, hrest⟩ := List.head?_eq_some_iff.1 he
  have hopeless : s.Hopeless e := ⟨d, hop, hd⟩
  refine ⟨e, ?_, hop⟩
  rw [obstacle?, hrest]
  exact List.find?_cons_of_pos (by simpa using hopeless)

theorem Applies.hopeless_iff (hs : s.Coherent) {p : Position} {a : Application}
    (h : s.Applies p a s') (e : Entry Position) : s'.Hopeless e ↔ s.Hopeless e := by
  simp only [Hopeless, h.grounded_iff hs]

theorem Supplies.not_hopeless (hs : s.Coherent) {e : Entry Position} {v : Float}
    (h : s.Supplies e.operand v) : ¬ s.Hopeless e := by
  rintro ⟨d, hop, hd⟩
  rw [hop] at h
  cases h with
  | register hres => exact hd (grounded_of_pendingAt_eq_nil ((hs.isResolvedAt_iff d).1 hres))

open Classical in
/-- Applications take no obstacle away and make no new one. -/
theorem Applies.obstacle?_eq (hs : s.Coherent) {p : Position} {a : Application}
    (h : s.Applies p a s') (x : Position) : s'.obstacle? x = s.obstacle? x := by
  have hsame : (fun e => decide (s'.Hopeless e)) = fun e => decide (s.Hopeless e) := by
    funext e
    rw [decide_eq_decide, h.hopeless_iff hs]
  rw [obstacle?, obstacle?, hsame]
  obtain ⟨e, v, hp, hsup, -, hother⟩ := h.spec hs
  by_cases hxp : x = p
  · subst hxp
    rw [hp]
    exact (List.find?_cons_of_neg (by simpa using hsup.not_hopeless hs)).symm
  · rw [pendingAt_congr (hother x hxp)]

theorem Evolves.obstacle?_eq (hs : s.Coherent) (h : s.Evolves touched as s') (x : Position) :
    s'.obstacle? x = s.obstacle? x := by
  induction h with
  | refl => rfl
  | tail hev _ ha ih => exact (ha.obstacle?_eq (hev.coherent hs) x).trans ih

theorem Evolves.stuckOn_iff (hs : s.Coherent) (h : s.Evolves touched as s') :
    s'.StuckOn x d ↔ s.StuckOn x d := by
  rw [StuckOn, h.obstacle?_eq hs, StuckOn]

/-! ## Lassos follow the obstacles -/

variable {stem stem' loop loop' : List Position}

/-- An infinite path starts from every register of a lasso. -/
theorem Lasso.not_grounded (h : s.Lasso stem d loop) (hs : s.Coherent) {x : Position}
    (hx : x ∈ stem ++ d :: loop) : ¬ s.Grounded x := by
  intro hground
  induction hground with
  | intro x _ ih =>
    obtain ⟨y, hy, hxy⟩ := h.exists_blockedOn hx
    exact ih y (hxy.awaits hs) hy

theorem Lasso.isChain_stuckOn (h : s.Lasso stem d loop) (hs : s.Coherent) :
    (stem ++ d :: loop ++ [d]).IsChain s.StuckOn := by
  refine h.chain.imp_of_mem_imp fun x y _ hy hxy => hxy.stuckOn hs (h.not_grounded hs ?_)
  simpa [or_comm, or_left_comm] using hy

/-- The lassos that forcings of the same register leave behind are the same, whatever was applied
before. -/
theorem Lasso.unique {s₁ s₂ : Store} {touched' : Position → Prop} {as' : List Application}
    (hs : s.Coherent) (hev₁ : s.Evolves touched as s₁) (hev₂ : s.Evolves touched' as' s₂)
    (h₁ : s₁.Lasso stem d loop) (h₂ : s₂.Lasso stem' d' loop')
    (hhead : (stem ++ d :: loop).head? = (stem' ++ d' :: loop').head?) :
    d = d' ∧ loop = loop' := by
  have hchain₁ := (h₁.isChain_stuckOn (hev₁.coherent hs)).imp fun x y => (hev₁.stuckOn_iff hs).1
  have hchain₂ := (h₂.isChain_stuckOn (hev₂.coherent hs)).imp fun x y => (hev₂.stuckOn_iff hs).1
  have hmem₁ : d ∈ stem ++ d :: loop := List.mem_append_right stem List.mem_cons_self
  have hmem₂ : d' ∈ stem' ++ d' :: loop' := List.mem_append_right stem' List.mem_cons_self
  have hstart : (stem ++ d :: loop ++ [d]).head? = (stem' ++ d' :: loop' ++ [d']).head? := by
    rw [List.head?_append_of_ne_nil _ (List.ne_nil_of_mem hmem₁),
      List.head?_append_of_ne_nil _ (List.ne_nil_of_mem hmem₂), hhead]
  obtain ⟨heq, rfl⟩ : stem ++ d :: loop = stem' ++ d' :: loop' ∧ d = d' := by
    rcases prefix_or_prefix_of_isChain (fun h => h.unique) hchain₁ hchain₂ hstart
      with hpre | hpre
    · exact eq_of_concat_prefix hpre hmem₁ h₂.nodup
    · obtain ⟨h, h'⟩ := eq_of_concat_prefix hpre hmem₂ h₁.nodup
      exact ⟨h.symm, h'.symm⟩
  have hnodup := List.nodup_append.1 h₁.nodup
  have hstem : d ∉ stem := fun hd => hnodup.2.2 d hd d List.mem_cons_self rfl
  have hloop : d ∉ loop := (List.nodup_cons.1 hnodup.2.1).1
  exact ⟨rfl, ((List.append_cons_inj_of_notMem hstem hloop).1 heq).2.2⟩

end Store

namespace Calculator

variable {c c' : Calculator} {name : String} {root : Position} {touched : Position → Prop}
  {as : List Application}

/-- A register is forced to its denotation, if it has one, and otherwise along a lasso. -/
theorem valueOf_result (hs : c.store.Coherent) (hroot : c.store.position? name = some root) :
    (c.store.Grounded root ∧ (c.valueOf name).1 = .ok (c.store.denote root)) ∨
      ∃ as s stem d loop, c.store.Evolves (c.store.Reaches root) as s ∧ s.Lasso stem d loop ∧
        (stem ++ d :: loop).head? = some root ∧
        (c.valueOf name).1 =
          .error (.cyclic (c.store.nameAt d) ((d :: loop ++ [d]).map c.store.nameAt)) := by
  obtain ⟨g, hg, ⟨hpath, hvalue⟩ | ⟨p, path, d, hpath, hblocked, hd, hvalue⟩⟩ :=
    valueOf_spec hs hroot
  · obtain ⟨as, hev, -⟩ := hg.evolves
    have hground := hg.grounded_root hs hpath
    refine .inl ⟨hground, ?_⟩
    rw [hvalue, ← hev.denote_eq hs hground,
      Store.denote_of_pendingAt_eq_nil (hg.pendingAt_root hs hpath)]
  · obtain ⟨stem, loop, hlasso, hhead, hcycle⟩ := hg.exists_lasso hpath hblocked hd
    obtain ⟨as, hev, -⟩ := hg.evolves
    refine .inr ⟨as, g.store, stem, d, loop, hev, hlasso, hhead, ?_⟩
    rw [hvalue, Forcing.cycleReason, hcycle, hev.nameAt_eq]

/-- Applications change nothing of what forcing a register comes to. -/
theorem valueOf_of_evolves (hs : c.store.Coherent) (hev : c.store.Evolves touched as c'.store)
    (name : String) : (c'.valueOf name).1 = (c.valueOf name).1 := by
  have hs' := hev.coherent hs
  have hev := hev.mono fun _ _ => trivial
  cases hroot : c.store.position? name with
  | none =>
    have hroot' : c'.store.position? name = none := (hev.position?_eq name).trans hroot
    rw [valueOf_of_undeclared hroot, valueOf_of_undeclared hroot']
  | some root =>
    have hroot' : c'.store.position? name = some root := (hev.position?_eq name).trans hroot
    have hstuck {as s stem d loop} (hev : c.store.Evolves (fun _ => True) as s)
        (h : s.Lasso stem d loop) (hhead : (stem ++ d :: loop).head? = some root) :
        ¬ c.store.Grounded root := fun hground =>
      h.not_grounded (hev.coherent hs) (List.mem_of_mem_head? hhead)
        ((hev.grounded_iff hs).2 hground)
    obtain ⟨hground, hvalue⟩ | ⟨as₁, s₁, stem, d, loop, hev₁, hlasso, hhead, hvalue⟩ :=
      valueOf_result hs hroot <;>
    obtain ⟨hground', hvalue'⟩ | ⟨as₂, s₂, stem', d', loop', hev₂, hlasso', hhead', hvalue'⟩ :=
      valueOf_result hs' hroot'
    · rw [hvalue, hvalue', hev.denote_eq hs hground]
    · exact absurd hground (hstuck (hev.trans (hev₂.mono fun _ _ => trivial)) hlasso' hhead')
    · exact absurd ((hev.grounded_iff hs).1 hground')
        (hstuck (hev₁.mono fun _ _ => trivial) hlasso hhead)
    · have hev₂ := hev.trans (hev₂.mono fun _ _ => trivial)
      obtain ⟨rfl, rfl⟩ := Store.Lasso.unique hs hev₁ hev₂ hlasso hlasso' (hhead.trans hhead'.symm)
      rw [hvalue, hvalue', hev.nameAt_eq]

/-! ## Sequences of forcings -/

theorem evolves_performAll_valueOf (hs : c.store.Coherent) (names : List String) :
    ∃ as, c.store.Evolves (fun _ => True) as (c.performAll (names.map .valueOf)).store := by
  induction names generalizing c with
  | nil => exact ⟨[], .refl⟩
  | cons name names ih =>
    obtain ⟨touched, as, hev⟩ := c.evolves_valueOf hs name
    obtain ⟨as', hev'⟩ := ih (c := (c.valueOf name).2) (hev.coherent hs)
    exact ⟨as ++ as', (hev.mono fun _ _ => trivial).trans hev'⟩

/-- The line is a print command or is rejected. -/
def OnlyPrints (line : String) : Prop :=
  ∀ command, Command.parse line = .ok command → ∃ name, command = .print name

theorem onlyPrints_of_parse {line : String} (name : String)
    (h : Command.parse line = .ok (.print name)) : OnlyPrints line := by
  intro command hcommand
  exact ⟨name, Except.ok.inj (hcommand.symm.trans h)⟩

/-- What a line adds to the outcomes. -/
def reports (line : String) (c : Calculator) : List Outcome :=
  (c.step line).outcomes.toList.drop c.outcomes.size

theorem reports_eq_answer (h : c.halted = false) (line : String) :
    c.reports line = answer (fun name => (c.valueOf name).1) line := by
  rw [reports, outcomes_step h, ← Array.length_toList, List.drop_left]

theorem step_of_onlyPrints (hs : c.store.Coherent) (h : c.halted = false) {line : String}
    (hline : OnlyPrints line) :
    (∃ touched as, c.store.Evolves touched as (c.step line).store) ∧
      (c.step line).halted = false := by
  cases hparse : Command.parse line with
  | error rejection =>
    rw [step_of_error h (executeLine_of_parse_error hparse)]
    exact ⟨⟨fun _ => False, [], .refl⟩, h⟩
  | ok command =>
    obtain ⟨name, rfl⟩ := hline command hparse
    have hev := c.evolves_valueOf hs name
    have hhalted := (c.halted_valueOf name).trans h
    rcases hv : c.valueOf name with ⟨reason | v, c'⟩ <;> rw [hv] at hev hhalted
    · rw [step_of_error h (executeLine_of_print_error hparse hv)]
      exact ⟨hev, hhalted⟩
    · rw [step_of_ok h (executeLine_of_print_ok hparse hv)]
      exact ⟨hev, hhalted⟩

theorem outcomes_run_of_onlyPrints (hs : c.store.Coherent)
    (hev : c.store.Evolves touched as c'.store) (h : c'.halted = false) {lines : List String}
    (hlines : ∀ line ∈ lines, OnlyPrints line) :
    (c'.run lines).outcomes.toList =
      c'.outcomes.toList ++ lines.flatMap (answer fun name => (c.valueOf name).1) := by
  induction lines generalizing c' touched as with
  | nil => exact (List.append_nil _).symm
  | cons line lines ih =>
    obtain ⟨⟨touched', as', hev'⟩, hhalted⟩ :=
      step_of_onlyPrints (hev.coherent hs) h (hlines line List.mem_cons_self)
    have hboth := (hev.mono fun _ _ => trivial).trans (hev'.mono fun _ _ => trivial)
    have hresult : (fun name => (c'.valueOf name).1) = fun name => (c.valueOf name).1 :=
      funext (valueOf_of_evolves hs hev)
    show ((c'.step line).run lines).outcomes.toList = _
    rw [ih hboth hhalted fun l hl => hlines l (List.mem_cons_of_mem line hl),
      outcomes_step h, hresult, List.flatMap_cons, List.append_assoc]

/-- **Forcing is confluent.** What a register comes to is the same before and after any forcings, so
lines that only print are answered as if each of them were the first. -/
theorem valueOf_confluent (hc : c.Reachable) :
    (∀ (names : List String) (name : String),
        ((c.performAll (names.map .valueOf)).valueOf name).1 = (c.valueOf name).1) ∧
      ∀ lines : List String, (∀ line ∈ lines, OnlyPrints line) →
        (c.run lines).outcomes.toList =
          c.outcomes.toList ++ lines.flatMap fun line => c.reports line := by
  have hs := hc.coherent
  refine ⟨fun names name => ?_, fun lines hlines => ?_⟩
  · obtain ⟨as, hev⟩ := evolves_performAll_valueOf hs names
    exact valueOf_of_evolves hs hev name
  · by_cases h : c.halted
    · have hstep (line : String) : c.step line = c := step_of_halted h line
      have hrun : c.run lines = c := List.foldl_fixed' hstep lines
      simp [hrun, reports, hstep]
    · have h := Bool.eq_false_iff.2 h
      have hev : c.store.Evolves (fun _ => True) [] c.store := .refl
      rw [outcomes_run_of_onlyPrints hs hev h hlines, funext (reports_eq_answer h)]

/-- A cycle that is entered at `b` or at `c`, behind a register and an entry. -/
theorem valueOf_confluent_around_cycle :
    let c := fresh.performAll
      [.run ["a add 5", "x add a", "x multiply b", "b subtract a", "b add c", "c add b"]]
    (c.valueOf "x").1 = .error (.cyclic "b" ["b", "c", "b"]) ∧
      ((c.performAll (["c", "none", "x", "a"].map .valueOf)).valueOf "x").1 =
        .error (.cyclic "b" ["b", "c", "b"]) ∧
      (c.run ["print c", "print x", "print a"]).outcomes.toList =
        c.outcomes.toList ++ ["print c", "print x", "print a"].flatMap fun line => c.reports line := by
  intro c
  have hfails : (c.valueOf "x").1 = .error (.cyclic "b" ["b", "c", "b"]) := by decide +kernel
  have hlines : ∀ line ∈ ["print c", "print x", "print a"], OnlyPrints line := by
    simp only [List.forall_mem_cons]
    exact ⟨onlyPrints_of_parse "c" (by decide +kernel), onlyPrints_of_parse "x" (by decide +kernel),
      onlyPrints_of_parse "a" (by decide +kernel), nofun⟩
  obtain ⟨hforced, hprinted⟩ := valueOf_confluent (c := c) ⟨_, rfl⟩
  exact ⟨hfails, (hforced _ _).trans hfails, hprinted _ hlines⟩

end Calculator

end LazyRegisters
