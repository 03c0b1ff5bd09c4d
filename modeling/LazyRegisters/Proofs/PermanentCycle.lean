import LazyRegisters.Proofs.Lasso

/-!
# A cycle is permanent

No call can apply an entry of a register on a lasso: its first pending entry refers to a register of
the lasso, which is never resolved. New entries go behind that one. So a lasso stays a lasso, and a
register that could not be forced for a cycle can never be forced.
-/

namespace LazyRegisters

/-- The log may have grown, but nothing more has been applied. -/
structure Register.Grown (r r' : Register) : Prop where
  name_eq : r'.name = r.name
  value_eq : r'.value = r.value
  cursor_eq : r'.cursor = r.cursor
  log_prefix : r.log.toList <+: r'.log.toList

namespace Register.Grown

variable {r r' r'' : Register}

theorem refl (r : Register) : r.Grown r := ⟨rfl, rfl, rfl, List.prefix_refl _⟩

theorem trans (h : r.Grown r') (h' : r'.Grown r'') : r.Grown r'' :=
  ⟨h'.name_eq.trans h.name_eq, h'.value_eq.trans h.value_eq, h'.cursor_eq.trans h.cursor_eq,
    h.log_prefix.trans h'.log_prefix⟩

theorem record (r : Register) (op : Operation) (operand : Operand Position) :
    r.Grown (r.record op operand) :=
  ⟨rfl, rfl, rfl, by simp [Register.record]⟩

theorem pendingEntry?_eq (h : r.Grown r') {e : Entry Position} (he : r.pendingEntry? = some e) :
    r'.pendingEntry? = some e := by
  obtain ⟨more, hmore⟩ := h.log_prefix
  unfold pendingEntry? at he ⊢
  rw [← Array.getElem?_toList] at he ⊢
  rw [h.cursor_eq, ← hmore, List.getElem?_append_left (List.getElem?_eq_some_iff.1 he).1, he]

theorem firstPending?_eq (h : r.Grown r') {e : Entry Position} (he : r.pendingEntry? = some e) :
    r'.firstPending? = r.firstPending? := by
  have hr : ¬ r.isResolved := by simp [isResolved_iff, he]
  have hr' : ¬ r'.isResolved := by simp [isResolved_iff, h.pendingEntry?_eq he]
  rw [firstPending?, firstPending?, if_neg hr, if_neg hr', h.cursor_eq]

end Register.Grown

namespace Store

/-- The register at a position is still there, and nothing more of it has been applied. -/
def GrownAt (s s' : Store) (p : Position) : Prop :=
  ∀ r, s.register? p = some r → ∃ r', s'.register? p = some r' ∧ r.Grown r'

variable {s s' s'' : Store} {p : Position}

theorem GrownAt.of_register?_eq (h : s'.register? p = s.register? p) : s.GrownAt s' p :=
  fun r hr => ⟨r, h.trans hr, .refl r⟩

theorem GrownAt.trans (h : s.GrownAt s' p) (h' : s'.GrownAt s'' p) : s.GrownAt s'' p := by
  intro r hr
  obtain ⟨r', hr', hg⟩ := h r hr
  obtain ⟨r'', hr'', hg'⟩ := h' r' hr'
  exact ⟨r'', hr'', hg.trans hg'⟩

theorem GrownAt.blockedOn (h : s.GrownAt s' p) {d : Position} (hb : s.BlockedOn p d) :
    s'.BlockedOn p d := by
  obtain ⟨e, he, hd⟩ := hb
  obtain ⟨r, hr, her⟩ := Option.bind_eq_some_iff.1 he
  obtain ⟨r', hr', hg⟩ := h r hr
  exact ⟨e, by rw [pendingEntryAt?, hr', Option.bind_some, hg.pendingEntry?_eq her], hd⟩

theorem grownAt_operate (s : Store) (target : String) (op : Operation) (operand : Operand String)
    (p : Position) : s.GrownAt (s.operate target op operand) p := by
  intro r hr
  have hr' := register?_declareOperand_of_register?
    (register?_declare_of_register? hr target) operand
  show ∃ r', (((s.declare target).2.declareOperand operand).2.modify (s.declare target).1
    (Register.record op ((s.declare target).2.declareOperand operand).1)).register? p = some r' ∧ _
  by_cases hp : (s.declare target).1 = p
  · exact ⟨_, by rw [hp]; exact register?_modify_self hr' _, .record r op _⟩
  · exact ⟨r, (register?_modify_of_ne hp _).trans hr', .refl r⟩

/-! ## Lassos stay -/

variable {stem loop : List Position} {d : Position}

theorem Lasso.of_grownAt (h : s.Lasso stem d loop)
    (hg : ∀ p ∈ stem ++ d :: loop, s.GrownAt s' p) : s'.Lasso stem d loop := by
  refine ⟨h.chain.imp_of_mem_imp fun x y hx _ hxy => (hg x ?_).blockedOn hxy, h.nodup⟩
  rcases List.mem_append.1 hx with hx | hx
  · exact hx
  · rw [List.mem_singleton.1 hx]
    exact List.mem_append_right stem List.mem_cons_self

theorem Lasso.nameAt_eq (h : s.Lasso stem d loop) (hg : s.GrownAt s' p)
    (hp : p ∈ stem ++ d :: loop) : s'.nameAt p = s.nameAt p := by
  obtain ⟨r, hr⟩ := h.exists_register? hp
  obtain ⟨r', hr', hgrown⟩ := hg r hr
  rw [nameAt_of_register? hr, nameAt_of_register? hr', hgrown.name_eq]

theorem Lasso.loopNames_eq (h : s.Lasso stem d loop)
    (hg : ∀ p ∈ stem ++ d :: loop, s.GrownAt s' p) : s'.loopNames d loop = s.loopNames d loop := by
  refine List.map_congr_left fun p hp => ?_
  have hmem : p ∈ stem ++ d :: loop := List.mem_append_right stem (by simpa [or_comm] using hp)
  exact h.nameAt_eq (hg p hmem) hmem

/-- A register of a lasso keeps its value and its first pending entry. -/
theorem Lasso.find?_of_grownAt (h : s.Lasso stem d loop) (hs : s.Coherent) (hs' : s'.Coherent)
    (hg : s.GrownAt s' p) (hp : p ∈ stem ++ d :: loop) :
    ∃ r r', s.find? (s.nameAt p) = some r ∧ s'.find? (s.nameAt p) = some r' ∧
      r'.value = r.value ∧ r'.firstPending? = r.firstPending? := by
  obtain ⟨y, -, e, he, -⟩ := h.exists_blockedOn hp
  obtain ⟨r, hr, her⟩ := Option.bind_eq_some_iff.1 he
  obtain ⟨r', hr', hgrown⟩ := hg r hr
  refine ⟨r, r', ?_, ?_, hgrown.value_eq, hgrown.firstPending?_eq her⟩
  · rw [nameAt_of_register? hr, hs.find?_name hr]
  · rw [nameAt_of_register? hr, ← hgrown.name_eq, hs'.find?_name hr']

theorem Lasso.register?_of_evolves {touched : Position → Prop} {as : List Application}
    (h : s.Lasso stem d loop) (hs : s.Coherent) (hev : s.Evolves touched as s') :
    ∀ p ∈ stem ++ d :: loop, s'.register? p = s.register? p := by
  induction hev with
  | refl => exact fun _ _ => rfl
  | tail hev _ ha ih =>
    intro p hp
    have hlasso := h.of_grownAt fun q hq => .of_register?_eq (ih q hq)
    obtain ⟨y, hy, hpy⟩ := hlasso.exists_blockedOn hp
    rw [ha.register?_of_blockedOn (hev.coherent hs) hpy (hlasso.not_isResolvedAt hy), ih p hp]

end Store

namespace Calculator

variable {stem loop : List Position} {d : Position}

/-- No sequence of calls applies an entry of a register on a lasso. -/
theorem grownAt_performAll {c : Calculator} (hs : c.store.Coherent)
    (h : c.store.Lasso stem d loop) (calls : List Call) :
    ∀ p ∈ stem ++ d :: loop, c.store.GrownAt (c.performAll calls).store p := by
  refine (performAll_induction
    (P := fun s _ => s.Coherent ∧ ∀ p ∈ stem ++ d :: loop, c.store.GrownAt s p) ?_ ?_ calls c
    ⟨hs, fun p _ => .of_register?_eq rfl⟩).2
  · rintro s _ target op operand ⟨hcs, hg⟩
    exact ⟨hcs.operate target op operand,
      fun p hp => (hg p hp).trans (s.grownAt_operate target op operand p)⟩
  · rintro c' name ⟨hcs, hg⟩
    obtain ⟨touched, as, hev⟩ := c'.evolves_valueOf hcs name
    have hsame := (h.of_grownAt hg).register?_of_evolves hcs hev
    exact ⟨hev.coherent hcs, fun p hp => (hg p hp).trans (.of_register?_eq (hsame p hp))⟩

/-- A forcing that starts on what was a lasso of an earlier store fails as it would have then. -/
theorem valueOf_of_grownAt {c : Calculator} {s : Store} (hc : c.store.Coherent)
    (h : s.Lasso stem d loop) (hg : ∀ p ∈ stem ++ d :: loop, s.GrownAt c.store p) {root : Position}
    (hhead : (stem ++ d :: loop).head? = some root) :
    (c.valueOf (s.nameAt root)).1 = .error (.cyclic (s.nameAt d) (s.loopNames d loop)) ∧
      (c.valueOf (s.nameAt root)).2.store = c.store ∧
      (c.valueOf (s.nameAt root)).2.journal.events =
        c.journal.events.push (.cycleDetected (s.nameAt d)) := by
  have hroot : root ∈ stem ++ d :: loop := List.mem_of_mem_head? hhead
  have hd : d ∈ stem ++ d :: loop := List.mem_append_right stem List.mem_cons_self
  have hlasso := h.of_grownAt hg
  rw [← h.nameAt_eq (hg root hroot) hroot, ← h.nameAt_eq (hg d hd) hd, ← h.loopNames_eq hg]
  exact valueOf_of_lasso (hlasso.position?_nameAt hc hroot) hlasso hhead

/-- **A register that depends on a cycle can never be forced**, and neither can those of the cycle:
whatever is done after the first failure, each of them fails with the same cycle, read from its own
place on, and stands still. -/
theorem valueOf_cyclic_forever {c c₁ c₂ : Calculator} (hc : c.Reachable) {name register : String}
    {cycle : List String} (h : c.valueOf name = (.error (.cyclic register cycle), c₁))
    (calls : List Call) (hc₂ : c₂ = c₁.performAll calls) :
    ((c₂.valueOf name).1 = .error (.cyclic register cycle) ∧ (c₂.valueOf name).2.store = c₂.store ∧
        (c₂.valueOf name).2.journal.events = c₂.journal.events.push (.cycleDetected register)) ∧
      ∀ x ∈ cycle, (c₂.valueOf x).1 = .error (.cyclic x (rotation x cycle)) ∧
        ∃ r₁ r₂, c₁.store.find? x = some r₁ ∧ c₂.store.find? x = some r₂ ∧
          r₂.value = r₁.value ∧ r₂.firstPending? = r₁.firstPending? := by
  have hs := hc.coherent
  obtain ⟨root, stem, d, loop, hroot, hlasso, hhead, hregister, hcycle⟩ :=
    exists_lasso_of_valueOf hs (congrArg Prod.fst h)
  have hs₁ : c₁.store.Coherent := by
    obtain ⟨touched, as, hev⟩ := c.evolves_valueOf hs name
    rw [h] at hev
    exact hev.coherent hs
  rw [h] at hroot hlasso hregister hcycle
  have hs₂ : c₂.store.Coherent := hc₂ ▸ coherent_performAll calls hs₁
  have hg : ∀ p ∈ stem ++ d :: loop, c₁.store.GrownAt c₂.store p :=
    hc₂ ▸ grownAt_performAll hs₁ hlasso calls
  constructor
  · have hforced := valueOf_of_grownAt hs₂ hlasso hg hhead
    rw [hs₁.nameAt_eq hroot, ← hregister, ← hcycle] at hforced
    exact hforced
  · intro x hx
    obtain ⟨p, hp, rfl⟩ : ∃ p ∈ d :: loop, c₁.store.nameAt p = x := by
      rw [hcycle] at hx
      obtain ⟨p, hp, hpx⟩ := List.mem_map.1 hx
      exact ⟨p, by simpa [or_comm] using hp, hpx⟩
    have hmem : p ∈ stem ++ d :: loop := List.mem_append_right stem hp
    obtain ⟨as, bs, hsplit⟩ := List.append_of_mem hp
    have hturned : ∀ q ∈ [] ++ p :: (bs ++ as), c₁.store.GrownAt c₂.store q := by
      intro q hq
      refine hg q (List.mem_append_right stem ?_)
      rw [hsplit]
      exact List.perm_append_comm.mem_iff.1 hq
    refine ⟨?_, hlasso.find?_of_grownAt hs₁ hs₂ (hg p hmem) hmem⟩
    rw [hcycle, ← hlasso.loopNames_rotate hs₁ hsplit]
    exact (valueOf_of_grownAt hs₂ (hlasso.rotate hsplit) hturned rfl).1

/-- New entries of both registers of a cycle, and another way into it, change nothing. -/
theorem valueOf_cyclic_forever_after_appends :
    let c := fresh.performAll [.run ["x add 1", "x add a", "a add b", "b add a"]]
    let c₂ := (c.valueOf "x").2.performAll
      [.step "a add 1", .valueOf "b", .run ["y add 2", "y add b", "print y", "b multiply 0"]]
    (c.valueOf "x").1 = .error (.cyclic "a" ["a", "b", "a"]) ∧
      (c₂.valueOf "x").1 = .error (.cyclic "a" ["a", "b", "a"]) ∧
      (c₂.valueOf "x").2.store = c₂.store ∧
      (c₂.valueOf "b").1 = .error (.cyclic "b" ["b", "a", "b"]) := by
  intro c c₂
  have hreason : (c.valueOf "x").1 = .error (.cyclic "a" ["a", "b", "a"]) := by decide +kernel
  have hfails : c.valueOf "x" = (.error (.cyclic "a" ["a", "b", "a"]), (c.valueOf "x").2) :=
    Prod.ext hreason rfl
  obtain ⟨⟨hagain, hstore, -⟩, hcycle⟩ := valueOf_cyclic_forever ⟨_, rfl⟩ hfails _ (Eq.refl c₂)
  have hrotation : rotation "b" ["a", "b", "a"] = ["b", "a", "b"] := by decide
  exact ⟨hreason, hagain, hstore, hrotation ▸ (hcycle "b" (by decide)).1⟩

end Calculator

end LazyRegisters
