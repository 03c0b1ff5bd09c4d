import LazyRegisters.Proofs.Calls

/-!
# The outcome of forcing

A forcing fails exactly if a cycle of the pending graph can be reached from its register, whatever
lies on the way there. If it succeeds it gives the denotation of the register; every register that
could be reached is settled at its own denotation, and every other register is left as it was.

The graph is the one before the forcing, which takes edges away while it goes along. That no cycle
is lost on the way is `Store.Evolves.grounded_iff`.
-/

namespace LazyRegisters

/-! ## Success -/

theorem Store.Evolves.register?_eq_settled {s s' : Store} {touched : Position → Prop}
    {as : List Application} (h : s.Evolves touched as s') (hs : s.Coherent) {q : Position}
    {r : Register} (hr : s.register? q = some r) (hq : s'.pendingAt q = []) :
    s'.register? q = some (r.settled (s.denote q)) := by
  have hs' := h.coherent hs
  obtain ⟨r', hr', hname, hplan⟩ := h.exists_register? hr
  have hground : s.Grounded q := (h.grounded_iff hs).1 (Store.grounded_of_pendingAt_eq_nil hq)
  have hvalue : r'.value = s.denote q := by
    rw [← Store.valueAt_of_register? hr', ← Store.denote_of_pendingAt_eq_nil hq,
      h.denote_eq hs hground]
  have hcr := hs'.register hr'
  have hres : r'.isResolved := hcr.isResolved_iff.2 (by rw [← Store.pendingAt_of_register? hr', hq])
  rw [hr', hcr.eq_settled hname hplan hres, hvalue]

namespace Forcing

variable {s₀ : Store} {j₀ : Journal} {root : Position} {f : Forcing}

theorem OnTrack.pendingAt_root (h : f.OnTrack s₀ j₀ root) (hs : s₀.Coherent)
    (hpath : f.path = []) : f.store.pendingAt root = [] := by
  rcases h.last with hlast | ⟨-, hres⟩
  · rw [hpath] at hlast
    cases hlast
  · exact ((h.coherent hs).isResolvedAt_iff root).1 hres

/-- What could be reached from the root is resolved along with it. -/
theorem OnTrack.pendingAt_of_reaches (h : f.OnTrack s₀ j₀ root) (hs : s₀.Coherent)
    (hpath : f.path = []) {q : Position} (hq : s₀.Reaches root q) : f.store.pendingAt q = [] := by
  obtain ⟨as, hev, -⟩ := h.evolves
  exact hev.pendingAt_eq_nil_of_reaches hs (h.pendingAt_root hs hpath) hq

theorem OnTrack.grounded_root (h : f.OnTrack s₀ j₀ root) (hs : s₀.Coherent)
    (hpath : f.path = []) : s₀.Grounded root := by
  obtain ⟨as, hev, -⟩ := h.evolves
  exact (hev.grounded_iff hs).1 (Store.grounded_of_pendingAt_eq_nil (h.pendingAt_root hs hpath))

/-! ## Failure -/

theorem transGen_of_isChain {R : Position → Position → Prop} {y x : Position} {l : List Position}
    (h : (y :: l).IsChain fun b a => R a b) (hx : x ∈ l) : Relation.TransGen R x y := by
  induction l generalizing y with
  | nil => cases hx
  | cons z l ih =>
    obtain ⟨hzy, hrest⟩ := List.isChain_cons_cons.1 h
    rcases List.mem_cons.1 hx with rfl | hx
    · exact .single hzy
    · exact (ih hrest hx).tail hzy

/-- If the innermost register is blocked on one of the path, that one lies on a cycle of the graph
at the start. -/
theorem OnTrack.onCycle (h : f.OnTrack s₀ j₀ root) (hs : s₀.Coherent) {p d : Position}
    {path : List Position} (hpath : f.path = p :: path) (hblocked : f.store.BlockedOn p d)
    (hd : d ∈ f.path) : s₀.OnCycle d := by
  obtain ⟨as, hev, -⟩ := h.evolves
  have hchain : (d :: f.path).IsChain fun y x => f.store.BlockedOn x y := by
    rw [hpath]
    exact List.isChain_cons_cons.2 ⟨hblocked, hpath ▸ h.chain⟩
  have hedge (x y : Position) (hxy : f.store.BlockedOn x y) : s₀.Awaits x y :=
    hev.awaits_of_awaits hs (hxy.awaits (h.coherent hs))
  exact transGen_of_isChain (hchain.imp fun y x hxy => hedge x y hxy) hd

end Forcing

namespace Calculator

variable {c : Calculator} (name : String) {root : Position}

/-- **Cycle detection is exact.** -/
theorem valueOf_fails_iff (hc : c.Reachable) (hroot : c.store.position? name = some root) :
    ((∃ register cycle, (c.valueOf name).1 = .error (.cyclic register cycle)) ↔
        ∃ q, c.store.Reaches root q ∧ c.store.OnCycle q) ∧
      ((∃ v, (c.valueOf name).1 = .ok v) ↔ ¬ ∃ q, c.store.Reaches root q ∧ c.store.OnCycle q) := by
  have hs := hc.coherent
  obtain ⟨g, hg, ⟨hpath, hvalue⟩ | ⟨p, path, d, hpath, hblocked, hd, hvalue⟩⟩ :=
    valueOf_spec hs hroot
  · have hacyclic : ¬ ∃ q, c.store.Reaches root q ∧ c.store.OnCycle q := by
      rintro ⟨q, hq, hcycle⟩
      exact (hg.grounded_root hs hpath).not_onCycle_of_reaches hq hcycle
    rw [hvalue]
    simp [hacyclic]
  · have hcycle : ∃ q, c.store.Reaches root q ∧ c.store.OnCycle q :=
      ⟨d, hg.reaches d hd, hg.onCycle hs hpath hblocked hd⟩
    rw [hvalue]
    simp [hcycle, Forcing.cycleReason]

/-- A cycle is found behind an entry that is applied and a register that does not lie on it. -/
theorem valueOf_fails_iff_behind_tail :
    let c := fresh.performAll [.run ["x add 1", "x subtract a", "a add b", "b add a"]]
    c.store.position? "x" = some 0 ∧ (c.valueOf "x").1 = .error (.cyclic "a" ["a", "b", "a"]) ∧
      ∃ q, c.store.Reaches 0 q ∧ c.store.OnCycle q := by
  intro c
  have hposition : c.store.position? "x" = some 0 := by decide +kernel
  have hfails : (c.valueOf "x").1 = .error (.cyclic "a" ["a", "b", "a"]) := by decide +kernel
  exact ⟨hposition, hfails, (valueOf_fails_iff "x" ⟨_, rfl⟩ hposition).1.1 ⟨_, _, hfails⟩⟩

/-- **What a successful forcing gives and leaves behind.** -/
theorem valueOf_settles (hc : c.Reachable) (hroot : c.store.position? name = some root) {v : Float}
    (hv : (c.valueOf name).1 = .ok v) :
    (c.store.Grounded root ∧ v = c.store.denote root) ∧
      (∀ q, c.store.Reaches root q → ∃ r, c.store.register? q = some r ∧
        (c.valueOf name).2.store.register? q = some (r.settled (c.store.denote q)) ∧
        (c.valueOf name).2.store.pendingAt q = []) ∧
      (∀ q, ¬ c.store.Reaches root q →
        (c.valueOf name).2.store.register? q = c.store.register? q) ∧
      (c.valueOf name).2.store.size = c.store.size := by
  have hs := hc.coherent
  obtain ⟨g, hg, ⟨hpath, hvalue⟩ | ⟨p, path, d, -, -, -, hvalue⟩⟩ := valueOf_spec hs hroot
  · obtain ⟨as, hev, -⟩ := hg.evolves
    have hground := hg.grounded_root hs hpath
    rw [hvalue] at hv ⊢
    refine ⟨⟨hground, ?_⟩, fun q hq => ?_, fun q hq => ?_, hev.size_eq⟩
    · rw [← hev.denote_eq hs hground,
        Store.denote_of_pendingAt_eq_nil (hg.pendingAt_root hs hpath)]
      exact (Except.ok.inj hv).symm
    · have hlt := hs.lt_of_reaches hq (hs.lt_size_of_position? hroot)
      obtain ⟨r, hr⟩ := Store.exists_register?_of_lt hlt
      have hnil := hg.pendingAt_of_reaches hs hpath hq
      exact ⟨r, hr, hev.register?_eq_settled hs hr hnil, hnil⟩
    · exact hev.register?_of_not_touched hs hq
  · rw [hvalue] at hv
    cases hv

/-- Two registers share a third one, and one of the two has been forced before. -/
theorem valueOf_settles_shared :
    let c := fresh.performAll [.run ["a add 5", "b add a", "print b", "b multiply a", "c add a",
      "d add b", "d add c"]]
    c.store.position? "d" = some 3 ∧ (c.valueOf "d").1 = .ok 30 ∧ 30 = c.store.denote 3 ∧
      ∃ r, c.store.register? 1 = some r ∧
        (c.valueOf "d").2.store.register? 1 = some (r.settled (c.store.denote 1)) ∧
        (c.valueOf "d").2.store.pendingAt 1 = [] := by
  intro c
  have hposition : c.store.position? "d" = some 3 := by decide +kernel
  have hvalue : (c.valueOf "d").1 = .ok 30 := by decide +kernel
  obtain ⟨⟨-, hdenote⟩, hreached, -⟩ := valueOf_settles "d" ⟨_, rfl⟩ hposition hvalue
  exact ⟨hposition, hvalue, hdenote, hreached 1 (.single (by decide +kernel))⟩

end Calculator

end LazyRegisters
