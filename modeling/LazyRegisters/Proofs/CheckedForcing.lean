import LazyRegisters.Proofs.Calls

/-!
# Forcing with every look-up checked

The moves of a forcing read the store by look-ups that cannot fail. Here a turn of the loop is
written with look-ups that can: a position without a register, a register without an entry to apply
and a cycle that is closed by a register beside the path are *faults*, and a register counts as
resolved only if its cursor stands exactly at the end of its log.

In a store that is `Bounded` no turn is ever at fault, whatever is marked as applied and whichever
cycles there are: the path lies within the store, and the set beside it holds its registers, each of
which is there once (`Sound`). So the loop makes the moves of `Forcing.run`, and it ends with them.
-/

namespace LazyRegisters

/-- A look-up that finds nothing. -/
inductive Fault where
  /-- No register is at the position. -/
  | noRegister (p : Position)
  /-- The register at the position has no entry to apply. -/
  | noEntry (p : Position)
  /-- The register that closes a cycle is not on the path. -/
  | notOnPath (p : Position)
  deriving DecidableEq, Repr

/-- The operand is a number or refers to one of the first `n` registers. -/
def Operand.Within (n : Nat) : Operand Position → Prop
  | number _ => True
  | register d => d < n

instance (n : Nat) : (operand : Operand Position) → Decidable (operand.Within n)
  | .number _ => .isTrue trivial
  | .register d => inferInstanceAs (Decidable (d < n))

theorem Register.cursor_applyPending_le {r : Register} (h : r.cursor ≤ r.log.size) (x : Float) :
    (r.applyPending x).cursor ≤ (r.applyPending x).log.size := by
  cases he : r.pendingEntry? with
  | none => rwa [applyPending_of_resolved ((isResolved_iff r).2 he)]
  | some e =>
    have hlt : r.cursor < r.log.size := (Array.getElem?_eq_some_iff.1 he).1
    rw [size_log_applyPending, applyPending_eq he]
    exact hlt

namespace Store

/-- The register at a position, which has to be there. -/
def fetch (s : Store) (p : Position) : Except Fault Register :=
  match s.register? p with
  | some r => .ok r
  | none => .error (.noRegister p)

/-- Every cursor stands within its log and every operand refers to a register of the store. -/
def Bounded (s : Store) : Prop :=
  ∀ r ∈ s.registers, r.cursor ≤ r.log.size ∧ ∀ x ∈ r.plan, x.2.Within s.size

instance (s : Store) : Decidable s.Bounded :=
  inferInstanceAs (Decidable (∀ r ∈ s.registers, _ ∧ ∀ x ∈ r.plan, _))

theorem bounded_iff {s : Store} : s.Bounded ↔ ∀ p r, s.register? p = some r →
    r.cursor ≤ r.log.size ∧ ∀ x ∈ r.plan, x.2.Within s.size := by
  constructor
  · intro h p r hr
    exact h r (Array.mem_of_getElem? hr)
  · intro h r hr
    obtain ⟨p, hp⟩ := Array.mem_iff_getElem?.1 hr
    exact h p r hp

theorem fetch_of_register? {s : Store} {p : Position} {r : Register}
    (h : s.register? p = some r) : s.fetch p = .ok r := by
  rw [fetch, h]

theorem exists_mapM_fetch {s : Store} {ps : List Position} (h : ∀ p ∈ ps, p < s.size) :
    ∃ rs, ps.mapM s.fetch = .ok rs := by
  induction ps with
  | nil => exact ⟨[], rfl⟩
  | cons p ps ih =>
    obtain ⟨r, hr⟩ := exists_register?_of_lt (h p List.mem_cons_self)
    obtain ⟨rs, hrs⟩ := ih fun q hq => h q (List.mem_cons_of_mem p hq)
    refine ⟨r :: rs, ?_⟩
    rw [List.mapM_cons, fetch_of_register? hr, hrs]
    rfl

theorem Coherent.bounded {s : Store} (h : s.Coherent) : s.Bounded := by
  refine bounded_iff.2 fun p r hr => ⟨(h.register hr).cursor_le, ?_⟩
  rintro ⟨op, x | d⟩ hx
  · trivial
  · exact h.operand_lt hr hx

theorem Bounded.applyPending {s : Store} (h : s.Bounded) (p : Position) (x : Float) :
    (s.applyPending p x).Bounded := by
  refine bounded_iff.2 fun q r hr => ?_
  rw [Store.applyPending, register?_modify] at hr
  rw [Store.applyPending, size_modify]
  split at hr
  · obtain ⟨r₀, hr₀, rfl⟩ := Option.map_eq_some_iff.1 hr
    obtain ⟨hcursor, hplan⟩ := bounded_iff.1 h q r₀ hr₀
    exact ⟨Register.cursor_applyPending_le hcursor x, by rwa [Register.plan_applyPending]⟩
  · exact bounded_iff.1 h q r hr

/-- In a bounded store a cursor at the end of its log is one that is not before it. -/
theorem Bounded.isResolvedAt_iff {s : Store} (h : s.Bounded) {p : Position} {r : Register}
    (hr : s.register? p = some r) : s.isResolvedAt p ↔ r.cursor = r.log.size := by
  have hle := (bounded_iff.1 h p r hr).1
  rw [isResolvedAt, hr, Option.all_some, Register.isResolved, decide_eq_true_iff]
  omega

end Store

namespace Forcing

/-- How a turn of the loop leaves off. -/
inductive Turn where
  | continued (f : Forcing)
  | ended (e : Ending)

/-- Enters a register, whose name is told. -/
def checkedEnter (p : Position) (f : Forcing) : Except Fault Turn := do
  let _ ← f.store.fetch p
  return .continued (f.enter p)

/-- Applies the first pending entry of a register, which has to be there. -/
def checkedApply (p : Position) (operand : Float) (f : Forcing) : Except Fault Turn := do
  let r ← f.store.fetch p
  match r.pendingEntry? with
  | none => throw (.noEntry p)
  | some _ => return .continued (f.apply p operand)

/-- Gives up at a register, which has to be on the path; the registers from there on are named. -/
def checkedCycle (p : Position) (f : Forcing) : Except Fault Turn :=
  if p ∈ f.path then do
    let _ ← (f.cycleAt p).mapM f.store.fetch
    return .ended ⟨some (f.cycleReason p), (f.report p).store, (f.report p).journal⟩
  else throw (.notOnPath p)

/-- Deals with the operand of the first pending entry of the innermost register. -/
def checkedOperand (top : Position) (operand : Operand Position) (f : Forcing) :
    Except Fault Turn :=
  match operand with
  | .number x => f.checkedApply top x
  | .register d =>
    if f.onPath.contains d then f.checkedCycle d
    else do
      let dependency ← f.store.fetch d
      if dependency.cursor = dependency.log.size then f.checkedApply top dependency.value
      else f.checkedEnter d

def turn (f : Forcing) : Except Fault Turn :=
  match f.path with
  | [] => return .ended ⟨none, f.store, f.journal⟩
  | top :: _ => do
    let r ← f.store.fetch top
    match r.pendingEntry? with
    | none => return .continued f.leave
    | some entry => f.checkedOperand top entry.operand

/-- The turns of the loop lead from one state to another. -/
def Passes : Forcing → Forcing → Prop :=
  Relation.ReflTransGen fun f g => f.turn = .ok (.continued g)

/-- What the next move comes to. -/
def moved (f : Forcing) : Turn :=
  match f.move with
  | .finish => .ended ⟨none, f.store, f.journal⟩
  | .leave => .continued f.leave
  | .enter d => .continued (f.enter d)
  | .apply p x => .continued (f.apply p x)
  | .cycle d => .ended ⟨some (f.cycleReason d), (f.report d).store, (f.report d).journal⟩

variable {f g : Forcing} {p d : Position}

/-- Forcing to the end is making the next move and forcing to the end from there. -/
theorem run_eq_moved (f : Forcing) :
    f.run = match f.moved with
      | .continued g => g.run
      | .ended e => e := by
  rw [moved]
  cases h : f.move with
  | finish => exact run_of_finish h
  | leave => exact run_of_leave h
  | enter d => exact run_of_enter h
  | apply p x => exact run_of_apply h
  | cycle d => exact run_of_cycle h

theorem movesLeft_moved (h : f.moved = .continued g) : g.movesLeft < f.movesLeft := by
  rw [moved] at h
  split at h
  · cases h
  · next hmove => cases h; exact movesLeft_leave hmove
  · next hmove => cases h; exact movesLeft_enter hmove
  · next hmove => cases h; exact movesLeft_apply hmove
  · cases h

/-! ## What the loop keeps -/

/-- The store is bounded, the path lies within it, and the set beside the path is right. -/
structure Sound (f : Forcing) : Prop extends f.Marked where
  bounded : f.store.Bounded
  lt_size : ∀ p ∈ f.path, p < f.store.size

theorem Sound.start {s : Store} (hs : s.Bounded) (j : Journal) {root : Position}
    (hroot : root < s.size) : (start s j root).Sound where
  toMarked := marked_start s j root
  bounded := hs
  lt_size p hp := by
    obtain rfl := List.mem_singleton.1 hp
    exact hroot

theorem Sound.lt_of_blockedOn (h : f.Sound) (hblocked : f.store.BlockedOn p d) :
    d < f.store.size := by
  obtain ⟨e, he, hd⟩ := hblocked
  obtain ⟨r, hr, her⟩ := Option.bind_eq_some_iff.1 he
  have hplan := Register.mem_plan_of_pendingEntry? her
  have hwithin := (Store.bounded_iff.1 h.bounded p r hr).2 _ hplan
  rwa [hd] at hwithin

theorem Sound.leave (h : f.Sound) (hmove : f.move = .leave) : f.leave.Sound := by
  obtain ⟨p, path, hpath, -⟩ := of_move_leave hmove
  have hmarked := h.toMarked.leave hmove
  rw [leave_of_path_eq hpath] at hmarked ⊢
  exact ⟨hmarked, h.bounded, fun q hq => h.lt_size q (hpath ▸ List.mem_cons_of_mem p hq)⟩

theorem Sound.enter (h : f.Sound) (hmove : f.move = .enter d) : (f.enter d).Sound := by
  obtain ⟨p, path, -, hblocked, -⟩ := move_spec hmove
  refine ⟨h.toMarked.enter hmove, h.bounded, fun q hq => ?_⟩
  rcases List.mem_cons.1 hq with rfl | hq
  · exact h.lt_of_blockedOn hblocked
  · exact h.lt_size q hq

theorem Sound.apply (h : f.Sound) {x : Float} (hmove : f.move = .apply p x) :
    (f.apply p x).Sound := by
  obtain ⟨e, he⟩ := pendingEntryAt?_of_move_apply hmove
  have hstore := store_apply x he
  refine ⟨h.toMarked.apply p x, hstore ▸ h.bounded.applyPending p x, fun q hq => ?_⟩
  rw [path_apply] at hq
  rw [hstore, Store.applyPending, Store.size_modify]
  exact h.lt_size q hq

theorem Sound.of_moved (h : f.Sound) (hmoved : f.moved = .continued g) : g.Sound := by
  rw [Forcing.moved] at hmoved
  split at hmoved
  · cases hmoved
  · next hmove => cases hmoved; exact h.leave hmove
  · next hmove => cases hmoved; exact h.enter hmove
  · next hmove => cases hmoved; exact h.apply hmove
  · cases hmoved

/-! ## No turn is at fault -/

theorem checkedEnter_eq (hd : d < f.store.size) :
    f.checkedEnter d = .ok (.continued (f.enter d)) := by
  obtain ⟨r, hr⟩ := Store.exists_register?_of_lt hd
  rw [checkedEnter, Store.fetch_of_register? hr]
  rfl

theorem checkedApply_eq {r : Register} {e : Entry Position} (hr : f.store.register? p = some r)
    (he : r.pendingEntry? = some e) (x : Float) :
    f.checkedApply p x = .ok (.continued (f.apply p x)) := by
  rw [checkedApply, Store.fetch_of_register? hr]
  show (match r.pendingEntry? with
    | none => throw (.noEntry p)
    | some _ => pure (.continued (f.apply p x)) : Except Fault Turn) = _
  rw [he]
  rfl

theorem Sound.checkedCycle_eq (h : f.Sound) (hp : p ∈ f.path) :
    f.checkedCycle p =
      .ok (.ended ⟨some (f.cycleReason p), (f.report p).store, (f.report p).journal⟩) := by
  obtain ⟨rs, hrs⟩ := Store.exists_mapM_fetch fun q hq =>
    h.lt_size q (mem_path_of_mem_cycleAt hp hq)
  rw [checkedCycle, if_pos hp, hrs]
  rfl

theorem Sound.checkedOperand_eq (h : f.Sound) {top : Position} {path : List Position} {r : Register}
    {e : Entry Position} (hpath : f.path = top :: path) (hr : f.store.register? top = some r)
    (he : r.pendingEntry? = some e) : f.checkedOperand top e.operand = .ok f.moved := by
  have hpending := Store.pendingEntryAt?_of_register? hr he
  cases hop : e.operand with
  | number x =>
    rw [moved, move_of_number hpath hpending hop]
    exact checkedApply_eq hr he x
  | register d =>
    have hblocked : f.store.BlockedOn top d := ⟨e, hpending, hop⟩
    have hd := h.lt_of_blockedOn hblocked
    obtain ⟨rd, hrd⟩ := Store.exists_register?_of_lt hd
    have hres := h.bounded.isResolvedAt_iff hrd
    rw [moved, move_of_blockedOn hpath hblocked, checkedOperand, Store.fetch_of_register? hrd]
    by_cases hon : f.onPath.contains d
    · rw [if_pos hon, if_pos hon]
      exact h.checkedCycle_eq ((h.contains_iff d).1 hon)
    · rw [if_neg hon, if_neg hon]
      by_cases hcursor : rd.cursor = rd.log.size
      · rw [if_pos (hres.2 hcursor), Store.valueAt_of_register? hrd]
        exact (if_pos hcursor).trans (checkedApply_eq hr he rd.value)
      · rw [if_neg (mt hres.1 hcursor)]
        exact (if_neg hcursor).trans (checkedEnter_eq hd)

/-- A turn with checked look-ups makes the next move. -/
theorem Sound.turn_eq (h : f.Sound) : f.turn = .ok f.moved := by
  cases hpath : f.path with
  | nil =>
    rw [turn, moved, move_of_path_eq_nil hpath, hpath]
    rfl
  | cons top path =>
    have htop : top ∈ f.path := by rw [hpath]; exact List.mem_cons_self
    obtain ⟨r, hr⟩ := Store.exists_register?_of_lt (h.lt_size top htop)
    simp only [turn, hpath, Store.fetch_of_register? hr, bind, Except.bind]
    cases he : r.pendingEntry? with
    | none =>
      have hres : f.store.isResolvedAt top := by
        rw [Store.isResolvedAt_iff, Store.pendingEntryAt?, hr, Option.bind_some, he]
      rw [moved, move_of_isResolvedAt hpath hres]
      rfl
    | some e => exact h.checkedOperand_eq hpath hr he

theorem Sound.passes (h : f.Sound) (hpass : f.Passes g) : g.Sound := by
  induction hpass with
  | refl => exact h
  | tail _ hturn ih =>
    rw [ih.turn_eq] at hturn
    exact ih.of_moved (Except.ok.inj hturn)

/-- The loop comes to the end that forcing comes to. -/
theorem Sound.exists_ended (h : f.Sound) : ∃ g, f.Passes g ∧ g.turn = .ok (.ended f.run) := by
  induction hn : f.movesLeft using Nat.strong_induction_on generalizing f with
  | _ n ih =>
    have hrun := f.run_eq_moved
    cases hmoved : f.moved with
    | continued g =>
      rw [hmoved] at hrun
      obtain ⟨last, hpasses, hended⟩ :=
        ih g.movesLeft (hn ▸ movesLeft_moved hmoved) (h.of_moved hmoved) rfl
      have hturn : f.turn = .ok (.continued g) := by rw [h.turn_eq, hmoved]
      exact ⟨last, .head hturn hpasses, hrun ▸ hended⟩
    | ended e =>
      rw [hmoved] at hrun
      exact ⟨f, .refl, by rw [h.turn_eq, hmoved, hrun]⟩

/-- **Forcing ends, and no look-up of it fails.** Stores that calls build are bounded; in any
bounded store, cyclic or not, the loop comes to an end from each register, no turn of it is at
fault, and the set beside the path holds the registers of the path, each of which is there once. -/
theorem ends_without_fault :
    (∀ c : Calculator, c.Reachable → c.store.Bounded ∧
        ∀ name root, c.store.position? name = some root → root < c.store.size) ∧
      ∀ s : Store, s.Bounded → ∀ (j : Journal) (root : Position), root < s.size →
        checkedEnter root ⟨s, j, [], ∅⟩ = .ok (.continued (start s j root)) ∧
          (∃ g, (start s j root).Passes g ∧ g.turn = .ok (.ended (start s j root).run)) ∧
          ∀ g, (start s j root).Passes g →
            (∃ t, g.turn = .ok t) ∧ g.path.Nodup ∧ ∀ p, g.onPath.contains p ↔ p ∈ g.path := by
  refine ⟨fun c hc => ⟨hc.coherent.bounded, fun _ _ => hc.coherent.lt_size_of_position?⟩,
    fun s hs j root hroot => ?_⟩
  have hstart := Sound.start hs j hroot
  refine ⟨?_, hstart.exists_ended, fun g hpass => ?_⟩
  · exact checkedEnter_eq hroot
  · have hg := hstart.passes hpass
    exact ⟨⟨g.moved, hg.turn_eq⟩, hg.nodup, hg.contains_iff⟩

/-- Two registers that wait for each other. The marks of the entries say nothing: one is set behind
the cursor. -/
theorem ends_without_fault_mutual :
    let s : Store := ⟨#[
      { name := "a", log := #[⟨.add, .number 1, false⟩, ⟨.add, .register 1, true⟩] },
      { name := "b", log := #[⟨.subtract, .register 0, false⟩] }], ∅⟩
    s.Bounded ∧ 0 < s.size ∧
      (∃ g, (start s ∅ 0).Passes g ∧ g.turn = .ok (.ended (start s ∅ 0).run)) ∧
      (start s ∅ 0).run.failure = some (.cyclic "a" ["a", "b", "a"]) ∧
      (Calculator.fresh.performAll [.run ["a add b", "b add a", "print a"]]).store.Bounded := by
  intro s
  have hs : s.Bounded := by decide
  obtain ⟨-, hloop, -⟩ := ends_without_fault.2 s hs ∅ 0 (by decide)
  exact ⟨hs, by decide, hloop, by decide +kernel, (ends_without_fault.1 _ ⟨_, rfl⟩).1⟩

end Forcing

end LazyRegisters
