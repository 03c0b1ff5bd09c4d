import LazyRegisters.Forcing.Run
import LazyRegisters.Proofs.Evolution
import Mathlib.Data.List.Chain

/-!
# The dependency path

The invariant of forcing, `OnTrack`: the store has evolved from the one at the start by applications
to registers that the root reaches, the set beside the path holds the registers of the path, no
register is on the path twice, each register of the path is blocked on the one entered after it,
and the path ends with the root until the root has been resolved.

Every move keeps the invariant, so a forcing either ends with an empty path and a resolved root, or
meets a cycle: the innermost register is blocked on one of the path (`OnTrack.run_spec`).
-/

namespace LazyRegisters.Forcing

/-! ## Moves -/

theorem move_of_path_eq_nil {f : Forcing} (h : f.path = []) : f.move = .finish := by
  rw [move, h]

theorem move_of_isResolvedAt {f : Forcing} {p : Position} {path : List Position}
    (hpath : f.path = p :: path) (h : f.store.isResolvedAt p) : f.move = .leave := by
  simp only [move, hpath, (Store.isResolvedAt_iff _ _).1 h]

theorem move_of_number {f : Forcing} {p : Position} {path : List Position} {e : Entry Position}
    {x : Float} (hpath : f.path = p :: path) (he : f.store.pendingEntryAt? p = some e)
    (hop : e.operand = .number x) : f.move = .apply p x := by
  simp only [move, hpath, he, hop]

theorem move_of_blockedOn {f : Forcing} {p d : Position} {path : List Position}
    (hpath : f.path = p :: path) (h : f.store.BlockedOn p d) :
    f.move = if f.onPath.contains d then .cycle d
      else if f.store.isResolvedAt d then .apply p (f.store.valueAt d) else .enter d := by
  obtain ⟨e, he, hop⟩ := h
  simp only [move, hpath, he, hop]

/-- What holds of a forcing when a move is chosen. -/
def Allows (f : Forcing) : Move → Prop
  | .finish => f.path = []
  | .leave => ∃ p path, f.path = p :: path ∧ f.store.isResolvedAt p
  | .enter d => ∃ p path, f.path = p :: path ∧ f.store.BlockedOn p d ∧
      f.onPath.contains d = false ∧ f.store.isResolvedAt d = false
  | .apply p x => ∃ path e, f.path = p :: path ∧ f.store.pendingEntryAt? p = some e ∧
      f.store.Supplies e.operand x
  | .cycle d => ∃ p path, f.path = p :: path ∧ f.store.BlockedOn p d ∧ f.onPath.contains d

theorem move_spec {f : Forcing} {m : Move} (hmove : f.move = m) : f.Allows m := by
  subst hmove
  cases hpath : f.path with
  | nil =>
    rw [move_of_path_eq_nil hpath]
    exact hpath
  | cons p path =>
    cases he : f.store.pendingEntryAt? p with
    | none =>
      have hres := (Store.isResolvedAt_iff _ _).2 he
      rw [move_of_isResolvedAt hpath hres]
      exact ⟨p, path, hpath, hres⟩
    | some e =>
      cases hop : e.operand with
      | number x =>
        rw [move_of_number hpath he hop]
        exact ⟨path, e, hpath, he, hop ▸ .number x⟩
      | register d =>
        have hblocked : f.store.BlockedOn p d := ⟨e, he, hop⟩
        rw [move_of_blockedOn hpath hblocked]
        cases hon : f.onPath.contains d with
        | true => exact ⟨p, path, hpath, hblocked, hon⟩
        | false =>
          cases hres : f.store.isResolvedAt d with
          | true => exact ⟨path, e, hpath, he, hop ▸ .register hres⟩
          | false => exact ⟨p, path, hpath, hblocked, hon, hres⟩

/-- An application made by forcing is one of the store, and is told of. -/
theorem apply_spec {f : Forcing} {p : Position} {e : Entry Position} {x : Float}
    (he : f.store.pendingEntryAt? p = some e) (hx : f.store.Supplies e.operand x) :
    ∃ a, f.store.Applies p a (f.apply p x).store ∧
      (f.apply p x).journal = (f.journal.note (.applied a)).emit (.applied a) := by
  obtain ⟨r, hr, her⟩ := Option.bind_eq_some_iff.1 he
  refine ⟨⟨r.name, r.cursor, e.operation, x, e.operation.apply r.value x⟩, ?_, ?_⟩
  · rw [store_apply x he]
    exact .intro hr her hx
  · simp [apply, application?, hr, her]

/-- The cycle that a register of the path closes starts where the path comes to it. -/
theorem cycleAt_of_path_eq {f : Forcing} {d : Position} {as bs : List Position}
    (hpath : f.path = as ++ d :: bs) (has : d ∉ as) : f.cycleAt d = d :: as.reverse ++ [d] := by
  have hne : ∀ y ∈ as, (y != d) = true := by
    intro y hy
    simpa using fun hyd : y = d => has (hyd ▸ hy)
  rw [cycleAt, hpath, List.takeWhile_append_of_pos hne]
  simp

theorem mem_path_of_mem_cycleAt {f : Forcing} {p : Position} (hp : p ∈ f.path)
    {q : Position} (hq : q ∈ f.cycleAt p) : q ∈ f.path := by
  rw [cycleAt, List.mem_append, List.mem_cons, List.mem_reverse, List.mem_singleton] at hq
  rcases hq with (rfl | hq) | rfl
  · exact hp
  · exact (List.takeWhile_sublist _).subset hq
  · exact hp

/-! ## The invariant -/

theorem contains_insert_iff {t : Std.TreeSet Position} {p q : Position} :
    (t.insert p).contains q ↔ q = p ∨ t.contains q := by
  rw [Std.TreeSet.contains_insert, Bool.or_eq_true, beq_iff_eq, Std.LawfulEqCmp.compare_eq_iff_eq]
  exact or_congr_left eq_comm

theorem contains_erase_iff {t : Std.TreeSet Position} {p q : Position} :
    (t.erase p).contains q ↔ q ≠ p ∧ t.contains q := by
  rw [Std.TreeSet.contains_erase, Bool.and_eq_true, bne_iff_ne, ne_eq,
    Std.LawfulEqCmp.compare_eq_iff_eq]
  exact and_congr_left' (not_congr eq_comm)

theorem leave_of_path_eq {f : Forcing} {p : Position} {path : List Position}
    (hpath : f.path = p :: path) :
    f.leave = { f with path := path, onPath := f.onPath.erase p } := by
  rw [leave, hpath]

/-- No register is on the path twice, and the set beside the path marks those that are on it. -/
structure Marked (f : Forcing) : Prop where
  nodup : f.path.Nodup
  contains_iff : ∀ p, f.onPath.contains p ↔ p ∈ f.path

theorem marked_start (s : Store) (j : Journal) (root : Position) : (start s j root).Marked where
  nodup := List.nodup_cons.2 ⟨List.not_mem_nil, .nil⟩
  contains_iff p := by
    show (Std.TreeSet.insert ∅ root).contains p ↔ p ∈ [root]
    rw [contains_insert_iff, List.mem_singleton]
    simp

theorem Marked.leave {f : Forcing} (h : f.Marked) (hmove : f.move = .leave) : f.leave.Marked := by
  obtain ⟨p, path, hpath, -⟩ := of_move_leave hmove
  have hnodup := h.nodup
  rw [hpath] at hnodup
  have hp : p ∉ path := (List.nodup_cons.1 hnodup).1
  rw [leave_of_path_eq hpath]
  refine ⟨hnodup.of_cons, fun q => ?_⟩
  rw [contains_erase_iff, h.contains_iff, hpath, List.mem_cons]
  constructor
  · rintro ⟨hne, hmem⟩
    exact hmem.resolve_left hne
  · intro hmem
    exact ⟨fun hqp => hp (hqp ▸ hmem), .inr hmem⟩

theorem Marked.enter {f : Forcing} (h : f.Marked) {d : Position} (hmove : f.move = .enter d) :
    (f.enter d).Marked := by
  have hd : d ∉ f.path := by
    rw [← h.contains_iff, (of_move_enter hmove).2]
    simp
  refine ⟨List.nodup_cons.2 ⟨hd, h.nodup⟩, fun q => ?_⟩
  show (f.onPath.insert d).contains q ↔ q ∈ d :: f.path
  rw [contains_insert_iff, h.contains_iff, List.mem_cons]

theorem Marked.apply {f : Forcing} (h : f.Marked) (p : Position) (x : Float) :
    (f.apply p x).Marked := by
  refine ⟨?_, fun q => ?_⟩
  · rw [path_apply]
    exact h.nodup
  · rw [path_apply, onPath_apply]
    exact h.contains_iff q

/-- A forcing of the register at `root`, begun with the given store and journal, is under way. -/
structure OnTrack (s₀ : Store) (j₀ : Journal) (root : Position) (f : Forcing) : Prop where
  evolves : ∃ as, s₀.Evolves (s₀.Reaches root) as f.store ∧
    f.journal.events.toList = j₀.events.toList ++ as.map .applied
  nodup : f.path.Nodup
  contains_iff : ∀ p, f.onPath.contains p ↔ p ∈ f.path
  chain : f.path.IsChain fun y x => f.store.BlockedOn x y
  reaches : ∀ p ∈ f.path, s₀.Reaches root p
  last : f.path.getLast? = some root ∨ f.path = [] ∧ f.store.isResolvedAt root

variable {s₀ : Store} {j₀ : Journal} {root : Position} {f : Forcing}

theorem OnTrack.coherent (h : f.OnTrack s₀ j₀ root) (hs : s₀.Coherent) : f.store.Coherent := by
  obtain ⟨as, hev, -⟩ := h.evolves
  exact hev.coherent hs

theorem OnTrack.nameAt_eq (h : f.OnTrack s₀ j₀ root) : f.store.nameAt = s₀.nameAt := by
  obtain ⟨as, hev, -⟩ := h.evolves
  exact hev.nameAt_eq

theorem OnTrack.size_eq (h : f.OnTrack s₀ j₀ root) : f.store.size = s₀.size := by
  obtain ⟨as, hev, -⟩ := h.evolves
  exact hev.size_eq

theorem OnTrack.names_eq (h : f.OnTrack s₀ j₀ root) : f.store.names = s₀.names := by
  obtain ⟨as, hev, -⟩ := h.evolves
  exact hev.names_eq

theorem OnTrack.lt_size (h : f.OnTrack s₀ j₀ root) (hs : s₀.Coherent) (hroot : root < s₀.size)
    {p : Position} (hp : p ∈ f.path) : p < s₀.size :=
  hs.lt_of_reaches (h.reaches p hp) hroot

theorem OnTrack.marked (h : f.OnTrack s₀ j₀ root) : f.Marked := ⟨h.nodup, h.contains_iff⟩

theorem OnTrack.start (s₀ : Store) (j₀ : Journal) (root : Position) :
    (start s₀ j₀ root).OnTrack s₀ j₀ root where
  evolves := ⟨[], .refl, by simp [Forcing.start, enter, Journal.note]⟩
  nodup := (marked_start s₀ j₀ root).nodup
  contains_iff := (marked_start s₀ j₀ root).contains_iff
  chain := .singleton root
  reaches p hp := by
    obtain rfl := List.mem_singleton.1 hp
    exact .refl
  last := .inl rfl

/-- All registers of a path but the first have one before them. -/
theorem exists_rel_of_mem_tail {R : Position → Position → Prop} {top p : Position}
    {path : List Position} (h : (top :: path).IsChain R) (hp : p ∈ path) : ∃ y, R y p := by
  induction path generalizing top with
  | nil => cases hp
  | cons q path ih =>
    obtain ⟨hq, hrest⟩ := List.isChain_cons_cons.1 h
    rcases List.mem_cons.1 hp with rfl | hp
    · exact ⟨top, hq⟩
    · exact ih hrest hp

theorem OnTrack.not_isResolvedAt_of_mem (h : f.OnTrack s₀ j₀ root) {top p : Position}
    {path : List Position} (hpath : f.path = top :: path) (hp : p ∈ path) :
    f.store.isResolvedAt p = false := by
  have hchain := h.chain
  rw [hpath] at hchain
  obtain ⟨y, hy⟩ := exists_rel_of_mem_tail hchain hp
  exact hy.not_isResolvedAt

theorem OnTrack.leave (h : f.OnTrack s₀ j₀ root) (hmove : f.move = .leave) :
    f.leave.OnTrack s₀ j₀ root := by
  obtain ⟨p, path, hpath, hres⟩ := move_spec hmove
  have hmarked := h.marked.leave hmove
  have hchain := h.chain
  have hlast := h.last
  rw [hpath] at hchain hlast
  rw [leave_of_path_eq hpath] at hmarked ⊢
  refine ⟨h.evolves, hmarked.nodup, hmarked.contains_iff, hchain.tail, fun q hq => ?_, ?_⟩
  · exact h.reaches q (hpath ▸ List.mem_cons_of_mem p hq)
  · cases path with
    | nil =>
      obtain rfl : p = root := by simpa using hlast
      exact .inr ⟨rfl, hres⟩
    | cons q path => exact .inl (by simpa using hlast)

theorem OnTrack.enter (hs : s₀.Coherent) (h : f.OnTrack s₀ j₀ root) {d : Position}
    (hmove : f.move = .enter d) : (f.enter d).OnTrack s₀ j₀ root := by
  obtain ⟨p, path, hpath, hblocked, -⟩ := move_spec hmove
  obtain ⟨as, hev, hevents⟩ := h.evolves
  have hmarked := h.marked.enter hmove
  refine ⟨⟨as, hev, by simpa [Forcing.enter, Journal.note] using hevents⟩, hmarked.nodup,
    hmarked.contains_iff, ?_, ?_, ?_⟩
  · show (d :: f.path).IsChain _
    rw [hpath]
    exact List.isChain_cons_cons.2 ⟨hblocked, hpath ▸ h.chain⟩
  · intro q hq
    rcases List.mem_cons.1 hq with rfl | hq
    · have hp : s₀.Reaches root p := h.reaches p (by rw [hpath]; exact List.mem_cons_self)
      exact hp.tail (hev.awaits_of_awaits hs (hblocked.awaits (h.coherent hs)))
    · exact h.reaches q hq
  · have hlast := h.last
    rw [hpath] at hlast
    left
    show (d :: f.path).getLast? = some root
    rw [hpath]
    simpa using hlast

theorem OnTrack.apply (hs : s₀.Coherent) (h : f.OnTrack s₀ j₀ root) {p : Position} {x : Float}
    (hmove : f.move = .apply p x) : (f.apply p x).OnTrack s₀ j₀ root := by
  obtain ⟨path, e, hpath, he, hx⟩ := move_spec hmove
  obtain ⟨as, hev, hevents⟩ := h.evolves
  obtain ⟨a, ha, hjournal⟩ := apply_spec he hx
  have hc := h.coherent hs
  have hp : p ∈ f.path := by rw [hpath]; exact List.mem_cons_self
  have hmarked := h.marked.apply p x
  refine ⟨⟨as ++ [a], hev.tail (h.reaches p hp) ha, ?_⟩, hmarked.nodup, hmarked.contains_iff, ?_,
    ?_, ?_⟩
  · simp [hjournal, Journal.note, Journal.emit, hevents]
  · -- a register that waits for another one of the path is not the one an entry is applied to
    rw [path_apply]
    refine h.chain.imp_of_mem_imp fun {y z} hy _ hz => ?_
    have hyres : f.store.isResolvedAt y = false := by
      rw [hpath] at hy
      rcases List.mem_cons.1 hy with rfl | hy
      · rw [Bool.eq_false_iff, ne_eq, Store.isResolvedAt_iff, he]
        simp
      · exact h.not_isResolvedAt_of_mem hpath hy
    have hsame := ha.register?_of_blockedOn hc hz hyres
    obtain ⟨e', he', hd⟩ := hz
    exact ⟨e', by rw [Store.pendingEntryAt?, hsame]; exact he', hd⟩
  · rw [path_apply]
    exact h.reaches
  · have hlast := h.last
    rw [hpath] at hlast
    left
    rw [path_apply, hpath]
    simpa using hlast

/-! ## The end -/

theorem run_of_finish {f : Forcing} (h : f.move = .finish) :
    f.run = ⟨none, f.store, f.journal⟩ := by
  rw [run]
  split <;> simp_all

theorem run_of_leave {f : Forcing} (h : f.move = .leave) : f.run = f.leave.run := by
  rw [run]
  split <;> simp_all

theorem run_of_enter {f : Forcing} {d : Position} (h : f.move = .enter d) :
    f.run = (f.enter d).run := by
  rw [run]
  split <;> simp_all

theorem run_of_apply {f : Forcing} {p : Position} {x : Float} (h : f.move = .apply p x) :
    f.run = (f.apply p x).run := by
  rw [run]
  split <;> simp_all

theorem run_of_cycle {f : Forcing} {d : Position} (h : f.move = .cycle d) :
    f.run = ⟨some (f.cycleReason d), (f.report d).store, (f.report d).journal⟩ := by
  rw [run]
  split <;> simp_all

/-- What every move keeps holds at the end, which is an empty path or a cycle. -/
theorem exists_last {I : Forcing → Prop} (hleave : ∀ g, I g → g.move = .leave → I g.leave)
    (henter : ∀ g d, I g → g.move = .enter d → I (g.enter d))
    (happly : ∀ g p x, I g → g.move = .apply p x → I (g.apply p x)) (f : Forcing) (hf : I f) :
    ∃ g, I g ∧ f.run = g.run ∧ (g.move = .finish ∨ ∃ d, g.move = .cycle d) := by
  induction f using run.induct with
  | case1 f hmove => exact ⟨f, hf, rfl, .inl hmove⟩
  | case2 f hmove ih =>
    rw [run_of_leave hmove]
    exact ih (hleave f hf hmove)
  | case3 f d hmove ih =>
    rw [run_of_enter hmove]
    exact ih (henter f d hf hmove)
  | case4 f p x hmove ih =>
    rw [run_of_apply hmove]
    exact ih (happly f p x hf hmove)
  | case5 f d hmove => exact ⟨f, hf, rfl, .inr ⟨d, hmove⟩⟩

theorem listeners_run (f : Forcing) : f.run.journal.listeners = f.journal.listeners := by
  obtain ⟨g, hg, hrun, hend⟩ := exists_last
    (I := fun g => g.journal.listeners = f.journal.listeners)
    (fun g hg _ => by rw [← hg, Forcing.leave]; split <;> rfl) (fun _ _ hg _ => hg)
    (fun g p x hg _ => by rw [← hg, Forcing.apply]; split <;> rfl) f rfl
  rw [hrun]
  rcases hend with hmove | ⟨d, hmove⟩
  · rw [run_of_finish hmove]
    exact hg
  · rw [run_of_cycle hmove]
    exact hg

/-- How a forcing ends. -/
theorem OnTrack.run_spec (hs : s₀.Coherent) (h : f.OnTrack s₀ j₀ root) :
    ∃ g : Forcing, g.OnTrack s₀ j₀ root ∧
      ((g.path = [] ∧ f.run = ⟨none, g.store, g.journal⟩) ∨
        ∃ p path d, g.path = p :: path ∧ g.store.BlockedOn p d ∧ d ∈ g.path ∧
          f.run = ⟨some (g.cycleReason d), (g.report d).store, (g.report d).journal⟩) := by
  obtain ⟨g, hg, hrun, hend⟩ := exists_last (fun _ hf => hf.leave) (fun _ _ hf => hf.enter hs)
    (fun _ _ _ hf => hf.apply hs) f h
  rw [hrun]
  refine ⟨g, hg, ?_⟩
  rcases hend with hmove | ⟨d, hmove⟩
  · exact .inl ⟨move_spec hmove, run_of_finish hmove⟩
  · obtain ⟨p, path, hpath, hblocked, hcontains⟩ := move_spec hmove
    exact .inr ⟨p, path, d, hpath, hblocked, (hg.contains_iff d).1 hcontains, run_of_cycle hmove⟩

end LazyRegisters.Forcing
