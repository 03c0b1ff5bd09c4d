import LazyRegisters.Proofs.ByName

/-!
# Forcing does what recursive calls do

A forcing under way is the recursive machine in the middle of its calls: each register of the path
is a call that has not returned. `Mirrors` says that forcing comes to what the innermost of them
returns, and `OnTrack.mirrors` proves it, by induction on the moves to come.
-/

namespace LazyRegisters

open Recursive

/-- A store by name, with the events so far. -/
def Store.memory (s : Store) (j : Journal) : Memory := ⟨s.cell, j.events.toList⟩

/-- The call for a register that is not being forced starts where the cursor stands. -/
theorem Store.Coherent.resolve_eq {s : Store} (hs : s.Coherent) {p : Position} {r : Register}
    (hr : s.register? p = some r) {active : List String} (hactive : r.name ∉ active) (j : Journal) :
    resolve s.names active r.name (s.memory j) =
      scan s.names (active ++ [r.name]) r.name r.cursor (r.pending.map (Entry.named s))
        (s.memory j) := by
  have hname : r.name ∈ s.names := hs.mem_names_iff.2 ⟨p, hs.position?_name hr⟩
  have hcell : (s.memory j).cell r.name = r.cell s := hs.cell_name hr
  rw [resolve_of_notMem_active _ hname hactive, hcell, (hs.register hr).scan_log]

namespace Forcing

/-- The registers being forced, by name, outermost first. -/
def active (s₀ : Store) (f : Forcing) : List String := (f.path.map s₀.nameAt).reverse

/-- What is left of the call for the register `r`, which is the innermost of the path. -/
def call (s₀ : Store) (r : Register) (f : Forcing) : Option Reason × Memory :=
  scan s₀.names (f.active s₀) r.name r.cursor (r.pending.map (Entry.named s₀))
    (f.store.memory f.journal)

/-- Forcing comes to what the call for `p` returns, the calls of `path` being left then: either `p`
is resolved and forcing goes on from there, or forcing fails as the call does. -/
inductive Mirrors (s₀ : Store) (j₀ : Journal) (root : Position) (f : Forcing) (p : Position)
    (path : List Position) : Option Reason × Memory → Prop where
  | returns {g : Forcing} (honTrack : g.OnTrack s₀ j₀ root) (hpath : g.path = path)
    (hrun : g.run = f.run) (hmoves : g.movesLeft < f.movesLeft) (hres : g.store.isResolvedAt p)
    (hkept : ∀ q ∈ path, g.store.register? q = f.store.register? q) :
    Mirrors s₀ j₀ root f p path (none, g.store.memory g.journal)
  | fails {reason : Reason} {s : Store} {j : Journal} (hrun : f.run = ⟨some reason, s, j⟩)
    (hnames : s.names = s₀.names) :
    Mirrors s₀ j₀ root f p path (some reason, s.memory j)

variable {s₀ : Store} {j₀ : Journal} {root p d : Position} {path : List Position} {f g : Forcing}
  {r : Register} {e : Entry Position} {out : Option Reason × Memory}

theorem OnTrack.named_eq (h : f.OnTrack s₀ j₀ root) : Entry.named f.store = Entry.named s₀ := by
  funext e
  rw [Entry.named, Entry.named, Store.named, Store.named, h.nameAt_eq]

theorem OnTrack.name_eq (h : f.OnTrack s₀ j₀ root) (hr : f.store.register? p = some r) :
    r.name = s₀.nameAt p := by
  rw [← h.nameAt_eq, Store.nameAt_of_register? hr]

theorem OnTrack.value_eq (h : f.OnTrack s₀ j₀ root) (hs : s₀.Coherent) (hd : d < s₀.size) :
    ((f.store.memory f.journal).cell (s₀.nameAt d)).value = f.store.valueAt d := by
  obtain ⟨rd, hrd⟩ := Store.exists_register?_of_lt (h.size_eq ▸ hd)
  have hcell := (h.coherent hs).cell_name hrd
  rw [← h.name_eq hrd, Store.valueAt_of_register? hrd]
  exact congrArg Cell.value hcell

theorem Mirrors.of_run_eq (h : g.Mirrors s₀ j₀ root p path out) (hrun : g.run = f.run)
    (hmoves : g.movesLeft ≤ f.movesLeft)
    (hkept : ∀ q ∈ path, g.store.register? q = f.store.register? q) :
    f.Mirrors s₀ j₀ root p path out := by
  cases h with
  | returns honTrack hpath hrun' hmoves' hres hkept' =>
    exact .returns honTrack hpath (hrun'.trans hrun) (Nat.lt_of_lt_of_le hmoves' hmoves) hres
      fun q hq => (hkept' q hq).trans (hkept q hq)
  | fails hrun' hnames => exact .fails (hrun ▸ hrun') hnames

/-! ## Moves and calls -/

theorem memory_apply (hs : f.store.Coherent) (hr : f.store.register? p = some r)
    (he : r.pendingEntry? = some e) (x : Float) :
    (f.apply p x).store.memory (f.apply p x).journal =
      (f.store.memory f.journal).apply r.name r.cursor e.operation x := by
  have hpending := Store.pendingEntryAt?_of_register? hr he
  have hvalue : (f.store.cell r.name).value = r.value := by
    rw [hs.cell_name hr]
    rfl
  have hjournal : (f.apply p x).journal.events.toList = f.journal.events.toList ++
      [.applied ⟨r.name, r.cursor, e.operation, x, e.operation.apply r.value x⟩] := by
    simp [apply, application?, hr, he, Journal.emit, Journal.note]
  unfold Store.memory Memory.apply
  rw [store_apply x hpending, hs.cell_applyPending hr he, hjournal]
  simp only [hvalue]

/-- What is left of the call for `r` once the entry at its cursor has been applied. -/
def rest (s₀ : Store) (r : Register) (f : Forcing) (m : Memory) : Option Reason × Memory :=
  scan s₀.names (f.active s₀) r.name (r.cursor + 1) (r.pending.tail.map (Entry.named s₀)) m

theorem call_of_pendingEntry?_eq_none (hr : r.Coherent) (he : r.pendingEntry? = none) :
    f.call s₀ r = (none, f.store.memory f.journal) := by
  rw [call, hr.isResolved_iff.1 ((Register.isResolved_iff r).2 he), List.map_nil, scan_nil]

theorem map_named_pending (s₀ : Store) (hr : r.Coherent) (he : r.pendingEntry? = some e) :
    (Entry.named s₀ e).applied = false ∧
      r.pending.map (Entry.named s₀) = Entry.named s₀ e :: r.pending.tail.map (Entry.named s₀) := by
  have hfirst : r.pending = e :: r.pending.tail := by
    rw [hr.pendingEntry?_eq] at he
    exact (List.cons_head?_tail he).symm
  have hmem : e ∈ r.pending := by
    rw [hfirst]
    exact List.mem_cons_self
  have happlied : e.applied = false := by simpa using (List.mem_filter.1 hmem).2
  refine ⟨happlied, ?_⟩
  rw [← List.map_cons, ← hfirst]

theorem call_of_number (hr : r.Coherent) (he : r.pendingEntry? = some e) {x : Float}
    (hx : e.operand = .number x) :
    f.call s₀ r =
      f.rest s₀ r ((f.store.memory f.journal).apply r.name r.cursor e.operation x) := by
  obtain ⟨happlied, hpending⟩ := map_named_pending s₀ hr he
  have hx' : (Entry.named s₀ e).operand = .number x := by
    rw [Entry.named, hx]
    rfl
  rw [call, hpending, scan_number happlied hx']
  rfl

theorem call_of_register (hr : r.Coherent) (he : r.pendingEntry? = some e)
    (hd : e.operand = .register d) :
    f.call s₀ r =
      match resolve s₀.names (f.active s₀) (s₀.nameAt d) (f.store.memory f.journal) with
      | (some reason, m) => (some reason, m)
      | (none, m) =>
        f.rest s₀ r (m.apply r.name r.cursor e.operation (m.cell (s₀.nameAt d)).value) := by
  obtain ⟨happlied, hpending⟩ := map_named_pending s₀ hr he
  have hd' : (Entry.named s₀ e).operand = .register (s₀.nameAt d) := by
    rw [Entry.named, hd]
    rfl
  rw [call, hpending, scan_register happlied hd']
  rfl

/-- After an application the call goes on with the next entry. -/
theorem call_apply (hs : f.store.Coherent) (hr : f.store.register? p = some r)
    (he : r.pendingEntry? = some e) (x : Float) :
    (f.apply p x).call s₀ (r.applyPending x) =
      f.rest s₀ r ((f.store.memory f.journal).apply r.name r.cursor e.operation x) := by
  have hcursor : (r.applyPending x).cursor = r.cursor + 1 := by rw [Register.applyPending_eq he]
  rw [call, active, path_apply, Register.name_applyPending, hcursor,
    (hs.register hr).pending_applyPending, memory_apply hs hr he]
  rfl

theorem active_enter (s₀ : Store) (d : Position) (f : Forcing) :
    (f.enter d).active s₀ = f.active s₀ ++ [s₀.nameAt d] := by
  rw [active, active, enter, List.map_cons, List.reverse_cons]

/-- A register that is being forced is found among the active ones, and the cycle is the one that
forcing reports. -/
theorem OnTrack.cycleReason_eq (h : f.OnTrack s₀ j₀ root) (hs : s₀.Coherent)
    (hroot : root < s₀.size) (hd : d ∈ f.path) :
    s₀.nameAt d ∈ f.active s₀ ∧ f.cycleReason d = .cyclic (s₀.nameAt d)
      ((f.active s₀).dropWhile (· != s₀.nameAt d) ++ [s₀.nameAt d]) := by
  refine ⟨List.mem_reverse.2 (List.mem_map.2 ⟨d, hd, rfl⟩), ?_⟩
  obtain ⟨as, bs, hsplit, has⟩ := List.eq_append_cons_of_mem hd
  have hlt (q : Position) (hq : q ∈ f.path) : q < s₀.size := h.lt_size hs hroot hq
  have hbs : ∀ x ∈ (bs.map s₀.nameAt).reverse, (x != s₀.nameAt d) = true := by
    intro x hx
    obtain ⟨q, hq, rfl⟩ := List.mem_map.1 (List.mem_reverse.1 hx)
    have hqmem : q ∈ f.path := by
      rw [hsplit]
      exact List.mem_append_right as (List.mem_cons_of_mem d hq)
    have hne : q ≠ d := by
      have hnodup : (as ++ d :: bs).Nodup := hsplit ▸ h.nodup
      rintro rfl
      exact (List.nodup_cons.1 (List.nodup_append.1 hnodup).2.1).1 hq
    simpa using fun hname => hne (hs.nameAt_inj (hlt q hqmem) (hlt d hd) hname)
  have hactive : f.active s₀ =
      (bs.map s₀.nameAt).reverse ++ s₀.nameAt d :: (as.map s₀.nameAt).reverse := by
    rw [active, hsplit]
    simp
  rw [cycleReason, cycleAt_of_path_eq hsplit has, h.nameAt_eq, hactive,
    List.dropWhile_append_of_pos hbs]
  simp

/-- The call for a register that is not being forced is the one that forcing enters. -/
theorem OnTrack.resolve_eq (h : f.OnTrack s₀ j₀ root) (hs : s₀.Coherent) (hroot : root < s₀.size)
    {rd : Register} (hrd : f.store.register? d = some rd) (hd : d ∉ f.path) :
    resolve s₀.names (f.active s₀) (s₀.nameAt d) (f.store.memory f.journal) =
      (f.enter d).call s₀ rd := by
  have hname := h.name_eq hrd
  have hactive : rd.name ∉ f.active s₀ := by
    intro hmem
    obtain ⟨q, hq, hqd⟩ := List.mem_map.1 (List.mem_reverse.1 hmem)
    have hlt : d < s₀.size := h.size_eq ▸ Store.lt_size_of_register? hrd
    exact hd (hs.nameAt_inj (h.lt_size hs hroot hq) hlt (hqd.trans hname) ▸ hq)
  have hresolve := (h.coherent hs).resolve_eq hrd hactive f.journal
  rw [h.names_eq, h.named_eq] at hresolve
  rw [← hname, hresolve, call, active_enter, hname]
  rfl

/-! ## Forcing comes to what calls return -/

theorem OnTrack.mirrors_of_leave (h : f.OnTrack s₀ j₀ root) (hs : s₀.Coherent)
    (hpath : f.path = p :: path) (hr : f.store.register? p = some r) (he : r.pendingEntry? = none) :
    f.Mirrors s₀ j₀ root p path (f.call s₀ r) := by
  have hres : f.store.isResolvedAt p := by
    rw [Store.isResolvedAt_iff, Store.pendingEntryAt?, hr, Option.bind_some, he]
  have hmove := move_of_isResolvedAt hpath hres
  have hleave : f.leave = { f with path := path, onPath := f.onPath.erase p } := by
    rw [Forcing.leave, hpath]
  have hcall : f.call s₀ r = (none, f.leave.store.memory f.leave.journal) := by
    rw [call_of_pendingEntry?_eq_none ((h.coherent hs).register hr) he, hleave]
  rw [hcall]
  exact .returns (h.leave hmove) (by rw [hleave]) (run_of_leave hmove).symm (movesLeft_leave hmove)
    (by rwa [hleave]) fun q _ => by rw [hleave]

theorem OnTrack.mirrors_of_cycle (h : f.OnTrack s₀ j₀ root) (hs : s₀.Coherent)
    (hroot : root < s₀.size) (hr : r.Coherent) (he : r.pendingEntry? = some e)
    (hop : e.operand = .register d) (hd : d ∈ f.path) (hmove : f.move = .cycle d) :
    f.Mirrors s₀ j₀ root p path (f.call s₀ r) := by
  obtain ⟨hactive, hreason⟩ := h.cycleReason_eq hs hroot hd
  have hmemory : (f.store.memory f.journal).emit (.cycleDetected (s₀.nameAt d)) =
      (f.report d).store.memory (f.report d).journal := by
    simp [Memory.emit, Store.memory, report, Journal.emit, Journal.note, h.nameAt_eq]
  rw [call_of_register hr he hop, resolve_of_mem_active _ hactive, ← hreason, hmemory]
  exact .fails (run_of_cycle hmove) h.names_eq

section Induction

variable {n : Nat} (hs : s₀.Coherent)
  (ih : ∀ {g : Forcing} {q : Position} {path : List Position} {r : Register}, g.movesLeft < n →
    g.OnTrack s₀ j₀ root → g.path = q :: path → g.store.register? q = some r →
    g.Mirrors s₀ j₀ root q path (g.call s₀ r))

include hs ih

theorem OnTrack.mirrors_of_apply (h : f.OnTrack s₀ j₀ root) (hn : f.movesLeft ≤ n)
    (hpath : f.path = p :: path) (hr : f.store.register? p = some r) (he : r.pendingEntry? = some e)
    {x : Float} (hmove : f.move = .apply p x) :
    f.Mirrors s₀ j₀ root p path
      (f.rest s₀ r ((f.store.memory f.journal).apply r.name r.cursor e.operation x)) := by
  have hstore : (f.apply p x).store = f.store.applyPending p x :=
    store_apply x (Store.pendingEntryAt?_of_register? hr he)
  have hr' : (f.apply p x).store.register? p = some (r.applyPending x) := by
    rw [hstore]
    exact Store.register?_modify_self hr _
  have hmoves := movesLeft_apply hmove
  have hnext := ih (Nat.lt_of_lt_of_le hmoves hn) (h.apply hs hmove) (by rw [path_apply, hpath]) hr'
  rw [call_apply (h.coherent hs) hr he] at hnext
  refine hnext.of_run_eq (run_of_apply hmove).symm (Nat.le_of_lt hmoves) fun q hq => ?_
  have hnodup : (p :: path).Nodup := hpath ▸ h.nodup
  have hne : p ≠ q := by
    rintro rfl
    exact (List.nodup_cons.1 hnodup).1 hq
  rw [hstore]
  exact Store.register?_modify_of_ne hne _

theorem OnTrack.mirrors_of_resolved (h : f.OnTrack s₀ j₀ root) (hn : f.movesLeft ≤ n)
    (hpath : f.path = p :: path) (hr : f.store.register? p = some r) (he : r.pendingEntry? = some e)
    (hop : e.operand = .register d) (hd : d ∉ f.path) (hres : f.store.isResolvedAt d) :
    f.Mirrors s₀ j₀ root p path
      (f.rest s₀ r ((f.store.memory f.journal).apply r.name r.cursor e.operation
        ((f.store.memory f.journal).cell (s₀.nameAt d)).value)) := by
  have hblocked : f.store.BlockedOn p d := ⟨e, Store.pendingEntryAt?_of_register? hr he, hop⟩
  have hc := h.coherent hs
  have hlt : d < s₀.size := h.size_eq ▸ hc.lt_of_awaits (hblocked.awaits hc)
  have hmove : f.move = .apply p (f.store.valueAt d) := by
    rw [move_of_blockedOn hpath hblocked, if_neg (by rwa [h.contains_iff]), if_pos hres]
  rw [h.value_eq hs hlt]
  exact h.mirrors_of_apply hs ih hn hpath hr he hmove

/-- If the operand is not resolved, it is first forced, and called for. -/
theorem OnTrack.mirrors_of_enter (h : f.OnTrack s₀ j₀ root) (hn : f.movesLeft ≤ n)
    (hroot : root < s₀.size) (hpath : f.path = p :: path) (hr : f.store.register? p = some r)
    (he : r.pendingEntry? = some e) (hop : e.operand = .register d) (hd : d ∉ f.path)
    (hmove : f.move = .enter d) : f.Mirrors s₀ j₀ root p path (f.call s₀ r) := by
  have hc := h.coherent hs
  have hblocked : f.store.BlockedOn p d := ⟨e, Store.pendingEntryAt?_of_register? hr he, hop⟩
  obtain ⟨rd, hrd⟩ := Store.exists_register?_of_lt (hc.lt_of_awaits (hblocked.awaits hc))
  have hmoves := movesLeft_enter hmove
  have hinner := ih (Nat.lt_of_lt_of_le hmoves hn) (h.enter hs hmove) rfl hrd
  rw [call_of_register (hc.register hr) he hop, h.resolve_eq hs hroot hrd hd]
  generalize (f.enter d).call s₀ rd = out at hinner
  cases hinner with
  | fails hrun hnames => exact .fails (run_of_enter hmove ▸ hrun) hnames
  | @returns g hg hgpath hrun hgmoves hres hkept =>
    have hrest (m : Memory) : f.rest s₀ r m = g.rest s₀ r m := by
      rw [rest, rest, active, active, hgpath]
    have hle := Nat.le_of_lt (Nat.lt_trans hgmoves hmoves)
    have hgr : g.store.register? p = some r :=
      (hkept p (hpath ▸ List.mem_cons_self)).trans hr
    have hgoesOn := hg.mirrors_of_resolved hs ih (Nat.le_trans hle hn) (hgpath.trans hpath) hgr he
      hop (hgpath ▸ hd) hres
    show f.Mirrors s₀ j₀ root p path (f.rest s₀ r _)
    rw [hrest]
    exact hgoesOn.of_run_eq (hrun.trans (run_of_enter hmove).symm) hle fun q hq =>
      hkept q (hpath ▸ List.mem_cons_of_mem p hq)

end Induction

/-- Forcing comes to what the call for the innermost register of the path returns. -/
theorem OnTrack.mirrors (h : f.OnTrack s₀ j₀ root) (hs : s₀.Coherent) (hroot : root < s₀.size)
    (hpath : f.path = p :: path) (hr : f.store.register? p = some r) :
    f.Mirrors s₀ j₀ root p path (f.call s₀ r) := by
  induction hn : f.movesLeft using Nat.strong_induction_on generalizing f p path r with
  | _ n ih =>
  subst hn
  have ih {g : Forcing} {q : Position} {path : List Position} {r : Register}
      (hlt : g.movesLeft < f.movesLeft) (hg : g.OnTrack s₀ j₀ root) (hpath : g.path = q :: path)
      (hr : g.store.register? q = some r) : g.Mirrors s₀ j₀ root q path (g.call s₀ r) :=
    ih _ hlt hg hpath hr rfl
  have hc := h.coherent hs
  have hcr := hc.register hr
  cases he : r.pendingEntry? with
  | none => exact h.mirrors_of_leave hs hpath hr he
  | some e =>
    have hpending := Store.pendingEntryAt?_of_register? hr he
    cases hop : e.operand with
    | number x =>
      rw [call_of_number hcr he hop]
      exact h.mirrors_of_apply hs ih (Nat.le_refl _) hpath hr he
        (move_of_number hpath hpending hop)
    | register d =>
      have hblocked : f.store.BlockedOn p d := ⟨e, hpending, hop⟩
      have hmove := move_of_blockedOn hpath hblocked
      by_cases hd : d ∈ f.path
      · rw [if_pos ((h.contains_iff d).2 hd)] at hmove
        exact h.mirrors_of_cycle hs hroot hcr he hop hd hmove
      · rw [if_neg (by rwa [h.contains_iff])] at hmove
        by_cases hres : f.store.isResolvedAt d
        · obtain ⟨rd, hrd⟩ := Store.exists_register?_of_lt (hc.lt_of_awaits (hblocked.awaits hc))
          have hnone : rd.pendingEntry? = none := by
            rwa [Store.isResolvedAt_iff, Store.pendingEntryAt?, hrd] at hres
          rw [call_of_register hcr he hop, h.resolve_eq hs hroot hrd hd,
            call_of_pendingEntry?_eq_none (hc.register hrd) hnone]
          exact h.mirrors_of_resolved hs ih (Nat.le_refl _) hpath hr he hop hd hres
        · rw [if_neg hres] at hmove
          exact h.mirrors_of_enter hs ih (Nat.le_refl _) hroot hpath hr he hop hd hmove

end Forcing

end LazyRegisters
