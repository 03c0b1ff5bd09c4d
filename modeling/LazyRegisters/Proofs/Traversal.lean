import LazyRegisters.Proofs.ForcingOutcome
import LazyRegisters.Proofs.Lasso

/-!
# The order in which registers are entered

The records of a forcing tell how it walks through the pending graph. No register is put on the
path twice; each but the first is the one that the register put there last, one level further out,
was waiting for at that moment; and a forcing that succeeds has entered exactly the registers that
had something to be applied. What was waited for at a moment is read off the store before the
forcing, after the applications recorded up to then (`Store.after`).

The invariant `Forcing.Traced` adds the registers seen so far to `Forcing.OnTrack`: a register that
was seen is on the path or resolved, and one that was not seen is as it was.
-/

namespace LazyRegisters

/-- The register that was put on the path, and the number of registers on it before. -/
def Record.visit? : Record → Option (String × Nat)
  | resolving register depth => some (register, depth)
  | _ => none

def Record.application? : Record → Option Application
  | applied a => some a
  | _ => none

def Event.application? : Event → Option Application
  | applied a => some a
  | cycleDetected _ => none

/-- The registers put on the path, each with its depth. -/
def visits (records : List Record) : List (String × Nat) := records.filterMap Record.visit?

def applications (records : List Record) : List Application :=
  records.filterMap Record.application?

/-- The register put on the path last at a depth. -/
def latestAt? (depth : Nat) (records : List Record) : Option String :=
  ((visits records).reverse.find? fun visit => visit.2 = depth).map Prod.fst

/-- The store after applications: each of them applies the first pending entry of its register. -/
def Store.after (as : List Application) (s : Store) : Store :=
  as.foldl (fun s a => (s.position? a.register).elim s fun p => s.applyPending p a.operand) s

/-- A register has to be entered: it is the root, or the root leads to it and something is pending
there. -/
def Store.Wanted (s : Store) (root p : Position) : Prop :=
  p = root ∨ s.Reaches root p ∧ s.pendingAt p ≠ []

/-- The root is put on the path first, at depth 0. Any other register comes behind it, one level
below a register that waits for it; that one is the last of its level. -/
def DepthFirst (s : Store) (root : String) (records : List Record) : Prop :=
  ∀ before x depth behind, records = before ++ .resolving x depth :: behind →
    (visits before = [] ∧ x = root ∧ depth = 0) ∨
      (visits before ≠ [] ∧ ∃ d y, depth = d + 1 ∧ latestAt? d before = some y ∧
        (s.after (applications before)).WaitsFor y x)

/-! ## One record more -/

section Concat

variable {records : List Record}

theorem visits_concat_of_none {r : Record} (h : r.visit? = none) :
    visits (records ++ [r]) = visits records := by
  rw [visits, List.filterMap_append, List.filterMap_cons_none h, List.filterMap_nil,
    List.append_nil, visits]

theorem visits_concat_resolving (x : String) (depth : Nat) :
    visits (records ++ [.resolving x depth]) = visits records ++ [(x, depth)] :=
  List.filterMap_append

theorem applications_concat_of_none {r : Record} (h : r.application? = none) :
    applications (records ++ [r]) = applications records := by
  rw [applications, List.filterMap_append, List.filterMap_cons_none h, List.filterMap_nil,
    List.append_nil, applications]

theorem applications_concat_applied (a : Application) :
    applications (records ++ [.applied a]) = applications records ++ [a] :=
  List.filterMap_append

theorem latestAt?_concat_of_none {r : Record} (h : r.visit? = none) (depth : Nat) :
    latestAt? depth (records ++ [r]) = latestAt? depth records := by
  rw [latestAt?, visits_concat_of_none h, latestAt?]

theorem latestAt?_concat_self (x : String) (depth : Nat) :
    latestAt? depth (records ++ [.resolving x depth]) = some x := by
  rw [latestAt?, visits_concat_resolving, List.reverse_concat,
    List.find?_cons_of_pos (by simp), Option.map_some]

theorem latestAt?_concat_of_ne {x : String} {depth depth' : Nat} (h : depth' ≠ depth) :
    latestAt? depth (records ++ [.resolving x depth']) = latestAt? depth records := by
  rw [latestAt?, visits_concat_resolving, List.reverse_concat,
    List.find?_cons_of_neg (by simpa using h), latestAt?]

theorem concat_eq_append_cons {α : Type} {l before behind : List α} {a b : α}
    (h : l ++ [a] = before ++ b :: behind) :
    (before = l ∧ b = a) ∨ ∃ behind', l = before ++ b :: behind' := by
  rcases List.eq_nil_or_concat behind with rfl | ⟨behind', z, rfl⟩
  · obtain ⟨hl, ha⟩ := List.append_inj' h rfl
    exact .inl ⟨hl.symm, (List.cons.inj ha).1.symm⟩
  · rw [List.concat_eq_append, ← List.cons_append, ← List.append_assoc] at h
    exact .inr ⟨behind', (List.append_inj' h rfl).1⟩

variable {s : Store} {root : String}

theorem DepthFirst.concat_of_none (h : DepthFirst s root records) {r : Record}
    (hr : r.visit? = none) : DepthFirst s root (records ++ [r]) := by
  intro before x depth behind hsplit
  rcases concat_eq_append_cons hsplit with ⟨-, rfl⟩ | ⟨behind', hsplit⟩
  · cases hr
  · exact h before x depth behind' hsplit

theorem DepthFirst.concat_resolving (h : DepthFirst s root records) {x y : String} {d : Nat}
    (hne : visits records ≠ []) (hy : latestAt? d records = some y)
    (hx : (s.after (applications records)).WaitsFor y x) :
    DepthFirst s root (records ++ [.resolving x (d + 1)]) := by
  intro before x' depth behind hsplit
  rcases concat_eq_append_cons hsplit with ⟨rfl, heq⟩ | ⟨behind', hsplit⟩
  · obtain ⟨rfl, rfl⟩ := Record.resolving.inj heq
    exact .inr ⟨hne, d, y, rfl, hy, hx⟩
  · exact h before x' depth behind' hsplit

end Concat

theorem Store.after_concat (as : List Application) (a : Application) (s : Store) :
    s.after (as ++ [a]) =
      ((s.after as).position? a.register).elim (s.after as) fun p =>
        (s.after as).applyPending p a.operand :=
  List.foldl_append

theorem Store.Applies.eq_after {s s' : Store} {p : Position} {a : Application}
    (hs : s.Coherent) (h : s.Applies p a s') {s₀ : Store} {as : List Application}
    (has : s = s₀.after as) : s' = s₀.after (as ++ [a]) := by
  obtain ⟨hr, he, hx⟩ := h
  rw [after_concat, ← has, hs.position?_name hr, Option.elim_some]

/-! ## The invariant -/

namespace Forcing

/-- A forcing of the register at `root` is under way, has written `records`, and has entered the
registers in `seen`. -/
structure Traced (s₀ : Store) (j₀ : Journal) (root : Position) (records : List Record)
    (seen : List Position) (f : Forcing) : Prop where
  onTrack : f.OnTrack s₀ j₀ root
  records_eq : f.journal.records.toList = j₀.records.toList ++ records
  events_eq : f.journal.events.toList = j₀.events.toList ++ (applications records).map .applied
  store_eq : f.store = s₀.after (applications records)
  visits_eq : (visits records).map Prod.fst = seen.map s₀.nameAt
  head?_eq : (visits records).head? = some (s₀.nameAt root, 0)
  nodup : seen.Nodup
  mem_of_mem_path : ∀ p ∈ f.path, p ∈ seen
  mem_path_or_resolved : ∀ p ∈ seen, p ∈ f.path ∨ f.store.isResolvedAt p
  register?_eq : ∀ p, p ∉ seen → f.store.register? p = s₀.register? p
  root_mem : root ∈ seen
  wanted : ∀ p ∈ seen, s₀.Wanted root p
  latest : ∀ inner p outer, f.path = inner ++ p :: outer →
    latestAt? outer.length records = some (s₀.nameAt p)
  depthFirst : DepthFirst s₀ (s₀.nameAt root) records

variable {s₀ : Store} {j₀ : Journal} {root : Position} {records : List Record}
  {seen : List Position} {f : Forcing}

theorem Traced.start (s₀ : Store) (j₀ : Journal) (root : Position) :
    (start s₀ j₀ root).Traced s₀ j₀ root [.resolving (s₀.nameAt root) 0] [root] where
  onTrack := .start s₀ j₀ root
  records_eq := by simp [Forcing.start, enter, Journal.note]
  events_eq := by simp [Forcing.start, enter, Journal.note, applications, Record.application?]
  store_eq := rfl
  visits_eq := rfl
  head?_eq := rfl
  nodup := List.nodup_singleton root
  mem_of_mem_path _ hp := hp
  mem_path_or_resolved _ hp := .inl hp
  register?_eq _ _ := rfl
  root_mem := List.mem_singleton_self root
  wanted _ hp := .inl (List.mem_singleton.1 hp)
  latest inner p outer hpath := by
    have hpath : [] ++ [root] = inner ++ p :: outer := hpath
    obtain ⟨hinner, rfl⟩ | ⟨_, hnil⟩ := concat_eq_append_cons hpath
    · subst hinner
      obtain rfl : [] = outer := (List.cons.inj hpath).2
      rfl
    · simp at hnil
  depthFirst before x depth behind hsplit := by
    have hsplit : [] ++ [_] = before ++ Record.resolving x depth :: behind := hsplit
    obtain ⟨rfl, heq⟩ | ⟨_, hnil⟩ := concat_eq_append_cons hsplit
    · obtain ⟨rfl, rfl⟩ := Record.resolving.inj heq
      exact .inl ⟨rfl, rfl, rfl⟩
    · simp at hnil

theorem Traced.lt_size (h : f.Traced s₀ j₀ root records seen) (hs : s₀.Coherent)
    (hroot : root < s₀.size) {p : Position} (hp : p ∈ seen) : p < s₀.size := by
  rcases h.wanted p hp with rfl | ⟨hreach, -⟩
  · exact hroot
  · exact hs.lt_of_reaches hreach hroot

theorem Traced.leave (h : f.Traced s₀ j₀ root records seen) (hmove : f.move = .leave) :
    f.leave.Traced s₀ j₀ root records seen := by
  have honTrack := h.onTrack.leave hmove
  obtain ⟨p, path, hpath, hres⟩ := of_move_leave hmove
  have hmem := h.mem_of_mem_path
  have hseen := h.mem_path_or_resolved
  have hlatest := h.latest
  rw [hpath] at hmem hseen hlatest
  rw [leave_of_path_eq hpath] at honTrack ⊢
  refine ⟨honTrack, h.records_eq, h.events_eq, h.store_eq, h.visits_eq, h.head?_eq, h.nodup,
    fun q hq => hmem q (List.mem_cons_of_mem p hq), fun q hq => ?_, h.register?_eq,
    h.root_mem, h.wanted, fun inner q outer hsplit => ?_, h.depthFirst⟩
  · rcases hseen q hq with hq | hq
    · rcases List.mem_cons.1 hq with rfl | hq
      · exact .inr hres
      · exact .inl hq
    · exact .inr hq
  · have hsplit : path = inner ++ q :: outer := hsplit
    exact hlatest (p :: inner) q outer (congrArg (p :: ·) hsplit)

/-- A register that was seen is on the path or resolved, and one that is entered is neither. -/
theorem Traced.notMem_of_enter (h : f.Traced s₀ j₀ root records seen) {d : Position}
    (hmove : f.move = .enter d) : d ∉ seen := by
  intro hd
  obtain ⟨hres, honPath⟩ := of_move_enter hmove
  rcases h.mem_path_or_resolved d hd with hd | hd
  · rw [(h.onTrack.contains_iff d).2 hd] at honPath
    cases honPath
  · rw [hd] at hres
    cases hres

theorem Traced.wanted_of_enter (hs : s₀.Coherent) (h : f.Traced s₀ j₀ root records seen)
    {d : Position} (hmove : f.move = .enter d) : s₀.Wanted root d := by
  have hres := (of_move_enter hmove).1
  refine .inr ⟨(h.onTrack.enter hs hmove).reaches d List.mem_cons_self, fun hnil => ?_⟩
  rw [← Store.pendingAt_congr (h.register?_eq d (h.notMem_of_enter hmove)),
    ← (h.onTrack.coherent hs).isResolvedAt_iff, hres] at hnil
  cases hnil

/-- The innermost register waits for the one that is entered. -/
theorem Traced.waitsFor_of_enter (hs : s₀.Coherent) (hroot : root < s₀.size)
    (h : f.Traced s₀ j₀ root records seen) {d : Position} (hmove : f.move = .enter d) :
    ∃ p path, f.path = p :: path ∧
      (s₀.after (applications records)).WaitsFor (s₀.nameAt p) (s₀.nameAt d) := by
  obtain ⟨p, path, hpath, hblocked, -⟩ := move_spec hmove
  refine ⟨p, path, hpath, ?_⟩
  have hp : p ∈ f.path := by rw [hpath]; exact List.mem_cons_self
  have hc := h.onTrack.coherent hs
  have hlt := h.onTrack.lt_size hs hroot hp
  have hltd := (h.onTrack.enter hs hmove).lt_size hs hroot (p := d) List.mem_cons_self
  rw [← h.onTrack.size_eq] at hlt hltd
  rw [← h.store_eq, ← h.onTrack.nameAt_eq]
  exact hblocked.waitsFor (hc.position?_nameAt hlt) (hc.position?_nameAt hltd)

theorem Traced.latest_enter (h : f.Traced s₀ j₀ root records seen) {d : Position}
    {inner outer : List Position} {p : Position} (hsplit : d :: f.path = inner ++ p :: outer) :
    latestAt? outer.length (records ++ [.resolving (s₀.nameAt d) f.path.length]) =
      some (s₀.nameAt p) := by
  cases inner with
  | nil =>
    obtain ⟨rfl, rfl⟩ := List.cons.inj hsplit
    exact latestAt?_concat_self _ _
  | cons d' inner =>
    have hsplit : f.path = inner ++ p :: outer := (List.cons.inj hsplit).2
    rw [latestAt?_concat_of_ne, h.latest inner p outer hsplit]
    rw [hsplit, List.length_append, List.length_cons]
    omega

theorem Traced.depthFirst_enter (hs : s₀.Coherent) (hroot : root < s₀.size)
    (h : f.Traced s₀ j₀ root records seen) {d : Position} (hmove : f.move = .enter d) :
    DepthFirst s₀ (s₀.nameAt root)
      (records ++ [.resolving (s₀.nameAt d) f.path.length]) := by
  obtain ⟨p, path, hpath, hwait⟩ := h.waitsFor_of_enter hs hroot hmove
  have hlatest := h.latest [] p path hpath
  rw [hpath, List.length_cons]
  refine h.depthFirst.concat_resolving (fun hnil => ?_) hlatest hwait
  have hhead := h.head?_eq
  rw [hnil] at hhead
  cases hhead

theorem Traced.enter (hs : s₀.Coherent) (hroot : root < s₀.size)
    (h : f.Traced s₀ j₀ root records seen) {d : Position} (hmove : f.move = .enter d) :
    (f.enter d).Traced s₀ j₀ root (records ++ [.resolving (s₀.nameAt d) f.path.length])
      (seen ++ [d]) := by
  refine
    { onTrack := h.onTrack.enter hs hmove
      records_eq := ?_
      events_eq := ?_
      store_eq := ?_
      visits_eq := ?_
      head?_eq := ?_
      nodup := ?_
      mem_of_mem_path := ?_
      mem_path_or_resolved := ?_
      register?_eq := fun q hq => h.register?_eq q fun hq' => hq (List.mem_append_left _ hq')
      root_mem := List.mem_append_left _ h.root_mem
      wanted := ?_
      latest := fun _ _ _ => h.latest_enter
      depthFirst := h.depthFirst_enter hs hroot hmove }
  · have hname : f.store.nameAt d = s₀.nameAt d := by rw [h.onTrack.nameAt_eq]
    simp [Forcing.enter, Journal.note, h.records_eq, hname]
  · rw [applications_concat_of_none rfl]
    exact h.events_eq
  · rw [applications_concat_of_none rfl]
    exact h.store_eq
  · rw [visits_concat_resolving, List.map_append, h.visits_eq, List.map_append]
    rfl
  · rw [visits_concat_resolving, List.head?_append, h.head?_eq, Option.some_or]
  · rw [List.nodup_append_comm]
    exact List.nodup_cons.2 ⟨h.notMem_of_enter hmove, h.nodup⟩
  · intro q hq
    rw [List.mem_append, List.mem_singleton]
    rcases List.mem_cons.1 hq with rfl | hq
    · exact .inr rfl
    · exact .inl (h.mem_of_mem_path q hq)
  · intro q hq
    rcases List.mem_append.1 hq with hq | hq
    · exact (h.mem_path_or_resolved q hq).imp_left (List.mem_cons_of_mem d)
    · exact .inl (List.mem_singleton.1 hq ▸ List.mem_cons_self)
  · exact List.forall_mem_append.2
      ⟨h.wanted, List.forall_mem_singleton.2 (h.wanted_of_enter hs hmove)⟩

theorem Traced.apply (hs : s₀.Coherent) (h : f.Traced s₀ j₀ root records seen) {p : Position}
    {x : Float} (hmove : f.move = .apply p x) :
    ∃ a, (f.apply p x).Traced s₀ j₀ root (records ++ [.applied a]) seen := by
  have honTrack := h.onTrack.apply hs hmove
  obtain ⟨path, e, hpath, he, hx⟩ := move_spec hmove
  obtain ⟨a, ha, hjournal⟩ := apply_spec he hx
  have hc := h.onTrack.coherent hs
  have hp : p ∈ seen := h.mem_of_mem_path p (by rw [hpath]; exact List.mem_cons_self)
  refine ⟨a,
    { onTrack := honTrack
      records_eq := ?_
      events_eq := ?_
      store_eq := ?_
      visits_eq := ?_
      head?_eq := ?_
      nodup := h.nodup
      mem_of_mem_path := ?_
      mem_path_or_resolved := ?_
      register?_eq := ?_
      root_mem := h.root_mem
      wanted := h.wanted
      latest := ?_
      depthFirst := h.depthFirst.concat_of_none rfl }⟩
  · simp [hjournal, Journal.note, Journal.emit, h.records_eq]
  · rw [applications_concat_applied]
    simp [hjournal, Journal.note, Journal.emit, h.events_eq]
  · rw [applications_concat_applied]
    exact ha.eq_after hc h.store_eq
  · rw [visits_concat_of_none rfl]
    exact h.visits_eq
  · rw [visits_concat_of_none rfl]
    exact h.head?_eq
  · rw [path_apply]
    exact h.mem_of_mem_path
  · intro q hq
    rw [path_apply]
    refine (h.mem_path_or_resolved q hq).imp_right fun hres => ?_
    have hsame := ha.register?_of_pendingAt_eq_nil hc ((hc.isResolvedAt_iff q).1 hres)
    rwa [Store.isResolvedAt, hsame]
  · intro q hq
    obtain ⟨-, -, -, -, -, hother⟩ := ha.spec hc
    rw [hother q fun hqp => hq (hqp ▸ hp), h.register?_eq q hq]
  · intro inner q outer hsplit
    rw [path_apply] at hsplit
    rw [latestAt?_concat_of_none rfl]
    exact h.latest inner q outer hsplit

/-- A forcing ends with an empty path or with a cycle, and has been traced up to there. -/
theorem exists_traced (hs : s₀.Coherent) (j₀ : Journal) (hroot : root < s₀.size) :
    ∃ (g : Forcing) (records : List Record) (seen : List Position),
      g.Traced s₀ j₀ root records seen ∧
      ((g.path = [] ∧ (start s₀ j₀ root).run = ⟨none, g.store, g.journal⟩) ∨
        ∃ d, (start s₀ j₀ root).run =
          ⟨some (g.cycleReason d), (g.report d).store, (g.report d).journal⟩) := by
  obtain ⟨g, ⟨records, seen, hg⟩, hrun, hend⟩ := exists_last
    (I := fun g => ∃ records seen, g.Traced s₀ j₀ root records seen)
    (fun _ ⟨records, seen, h⟩ hmove => ⟨records, seen, h.leave hmove⟩)
    (fun _ _ ⟨_, _, h⟩ hmove => ⟨_, _, h.enter hs hroot hmove⟩)
    (fun _ _ _ ⟨_, seen, h⟩ hmove => (h.apply hs hmove).elim fun _ h' => ⟨_, seen, h'⟩)
    (start s₀ j₀ root) ⟨_, _, .start s₀ j₀ root⟩
  refine ⟨g, records, seen, hg, ?_⟩
  rw [hrun]
  rcases hend with hmove | ⟨d, hmove⟩
  · exact .inl ⟨move_spec hmove, run_of_finish hmove⟩
  · exact .inr ⟨d, run_of_cycle hmove⟩

/-! ## What has been entered -/

theorem Traced.nodup_names (h : f.Traced s₀ j₀ root records seen) (hs : s₀.Coherent)
    (hroot : root < s₀.size) : ((visits records).map Prod.fst).Nodup := by
  rw [h.visits_eq]
  exact h.nodup.map_on fun p hp q hq hname =>
    hs.nameAt_inj (h.lt_size hs hroot hp) (h.lt_size hs hroot hq) hname

/-- Once the path is empty, all that has to be entered has been. -/
theorem Traced.mem_seen_iff (h : f.Traced s₀ j₀ root records seen) (hs : s₀.Coherent)
    (hpath : f.path = []) {p : Position} : p ∈ seen ↔ s₀.Wanted root p := by
  refine ⟨h.wanted p, fun hp => ?_⟩
  rcases hp with rfl | ⟨hreach, hne⟩
  · exact h.root_mem
  · by_contra hnew
    -- what was not seen is as it was, but everything is resolved
    have hnil := h.onTrack.pendingAt_of_reaches hs hpath hreach
    rw [Store.pendingAt_congr (h.register?_eq p hnew)] at hnil
    exact hne hnil

theorem Traced.exists_mem_visits_iff (h : f.Traced s₀ j₀ root records seen) (hs : s₀.Coherent)
    (hpath : f.path = []) (x : String) :
    (∃ depth, (x, depth) ∈ visits records) ↔ ∃ p, s₀.Wanted root p ∧ s₀.nameAt p = x := by
  have hnames : (∃ depth, (x, depth) ∈ visits records) ↔ x ∈ (visits records).map Prod.fst := by
    simp
  rw [hnames, h.visits_eq, List.mem_map]
  exact exists_congr fun p => and_congr_left' (h.mem_seen_iff hs hpath)

end Forcing

namespace Calculator

variable {c : Calculator} {name : String} {root : Position}

/-- **A forcing enters registers depth-first, each of them once.** The records it writes are told
apart from those before, and so are its events. -/
theorem valueOf_depthFirst (hc : c.Reachable) (hroot : c.store.position? name = some root) :
    ∃ records events,
      (c.valueOf name).2.journal.records.toList = c.journal.records.toList ++ records ∧
      (c.valueOf name).2.journal.events.toList = c.journal.events.toList ++ events ∧
      (c.valueOf name).2.store = c.store.after (applications records) ∧
      ((visits records).map Prod.fst).Nodup ∧
      (visits records).head? = some (name, 0) ∧
      DepthFirst c.store name records ∧
      ((∃ v, (c.valueOf name).1 = .ok v) → ∀ x, (∃ depth, (x, depth) ∈ visits records) ↔
        ∃ p, c.store.Wanted root p ∧ c.store.nameAt p = x) ∧
      applications records = events.filterMap Event.application? := by
  have hs := hc.coherent
  have hlt := hs.lt_size_of_position? hroot
  obtain ⟨g, records, seen, hg, hend⟩ := Forcing.exists_traced hs c.journal hlt
  have hnodup := hg.nodup_names hs hlt
  have hhead := hg.head?_eq
  have hfirst := hg.depthFirst
  have happlied : ((applications records).map Event.applied).filterMap Event.application? =
      applications records := by
    rw [List.filterMap_map]
    exact List.filterMap_some
  rw [hs.nameAt_eq hroot] at hhead hfirst
  rcases hend with ⟨hpath, hrun⟩ | ⟨d, hrun⟩
  · refine ⟨records ++ [.resolved name (g.store.valueAt root)],
      (applications records).map .applied, ?_⟩
    rw [visits_concat_of_none rfl, applications_concat_of_none rfl, happlied]
    simp only [valueOf, hroot, hrun]
    refine ⟨?_, hg.events_eq, hg.store_eq, hnodup, hhead, hfirst.concat_of_none rfl,
      fun _ => hg.exists_mem_visits_iff hs hpath, trivial⟩
    simp [Journal.note, hg.records_eq]
  · refine ⟨records ++ [.cycle (g.store.nameAt d) ((g.cycleAt d).map g.store.nameAt)],
      (applications records).map .applied ++ [.cycleDetected (g.store.nameAt d)], ?_⟩
    rw [visits_concat_of_none rfl, applications_concat_of_none rfl, List.filterMap_append, happlied]
    simp only [valueOf, hroot, hrun]
    refine ⟨?_, ?_, hg.store_eq, hnodup, hhead, hfirst.concat_of_none rfl, ?_, ?_⟩
    · simp [Forcing.report, Journal.note, Journal.emit, hg.records_eq]
    · simp [Forcing.report, Journal.note, Journal.emit, hg.events_eq]
    · rintro ⟨v, hv⟩
      cases hv
    · simp [Event.application?]

/-- A register that three entries refer to, and one that has been forced before. -/
theorem valueOf_depthFirst_shared :
    let c := fresh.performAll [.run ["e add 2", "print e", "a add e", "b add a", "c add a",
      "d add b", "d add c", "d multiply a"]]
    let v := c.valueOf "d"
    c.store.position? "d" = some 4 ∧ v.1 = .ok 8 ∧
      visits (v.2.journal.records.toList.drop c.journal.records.size) =
        [("d", 0), ("b", 1), ("a", 2), ("c", 1)] ∧
      ∃ records, v.2.journal.records.toList = c.journal.records.toList ++ records ∧
        ((visits records).map Prod.fst).Nodup ∧ DepthFirst c.store "d" records ∧
        ((∃ depth, ("a", depth) ∈ visits records) ↔
          ∃ p, c.store.Wanted 4 p ∧ c.store.nameAt p = "a") := by
  intro c v
  have hroot : c.store.position? "d" = some 4 := by decide +kernel
  have hvalue : v.1 = .ok 8 := by decide +kernel
  obtain ⟨records, -, hrecords, -, -, hnodup, -, hfirst, hall, -⟩ :=
    valueOf_depthFirst ⟨_, rfl⟩ hroot
  exact ⟨hroot, hvalue, by decide +kernel, records, hrecords, hnodup, hfirst,
    hall ⟨8, hvalue⟩ "a"⟩

end Calculator

end LazyRegisters
