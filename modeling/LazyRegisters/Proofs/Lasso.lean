import LazyRegisters.Proofs.Calls
import Mathlib.Data.List.Rotate

/-!
# Lassos

A forcing that fails leaves a *lasso* behind: from the root on, the first pending entry of each
register refers to the next one, and that of the last refers back to one of them. Conversely a
forcing that starts on a lasso runs along it, applies nothing, and reports the loop. The loop of a
lasso can be entered at any of its registers, which turns the reported cycle round.

Read by name, the loop is the reported cycle and the stem leads to it (`valueOf_reports_cycle`).
-/

namespace LazyRegisters

/-- The cycle that is reported from another of its registers on. -/
def rotation (name : String) (cycle : List String) : List String :=
  cycle.dropLast.rotate (cycle.idxOf name) ++ [name]

namespace Store

/-- Each register of the stem and of the loop is blocked on the next, and the last one on `d`, where
the loop begins. -/
structure Lasso (s : Store) (stem : List Position) (d : Position) (loop : List Position) :
    Prop where
  chain : (stem ++ d :: loop ++ [d]).IsChain s.BlockedOn
  nodup : (stem ++ d :: loop).Nodup

/-- The names along the loop, from `d` to `d`. -/
def loopNames (s : Store) (d : Position) (loop : List Position) : List String :=
  (d :: loop ++ [d]).map s.nameAt

variable {s : Store} {stem loop : List Position} {d : Position}

theorem exists_rel_of_mem_init {R : Position → Position → Prop} {l : List Position} {x z : Position}
    (h : (l ++ [z]).IsChain R) (hx : x ∈ l) : ∃ y ∈ l ++ [z], R x y := by
  obtain ⟨as, bs, rfl⟩ := List.append_of_mem hx
  rw [List.append_assoc, List.cons_append] at h ⊢
  have hne : bs ++ [z] ≠ [] := List.append_ne_nil_of_right_ne_nil bs (List.cons_ne_nil z [])
  obtain ⟨y, bs', hy⟩ := List.exists_cons_of_ne_nil hne
  rw [hy] at h ⊢
  exact ⟨y, by simp, (List.isChain_cons_cons.1 h.right_of_append).1⟩

theorem mem_lasso_of_mem_concat {x : Position} (hx : x ∈ stem ++ d :: loop ++ [d]) :
    x ∈ stem ++ d :: loop := by
  rcases List.mem_append.1 hx with hx | hx
  · exact hx
  · rw [List.mem_singleton.1 hx]
    exact List.mem_append_right stem List.mem_cons_self

theorem Lasso.exists_blockedOn (h : s.Lasso stem d loop) {x : Position}
    (hx : x ∈ stem ++ d :: loop) : ∃ y ∈ stem ++ d :: loop, s.BlockedOn x y := by
  obtain ⟨y, hy, hxy⟩ := exists_rel_of_mem_init h.chain hx
  exact ⟨y, mem_lasso_of_mem_concat hy, hxy⟩

theorem Lasso.not_isResolvedAt (h : s.Lasso stem d loop) {x : Position}
    (hx : x ∈ stem ++ d :: loop) : s.isResolvedAt x = false := by
  obtain ⟨y, -, hxy⟩ := h.exists_blockedOn hx
  exact hxy.not_isResolvedAt

theorem Lasso.exists_register? (h : s.Lasso stem d loop) {x : Position}
    (hx : x ∈ stem ++ d :: loop) : ∃ r, s.register? x = some r := by
  obtain ⟨y, -, e, he, -⟩ := h.exists_blockedOn hx
  obtain ⟨r, hr, -⟩ := Option.bind_eq_some_iff.1 he
  exact ⟨r, hr⟩

theorem Lasso.position?_nameAt (h : s.Lasso stem d loop) (hs : s.Coherent) {x : Position}
    (hx : x ∈ stem ++ d :: loop) : s.position? (s.nameAt x) = some x := by
  obtain ⟨r, hr⟩ := h.exists_register? hx
  exact hs.position?_nameAt (lt_size_of_register? hr)

/-! ## Names along a lasso -/

/-- The first pending entry of the register named `x` refers to the one named `y`. -/
def WaitsFor (s : Store) (x y : String) : Prop :=
  ∃ p d, s.position? x = some p ∧ s.position? y = some d ∧ s.BlockedOn p d

theorem BlockedOn.waitsFor {x y : Position} {a b : String} (h : s.BlockedOn x y)
    (hx : s.position? a = some x) (hy : s.position? b = some y) : s.WaitsFor a b :=
  ⟨x, y, hx, hy, h⟩

/-- Each register waits for the next one by name. -/
theorem Lasso.isChain_names (h : s.Lasso stem d loop) (hs : s.Coherent) :
    ((stem ++ d :: loop ++ [d]).map s.nameAt).IsChain s.WaitsFor := by
  refine (List.isChain_map s.nameAt).2 (h.chain.imp_of_mem_imp fun x y hx hy hxy => ?_)
  exact hxy.waitsFor (h.position?_nameAt hs (mem_lasso_of_mem_concat hx))
    (h.position?_nameAt hs (mem_lasso_of_mem_concat hy))

theorem Lasso.waitsFor_nameAt (h : s.Lasso stem d loop) (hs : s.Coherent) {root : Position}
    (hroot : (stem ++ d :: loop).head? = some root) :
    Relation.ReflTransGen s.WaitsFor (s.nameAt root) (s.nameAt d) := by
  have hchain := h.isChain_names hs
  have hsplit : stem ++ d :: loop ++ [d] = stem ++ [d] ++ (loop ++ [d]) := by simp
  rw [hsplit, List.map_append] at hchain
  have hne : (stem ++ [d]).map s.nameAt ≠ [] := by simp
  have hpath := List.relationReflTransGen_of_exists_isChain _ hchain.left_of_append hne
  have hfirst : (stem ++ [d]).head? = some root := by
    rw [← hroot]
    cases stem <;> rfl
  have hhead : ((stem ++ [d]).map s.nameAt).head hne = s.nameAt root := by
    rw [← Option.some_inj, ← List.head?_eq_some_head hne, List.head?_map, hfirst, Option.map_some]
  rw [hhead] at hpath
  simpa using hpath

theorem Lasso.nodup_names (h : s.Lasso stem d loop) (hs : s.Coherent) :
    ((stem ++ d :: loop).map s.nameAt).Nodup := by
  refine h.nodup.map_on fun x hx y hy hxy => ?_
  have hpos := h.position?_nameAt hs hx
  rw [hxy, h.position?_nameAt hs hy] at hpos
  exact (Option.some.inj hpos).symm

/-! ## Turning the loop round -/

/-- The loop of a lasso is a lasso from each of its registers on. -/
theorem Lasso.rotate (h : s.Lasso stem d loop) {as bs : List Position} {x : Position}
    (hsplit : d :: loop = as ++ x :: bs) : s.Lasso [] x (bs ++ as) := by
  have hchain : (d :: loop ++ [d]).IsChain s.BlockedOn := by
    have hc := h.chain
    rw [List.append_assoc] at hc
    exact hc.right_of_append
  have hnodup : (as ++ x :: bs).Nodup := hsplit ▸ h.nodup.of_append_right
  constructor
  · rw [hsplit] at hchain
    cases as with
    | nil =>
      obtain ⟨rfl, rfl⟩ := List.cons.inj hsplit
      simpa using hchain
    | cons a as =>
      obtain rfl : d = a := (List.cons.inj hsplit).1
      -- once round: from `x` to the beginning of the loop, and from there to `x`
      have hfrom : (x :: bs ++ [d]).IsChain s.BlockedOn := by
        rw [List.append_assoc] at hchain
        exact hchain.right_of_append
      have hto : ([d] ++ (as ++ [x])).IsChain s.BlockedOn :=
        hchain.infix ⟨[], bs ++ [d], by simp⟩
      simpa using hfrom.append_overlap hto (List.cons_ne_nil d [])
  · have hperm : (as ++ x :: bs).Perm ([] ++ x :: (bs ++ as)) := List.perm_append_comm
    exact hperm.nodup_iff.1 hnodup

theorem Lasso.loopNames_rotate (hs : s.Coherent) (h : s.Lasso stem d loop) {as bs : List Position}
    {x : Position} (hsplit : d :: loop = as ++ x :: bs) :
    s.loopNames x (bs ++ as) = rotation (s.nameAt x) (s.loopNames d loop) := by
  have hinit : (s.loopNames d loop).dropLast = as.map s.nameAt ++ (x :: bs).map s.nameAt := by
    rw [loopNames, List.map_append, List.map_singleton, List.dropLast_concat, hsplit,
      List.map_append]
  have hnodup : (as ++ x :: bs).Nodup := hsplit ▸ h.nodup.of_append_right
  have hlt (z : Position) (hz : z ∈ as ++ x :: bs) : z < s.size := by
    obtain ⟨r, hr⟩ := h.exists_register? (List.mem_append_right stem (hsplit ▸ hz))
    exact lt_size_of_register? hr
  have hnew : s.nameAt x ∉ as.map s.nameAt := by
    intro hmem
    obtain ⟨y, hy, hname⟩ := List.mem_map.1 hmem
    obtain rfl := hs.nameAt_inj (hlt y (List.mem_append_left _ hy)) (hlt x (by simp)) hname
    exact (List.nodup_append.1 hnodup).2.2 y hy y List.mem_cons_self rfl
  have hindex : (s.loopNames d loop).idxOf (s.nameAt x) = (as.map s.nameAt).length := by
    have hnames : s.loopNames d loop =
        as.map s.nameAt ++ s.nameAt x :: (bs ++ [d]).map s.nameAt := by
      rw [loopNames, hsplit]
      simp
    rw [hnames, List.idxOf_append_of_notMem hnew, List.idxOf_cons_self, Nat.add_zero]
  rw [rotation, hinit, hindex, List.rotate_append_length_eq, loopNames]
  simp

end Store

/-! ## Forcing and lassos -/

namespace Forcing

variable {s₀ : Store} {j₀ : Journal} {root d : Position} {f : Forcing}

/-- A forcing that meets a cycle stands at the end of a lasso. -/
theorem OnTrack.exists_lasso (h : f.OnTrack s₀ j₀ root) {p : Position} {path : List Position}
    (hpath : f.path = p :: path) (hblocked : f.store.BlockedOn p d) (hd : d ∈ f.path) :
    ∃ stem loop, f.store.Lasso stem d loop ∧ (stem ++ d :: loop).head? = some root ∧
      f.cycleAt d = d :: loop ++ [d] := by
  obtain ⟨as, bs, hsplit, has⟩ := List.eq_append_cons_of_mem hd
  have hreverse : f.path.reverse = bs.reverse ++ d :: as.reverse := by
    rw [hsplit]
    simp
  refine ⟨bs.reverse, as.reverse, ⟨?_, ?_⟩, ?_, ?_⟩
  · have hchain : (d :: f.path).IsChain fun y x => f.store.BlockedOn x y := by
      rw [hpath]
      exact List.isChain_cons_cons.2 ⟨hblocked, hpath ▸ h.chain⟩
    rw [← hreverse, ← List.reverse_cons]
    exact List.isChain_reverse.2 hchain
  · rw [← hreverse]
    exact List.nodup_reverse.2 h.nodup
  · rw [← hreverse, List.head?_reverse]
    refine h.last.resolve_right fun hnil => ?_
    rw [hpath] at hnil
    cases hnil.1
  · exact cycleAt_of_path_eq hsplit has

/-- A forcing has come some way along a lasso; `rest` is still to be entered. -/
structure Along (stem : List Position) (d : Position) (loop rest : List Position) (f : Forcing) :
    Prop where
  lasso : f.store.Lasso stem d loop
  contains_iff : ∀ p, f.onPath.contains p ↔ p ∈ f.path
  path_ne_nil : f.path ≠ []
  path_eq : f.path.reverse ++ rest = stem ++ d :: loop

variable {stem loop rest : List Position} {x : Position}

theorem Along.exists_blockedOn (h : f.Along stem d loop rest) {ys : List Position}
    (hnext : rest ++ [d] = x :: ys) : ∃ p path, f.path = p :: path ∧ f.store.BlockedOn p x := by
  obtain ⟨p, path, hp⟩ := List.exists_cons_of_ne_nil h.path_ne_nil
  have hsplit : stem ++ d :: loop ++ [d] = path.reverse ++ p :: x :: ys := by
    rw [← h.path_eq, List.append_assoc, hnext, hp]
    simp
  exact ⟨p, path, hp, List.isChain_iff_forall_rel_of_append_cons_cons.1 h.lasso.chain hsplit⟩

theorem Along.move_of_nil (h : f.Along stem d loop []) : f.move = .cycle d := by
  obtain ⟨p, path, hp, hblocked⟩ := h.exists_blockedOn (List.nil_append [d])
  have hd : d ∈ f.path := by
    rw [← List.mem_reverse, ← List.append_nil f.path.reverse, h.path_eq]
    simp
  rw [move_of_blockedOn hp hblocked, if_pos ((h.contains_iff d).2 hd)]

theorem Along.cycleAt_eq (h : f.Along stem d loop []) : f.cycleAt d = d :: loop ++ [d] := by
  have hsplit : f.path = loop.reverse ++ d :: stem.reverse := by
    rw [← List.reverse_reverse f.path, ← List.append_nil f.path.reverse, h.path_eq]
    simp
  have hloop : d ∉ loop.reverse := by
    rw [List.mem_reverse]
    exact (List.nodup_cons.1 h.lasso.nodup.of_append_right).1
  rw [cycleAt_of_path_eq hsplit hloop, List.reverse_reverse]

theorem Along.move_of_cons (h : f.Along stem d loop (x :: rest)) : f.move = .enter x := by
  obtain ⟨p, path, hp, hblocked⟩ := h.exists_blockedOn List.cons_append
  have hnodup := h.lasso.nodup
  rw [← h.path_eq] at hnodup
  have hx : f.onPath.contains x = false := by
    rw [Bool.eq_false_iff, ne_eq, h.contains_iff]
    intro hxp
    exact (List.nodup_append.1 hnodup).2.2 x (List.mem_reverse.2 hxp) x List.mem_cons_self rfl
  have hmem : x ∈ stem ++ d :: loop := by
    rw [← h.path_eq]
    simp
  rw [move_of_blockedOn hp hblocked, hx, h.lasso.not_isResolvedAt hmem]
  rfl

theorem Along.enter (h : f.Along stem d loop (x :: rest)) :
    (f.enter x).Along stem d loop rest where
  lasso := h.lasso
  contains_iff p := by
    show (f.onPath.insert x).contains p ↔ p ∈ x :: f.path
    rw [contains_insert_iff, h.contains_iff, List.mem_cons]
  path_ne_nil := List.cons_ne_nil x f.path
  path_eq := by
    rw [← h.path_eq]
    simp [Forcing.enter]

/-- A forcing that has come some way along a lasso goes on to its end. -/
theorem Along.run (h : f.Along stem d loop rest) :
    ∃ j, f.run = ⟨some (.cyclic (f.store.nameAt d) (f.store.loopNames d loop)), f.store, j⟩ ∧
      j.events = f.journal.events.push (.cycleDetected (f.store.nameAt d)) := by
  induction rest generalizing f with
  | nil =>
    rw [run_of_cycle h.move_of_nil, cycleReason, h.cycleAt_eq]
    exact ⟨(f.report d).journal, rfl, rfl⟩
  | cons x rest ih =>
    rw [run_of_enter h.move_of_cons]
    exact ih h.enter

end Forcing

namespace Calculator

variable {c : Calculator} {name : String} {root : Position}

/-- A forcing that fails leaves a lasso that starts at its register, and reports the loop. -/
theorem exists_lasso_of_valueOf (hs : c.store.Coherent) {register : String} {cycle : List String}
    (h : (c.valueOf name).1 = .error (.cyclic register cycle)) :
    ∃ root stem d loop, (c.valueOf name).2.store.position? name = some root ∧
      (c.valueOf name).2.store.Lasso stem d loop ∧ (stem ++ d :: loop).head? = some root ∧
      register = (c.valueOf name).2.store.nameAt d ∧
      cycle = (c.valueOf name).2.store.loopNames d loop := by
  cases hroot : c.store.position? name with
  | none =>
    rw [valueOf_of_undeclared hroot] at h
    cases h
  | some root =>
    obtain ⟨g, hg, ⟨-, hvalue⟩ | ⟨p, path, d, hpath, hblocked, hd, hvalue⟩⟩ := valueOf_spec hs hroot
    · rw [hvalue] at h
      cases h
    · obtain ⟨stem, loop, hlasso, hhead, hcycle⟩ := hg.exists_lasso hpath hblocked hd
      obtain ⟨as, hev, -⟩ := hg.evolves
      rw [hvalue] at h ⊢
      obtain ⟨rfl, rfl⟩ := Reason.cyclic.inj (Except.error.inj h)
      refine ⟨root, stem, d, loop, ?_, hlasso, hhead, rfl, ?_⟩
      · rw [hev.position?_eq, hroot]
      · rw [hcycle, Store.loopNames]

/-- A forcing that starts on a lasso applies nothing and reports the loop. -/
theorem valueOf_of_lasso {stem loop : List Position} {d : Position}
    (hroot : c.store.position? name = some root) (h : c.store.Lasso stem d loop)
    (hhead : (stem ++ d :: loop).head? = some root) :
    (c.valueOf name).1 = .error (.cyclic (c.store.nameAt d) (c.store.loopNames d loop)) ∧
      (c.valueOf name).2.store = c.store ∧
      (c.valueOf name).2.journal.events =
        c.journal.events.push (.cycleDetected (c.store.nameAt d)) := by
  obtain ⟨rest, hrest⟩ := List.head?_eq_some_iff.1 hhead
  have hstart := Forcing.OnTrack.start c.store c.journal root
  have halong : (Forcing.start c.store c.journal root).Along stem d loop rest :=
    ⟨h, hstart.contains_iff, List.cons_ne_nil root [], hrest.symm⟩
  obtain ⟨j, hrun, hevents⟩ := halong.run
  have hvalue : c.valueOf name = (.error (.cyclic (c.store.nameAt d) (c.store.loopNames d loop)),
      { c with journal := j }) := by
    simp only [valueOf, hroot, hrun]
    rfl
  rw [hvalue]
  exact ⟨rfl, rfl, hevents⟩

/-- The events of a forcing that fails: what it has applied, and then the cycle. -/
theorem events_valueOf_of_cyclic (hs : c.store.Coherent) {register : String} {cycle : List String}
    (h : (c.valueOf name).1 = .error (.cyclic register cycle)) :
    ∃ as : List Application, (c.valueOf name).2.journal.events.toList =
      c.journal.events.toList ++ as.map .applied ++ [.cycleDetected register] := by
  cases hroot : c.store.position? name with
  | none =>
    rw [valueOf_of_undeclared hroot] at h
    cases h
  | some root =>
    obtain ⟨g, hg, ⟨-, hvalue⟩ | ⟨p, path, d, -, -, -, hvalue⟩⟩ := valueOf_spec hs hroot
    · rw [hvalue] at h
      cases h
    · obtain ⟨as, -, hevents⟩ := hg.evolves
      rw [hvalue] at h ⊢
      obtain ⟨rfl, -⟩ := Reason.cyclic.inj (Except.error.inj h)
      refine ⟨as, ?_⟩
      simp [Forcing.report, Journal.note, Journal.emit, hevents]

/-- **The reported cycle is a genuine simple cycle** of registers each of which waits for the next
one, and the register asked for leads to it. -/
theorem valueOf_reports_cycle (hc : c.Reachable) {register : String} {cycle : List String}
    {s : Store} (hstore : (c.valueOf name).2.store = s)
    (h : (c.valueOf name).1 = .error (.cyclic register cycle)) :
    (2 ≤ cycle.length ∧ cycle.head? = some register ∧ cycle.getLast? = some register ∧
        cycle.dropLast.Nodup ∧ cycle.IsChain s.WaitsFor) ∧
      (Relation.ReflTransGen s.WaitsFor name register ∧ (name ∈ cycle → register = name)) ∧
      ∃ as : List Application, (c.valueOf name).2.journal.events.toList =
        c.journal.events.toList ++ as.map .applied ++ [.cycleDetected register] := by
  subst hstore
  have hs := hc.coherent
  have hs' := coherent_valueOf hs name
  obtain ⟨root, stem, d, loop, hroot, hlasso, hhead, hregister, hcycle⟩ :=
    exists_lasso_of_valueOf hs h
  have hevents := events_valueOf_of_cyclic hs h
  generalize (c.valueOf name).2.store = s at *
  have hchain := hlasso.isChain_names hs'
  have hnodup := hlasso.nodup_names hs'
  rw [List.map_append, List.map_append] at hchain
  rw [List.map_append] at hnodup
  obtain rfl : s.nameAt root = name := hs'.nameAt_eq hroot
  rw [hcycle, hregister]
  refine ⟨⟨?_, rfl, ?_, ?_, ?_⟩, ⟨?_, ?_⟩, hregister ▸ hevents⟩
  · simp [Store.loopNames]
  · rw [Store.loopNames, List.map_append]
    exact List.getLast?_concat
  · rw [Store.loopNames, List.map_append, List.map_singleton, List.dropLast_concat]
    exact hnodup.of_append_right
  · rw [Store.loopNames, List.map_append]
    rw [List.append_assoc] at hchain
    exact hchain.right_of_append
  · exact hlasso.waitsFor_nameAt hs' hhead
  · intro hname
    cases stem with
    | nil => exact congrArg s.nameAt (Option.some.inj hhead)
    | cons x stem =>
      -- the register that a stem starts with is not on the loop
      obtain rfl : x = root := Option.some.inj hhead
      have hnew := (List.nodup_append.1 hnodup).2.2 (s.nameAt x) List.mem_cons_self
      have hloop : s.nameAt x ∈ (d :: loop).map s.nameAt := by
        simpa [Store.loopNames, or_comm, or_assoc] using hname
      exact absurd rfl (hnew _ hloop)

/-- The cycle is met behind entries that are applied, from a register that does not lie on it. -/
theorem valueOf_reports_cycle_behind_stem :
    let c := fresh.performAll [.run ["x add 1", "x add y", "y add b", "b add 2", "b add a",
      "a subtract b", "print x"]]
    (c.valueOf "x").1 = .error (.cyclic "b" ["b", "a", "b"]) ∧
      ["b", "a", "b"].IsChain (c.valueOf "x").2.store.WaitsFor ∧
      Relation.ReflTransGen (c.valueOf "x").2.store.WaitsFor "x" "b" ∧
      ∃ as : List Application, (c.valueOf "x").2.journal.events.toList =
        c.journal.events.toList ++ as.map .applied ++ [.cycleDetected "b"] := by
  intro c
  have hfails : (c.valueOf "x").1 = .error (.cyclic "b" ["b", "a", "b"]) := by decide +kernel
  obtain ⟨⟨-, -, -, -, hchain⟩, ⟨hstem, -⟩, hevents⟩ := valueOf_reports_cycle ⟨_, rfl⟩ rfl hfails
  exact ⟨hfails, hchain, hstem, hevents⟩

end Calculator

end LazyRegisters
