import LazyRegisters.Proofs.Coherence
import Mathlib.Logic.Relation

/-!
# The pending graph

There is an edge from a register to every register that one of its pending entries refers to. A
register is *grounded* if no infinite path starts from it. The *denotation* of a grounded register
is the value that its pending entries lead to: they are applied in order to its value so far, each
register among the operands standing for its own denotation.
-/

namespace LazyRegisters

/-- The number that an operand stands for when each register stands for the given value. -/
def Operand.valueIn (value : Position → Float) : Operand Position → Float
  | number x => x
  | register d => value d

namespace Store

def pendingAt (s : Store) (p : Position) : List (Entry Position) :=
  (s.register? p).elim [] Register.pending

/-- A pending entry of the register at `x` refers to the one at `d`. -/
def Awaits (s : Store) (x d : Position) : Prop := ∃ e ∈ s.pendingAt x, e.operand = .register d

instance (s : Store) (x d : Position) : Decidable (s.Awaits x d) :=
  inferInstanceAs (Decidable (∃ e ∈ s.pendingAt x, e.operand = .register d))

/-- The first pending entry of the register at `x` refers to the one at `d`. -/
def BlockedOn (s : Store) (x d : Position) : Prop :=
  ∃ e, s.pendingEntryAt? x = some e ∧ e.operand = .register d

/-- There is a path from one register to another. -/
def Reaches (s : Store) : Position → Position → Prop := Relation.ReflTransGen s.Awaits

def OnCycle (s : Store) (p : Position) : Prop := Relation.TransGen s.Awaits p p

/-- No infinite path starts from the register. -/
def Grounded (s : Store) (p : Position) : Prop := Acc (fun d x => s.Awaits x d) p

theorem pendingEntryAt?_of_register? {s : Store} {p : Position} {r : Register} {e : Entry Position}
    (hr : s.register? p = some r) (he : r.pendingEntry? = some e) :
    s.pendingEntryAt? p = some e := by
  rw [pendingEntryAt?, hr, Option.bind_some, he]

theorem pendingAt_of_register? {s : Store} {p : Position} {r : Register}
    (h : s.register? p = some r) : s.pendingAt p = r.pending := by
  rw [pendingAt, h, Option.elim_some]

theorem pendingAt_congr {s s' : Store} {p : Position} (h : s'.register? p = s.register? p) :
    s'.pendingAt p = s.pendingAt p := by
  rw [pendingAt, h, pendingAt]

theorem Coherent.pendingEntryAt?_eq {s : Store} (h : s.Coherent) (p : Position) :
    s.pendingEntryAt? p = (s.pendingAt p).head? := by
  cases hr : s.register? p with
  | none => simp [pendingEntryAt?, pendingAt, hr]
  | some r =>
    rw [pendingAt_of_register? hr, ← (h.register hr).pendingEntry?_eq, pendingEntryAt?, hr,
      Option.bind_some]

theorem Coherent.isResolvedAt_iff {s : Store} (h : s.Coherent) (p : Position) :
    s.isResolvedAt p ↔ s.pendingAt p = [] := by
  rw [Store.isResolvedAt_iff, h.pendingEntryAt?_eq, List.head?_eq_none_iff]

/-! ## Edges -/

theorem Awaits.ne_nil {s : Store} {x d : Position} (h : s.Awaits x d) : s.pendingAt x ≠ [] := by
  obtain ⟨e, he, -⟩ := h
  exact List.ne_nil_of_mem he

theorem Awaits.exists_register? {s : Store} {x d : Position} (h : s.Awaits x d) :
    ∃ r, s.register? x = some r := by
  cases hr : s.register? x with
  | none => exact absurd (by simp [pendingAt, hr]) h.ne_nil
  | some r => exact ⟨r, rfl⟩

theorem Coherent.lt_of_awaits {s : Store} (hs : s.Coherent) {x d : Position} (h : s.Awaits x d) :
    d < s.size := by
  obtain ⟨r, hr⟩ := h.exists_register?
  obtain ⟨e, he, hd⟩ := h
  rw [pendingAt_of_register? hr] at he
  have hmem := Register.mem_plan (List.mem_of_mem_filter he)
  exact hs.operand_lt hr (hd ▸ hmem)

theorem Coherent.lt_of_reaches {s : Store} (hs : s.Coherent) {p q : Position}
    (h : s.Reaches p q) (hp : p < s.size) : q < s.size := by
  cases h with
  | refl => exact hp
  | tail _ he => exact hs.lt_of_awaits he

/-- What is closed under edges holds all that is reached from it. -/
theorem Coherent.mem_of_reaches {s : Store} (hs : s.Coherent) {ps : List Position}
    (hclosed : ∀ x ∈ ps, ∀ d < s.size, s.Awaits x d → d ∈ ps) {p q : Position} (hp : p ∈ ps)
    (h : s.Reaches p q) : q ∈ ps := by
  induction h with
  | refl => exact hp
  | tail _ he ih => exact hclosed _ ih _ (hs.lt_of_awaits he) he

theorem BlockedOn.awaits {s : Store} (hs : s.Coherent) {x d : Position} (h : s.BlockedOn x d) :
    s.Awaits x d := by
  obtain ⟨e, he, hd⟩ := h
  rw [hs.pendingEntryAt?_eq] at he
  exact ⟨e, List.mem_of_mem_head? he, hd⟩

theorem BlockedOn.not_isResolvedAt {s : Store} {x d : Position} (h : s.BlockedOn x d) :
    s.isResolvedAt x = false := by
  obtain ⟨e, he, -⟩ := h
  rw [Bool.eq_false_iff, ne_eq, Store.isResolvedAt_iff, he]
  simp

/-! ## Grounded registers -/

theorem grounded_of_pendingAt_eq_nil {s : Store} {p : Position} (h : s.pendingAt p = []) :
    s.Grounded p :=
  ⟨p, fun _ hd => absurd h hd.ne_nil⟩

theorem Grounded.inv {s : Store} {p d : Position} (h : s.Grounded p) (hd : s.Awaits p d) :
    s.Grounded d :=
  Acc.inv h hd

theorem Grounded.of_reaches {s : Store} {p q : Position} (h : s.Grounded p)
    (hpq : s.Reaches p q) : s.Grounded q := by
  induction hpq with
  | refl => exact h
  | tail _ he ih => exact ih.inv he

theorem Grounded.not_onCycle {s : Store} {p : Position} (h : s.Grounded p) : ¬ s.OnCycle p := by
  induction h with
  | intro p _ ih =>
    intro hp
    obtain ⟨d, hpd, hdp⟩ := Relation.TransGen.head'_iff.1 hp
    exact ih d hpd (Relation.TransGen.tail' hdp hpd)

theorem Grounded.not_onCycle_of_reaches {s : Store} {p q : Position} (h : s.Grounded p)
    (hpq : s.Reaches p q) : ¬ s.OnCycle q :=
  (h.of_reaches hpq).not_onCycle

/-! ## Denotations -/

/-- The value that the pending entries of a register lead to when each register among their operands
stands for the given value. -/
def foldPending (s : Store) (value : Position → Float) (p : Position) : Float :=
  (s.pendingAt p).foldl (fun v e => e.operation.apply v (e.operand.valueIn value)) (s.valueAt p)

open Classical in
/-- The denotation of a grounded register, by recursion along the edges; a register that is not
grounded has none, and its value so far stands in. -/
noncomputable def denote (s : Store) (p : Position) : Float :=
  if h : s.Grounded p then
    WellFounded.fixF
      (fun x value => s.foldPending (fun d => if hd : s.Awaits x d then value d hd else 0) x) p h
  else s.valueAt p

/-- Only the registers awaited matter. -/
theorem foldPending_congr {s : Store} {value value' : Position → Float} {p : Position}
    (h : ∀ d, s.Awaits p d → value d = value' d) :
    s.foldPending value p = s.foldPending value' p := by
  unfold foldPending
  refine List.foldl_ext _ _ _ fun v e he => ?_
  cases hd : e.operand with
  | number x => rfl
  | register d => exact congrArg (e.operation.apply v) (h d ⟨e, he, hd⟩)

/-- The denotation of a register is what its pending entries lead to when the registers among their
operands stand for their denotations. -/
theorem Grounded.denote_eq {s : Store} {p : Position} (h : s.Grounded p) :
    s.denote p = s.foldPending s.denote p := by
  rw [denote, dif_pos h]
  refine (WellFounded.fixF_eq _ p h).trans (foldPending_congr fun d hd => ?_)
  rw [dif_pos hd, denote]
  exact (dif_pos (h.inv hd)).symm

theorem denote_of_pendingAt_eq_nil {s : Store} {p : Position} (h : s.pendingAt p = []) :
    s.denote p = s.valueAt p := by
  rw [(grounded_of_pendingAt_eq_nil h).denote_eq, foldPending, h, List.foldl_nil]

end Store

end LazyRegisters
