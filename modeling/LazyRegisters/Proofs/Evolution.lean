import LazyRegisters.Journal
import LazyRegisters.Proofs.PendingGraph

/-!
# Applying pending entries

Whatever forcing does to a store is a sequence of single applications: the first pending entry of a
register is applied, and if its operand is a register, that one has nothing pending.

`Applies` is one application and `Evolves` a sequence of them. An application takes one entry off
the pending ones of one register (`Applies.spec`). Hence the plans stay, edges only disappear,
resolved registers stay as they are, and no register becomes grounded, ceases to be grounded, or
changes its denotation (`Evolves.grounded_iff`, `Evolves.denote_eq`).
-/

namespace LazyRegisters.Store

/-- The value that an operand can be applied with. A register among the operands has to be
resolved. -/
inductive Supplies (s : Store) : Operand Position → Float → Prop where
  | number (x : Float) : s.Supplies (.number x) x
  | register {d : Position} (h : s.isResolvedAt d) : s.Supplies (.register d) (s.valueAt d)

/-- The first pending entry of the register at `p` is applied. -/
inductive Applies (s : Store) (p : Position) : Application → Store → Prop where
  | intro {r : Register} {e : Entry Position} {x : Float} (hr : s.register? p = some r)
    (he : r.pendingEntry? = some e) (hx : s.Supplies e.operand x) :
    s.Applies p ⟨r.name, r.cursor, e.operation, x, e.operation.apply r.value x⟩
      (s.applyPending p x)

/-- Entries of registers at the positions in `touched` are applied one after the other. -/
inductive Evolves (touched : Position → Prop) (s : Store) : List Application → Store → Prop where
  | refl : s.Evolves touched [] s
  | tail {as : List Application} {s' s'' : Store} {p : Position} {a : Application} :
    s.Evolves touched as s' → touched p → s'.Applies p a s'' → s.Evolves touched (as ++ [a]) s''

variable {s s' : Store} {p : Position} {a : Application}

/-! ## One application -/

/-- What an application does: one entry less is pending at `p`, its operation is applied to the
value there, and the other registers stay. -/
theorem Applies.spec (hs : s.Coherent) (h : s.Applies p a s') :
    ∃ e x, s.pendingAt p = e :: s'.pendingAt p ∧ s.Supplies e.operand x ∧
      s'.valueAt p = e.operation.apply (s.valueAt p) x ∧
      ∀ q, q ≠ p → s'.register? q = s.register? q := by
  obtain @⟨r, e, x, hr, he, hx⟩ := h
  have hr' : (s.applyPending p x).register? p = some (r.applyPending x) :=
    register?_modify_self hr _
  refine ⟨e, x, ?_, hx, ?_, fun q hq => register?_modify_of_ne (Ne.symm hq) _⟩
  · rw [pendingAt_of_register? hr, pendingAt_of_register? hr',
      (hs.register hr).pending_applyPending]
    rw [(hs.register hr).pendingEntry?_eq] at he
    exact (List.cons_head?_tail he).symm
  · rw [valueAt_of_register? hr, valueAt_of_register? hr', Register.applyPending_eq he]

theorem Applies.coherent (h : s.Applies p a s') (hs : s.Coherent) : s'.Coherent := by
  obtain ⟨hr, he, hx⟩ := h
  exact hs.applyPending p _

theorem Applies.size_eq (h : s.Applies p a s') : s'.size = s.size := by
  obtain ⟨hr, he, hx⟩ := h
  exact size_modify s p _

theorem Applies.position?_eq (h : s.Applies p a s') (name : String) :
    s'.position? name = s.position? name := by
  obtain ⟨hr, he, hx⟩ := h
  rfl

theorem Applies.nameAt_eq (h : s.Applies p a s') : s'.nameAt = s.nameAt := by
  obtain ⟨hr, he, hx⟩ := h
  exact s.nameAt_modify p fun r => r.name_applyPending _

theorem Applies.names_eq (h : s.Applies p a s') : s'.names = s.names := by
  obtain ⟨hr, he, hx⟩ := h
  exact s.names_modify p fun r => r.name_applyPending _

theorem Applies.exists_register? (h : s.Applies p a s') {q : Position} {r : Register}
    (hr : s.register? q = some r) :
    ∃ r', s'.register? q = some r' ∧ r'.name = r.name ∧ r'.plan = r.plan := by
  obtain ⟨-, -, -⟩ := h
  by_cases hq : p = q
  · subst hq
    exact ⟨_, register?_modify_self hr _, r.name_applyPending _, r.plan_applyPending _⟩
  · exact ⟨r, by rw [applyPending, register?_modify_of_ne hq, hr], rfl, rfl⟩

/-- Pending entries only disappear from the front. -/
theorem Applies.pendingAt_suffix (hs : s.Coherent) (h : s.Applies p a s') (q : Position) :
    s'.pendingAt q <:+ s.pendingAt q := by
  obtain ⟨e, x, hp, -, -, hother⟩ := h.spec hs
  by_cases hq : q = p
  · subst hq
    rw [hp]
    exact List.suffix_cons e _
  · exact pendingAt_congr (hother q hq) ▸ List.suffix_rfl

theorem Applies.awaits_of_awaits (hs : s.Coherent) (h : s.Applies p a s') {x d : Position}
    (hx : s'.Awaits x d) : s.Awaits x d := by
  obtain ⟨e, he, hd⟩ := hx
  exact ⟨e, (h.pendingAt_suffix hs x).subset he, hd⟩

/-- An edge that disappears leads to a resolved register. -/
theorem Applies.awaits_or_resolved (hs : s.Coherent) (h : s.Applies p a s') {x d : Position}
    (hx : s.Awaits x d) : s'.Awaits x d ∨ s.pendingAt d = [] := by
  obtain ⟨e, he, hd⟩ := hx
  obtain ⟨e₁, v, hp, hsup, -, hother⟩ := h.spec hs
  by_cases hxp : x = p
  · subst hxp
    rw [hp] at he
    rcases List.mem_cons.1 he with rfl | he
    · rw [hd] at hsup
      cases hsup with
      | register hr => exact .inr ((hs.isResolvedAt_iff d).1 hr)
    · exact .inl ⟨e, he, hd⟩
  · exact .inl ⟨e, by rwa [pendingAt_congr (hother x hxp)], hd⟩

theorem Applies.register?_of_pendingAt_eq_nil (hs : s.Coherent) (h : s.Applies p a s')
    {q : Position} (hq : s.pendingAt q = []) : s'.register? q = s.register? q := by
  obtain ⟨e, x, hp, -, -, hother⟩ := h.spec hs
  refine hother q fun hqp => ?_
  rw [hqp, hp] at hq
  cases hq

/-- A register that is blocked on an unresolved one is left alone. -/
theorem Applies.register?_of_blockedOn (hs : s.Coherent) (h : s.Applies p a s')
    {x d : Position} (hx : s.BlockedOn x d) (hd : s.isResolvedAt d = false) :
    s'.register? x = s.register? x := by
  obtain ⟨e, y, hp, hsup, -, hother⟩ := h.spec hs
  refine hother x fun hxp => ?_
  subst hxp
  obtain ⟨e', he', hed⟩ := hx
  rw [hs.pendingEntryAt?_eq, hp, List.head?_cons] at he'
  obtain rfl := Option.some.inj he'
  rw [hed] at hsup
  cases hsup with
  | register hr => rw [hd] at hr; cases hr

/-- Applying entries grounds no register and ungrounds none: the edge taken away leads to a register
from which no edge starts. -/
theorem Applies.grounded_iff (hs : s.Coherent) (h : s.Applies p a s') {q : Position} :
    s'.Grounded q ↔ s.Grounded q := by
  constructor
  · intro hq
    induction hq with
    | intro q _ ih =>
      refine ⟨q, fun d hd => ?_⟩
      rcases h.awaits_or_resolved hs hd with hd | hd
      · exact ih d hd
      · exact grounded_of_pendingAt_eq_nil hd
  · intro hq
    induction hq with
    | intro q _ ih => exact ⟨q, fun d hd => ih d (h.awaits_of_awaits hs hd)⟩

/-- The denotation of a register stays: what was applied is what it was going to be applied with. -/
theorem Applies.denote_eq (hs : s.Coherent) (h : s.Applies p a s') {q : Position}
    (hq : s.Grounded q) : s'.denote q = s.denote q := by
  obtain ⟨e, x, hp, hsup, hvalue, hother⟩ := h.spec hs
  induction hq with
  | intro q hacc ih =>
    have hq : s.Grounded q := ⟨q, hacc⟩
    rw [((h.grounded_iff hs).2 hq).denote_eq, hq.denote_eq]
    have hcongr : s'.foldPending s'.denote q = s'.foldPending s.denote q :=
      foldPending_congr fun d hd => ih d (h.awaits_of_awaits hs hd)
    rw [hcongr]
    by_cases hqp : q = p
    · subst hqp
      have hx : e.operand.valueIn s.denote = x := by
        generalize e.operand = operand at hsup ⊢
        cases hsup with
        | number => rfl
        | register hd => exact denote_of_pendingAt_eq_nil ((hs.isResolvedAt_iff _).1 hd)
      rw [foldPending, foldPending, hp, List.foldl_cons, hvalue, hx]
    · have hsame : s'.valueAt q = s.valueAt q := by rw [valueAt, hother q hqp, valueAt]
      rw [foldPending, foldPending, pendingAt_congr (hother q hqp), hsame]

/-! ## Sequences of applications -/

variable {touched : Position → Prop} {as : List Application}

theorem Evolves.mono {touched' : Position → Prop} (hsub : ∀ p, touched p → touched' p)
    (h : s.Evolves touched as s') : s.Evolves touched' as s' := by
  induction h with
  | refl => exact .refl
  | tail _ hp ha ih => exact ih.tail (hsub _ hp) ha

theorem Evolves.trans {as' : List Application} {s'' : Store} (h : s.Evolves touched as s')
    (h' : s'.Evolves touched as' s'') : s.Evolves touched (as ++ as') s'' := by
  induction h' with
  | refl => rwa [List.append_nil]
  | tail _ hp ha ih =>
    rw [← List.append_assoc]
    exact ih.tail hp ha

theorem Evolves.coherent (h : s.Evolves touched as s') (hs : s.Coherent) : s'.Coherent := by
  induction h with
  | refl => exact hs
  | tail _ _ ha ih => exact ha.coherent ih

theorem Evolves.size_eq (h : s.Evolves touched as s') : s'.size = s.size := by
  induction h with
  | refl => rfl
  | tail _ _ ha ih => exact ha.size_eq.trans ih

theorem Evolves.position?_eq (h : s.Evolves touched as s') (name : String) :
    s'.position? name = s.position? name := by
  induction h with
  | refl => rfl
  | tail _ _ ha ih => exact (ha.position?_eq name).trans ih

theorem Evolves.nameAt_eq (h : s.Evolves touched as s') : s'.nameAt = s.nameAt := by
  induction h with
  | refl => rfl
  | tail _ _ ha ih => exact ha.nameAt_eq.trans ih

theorem Evolves.names_eq (h : s.Evolves touched as s') : s'.names = s.names := by
  induction h with
  | refl => rfl
  | tail _ _ ha ih => exact ha.names_eq.trans ih

theorem Evolves.exists_register? (h : s.Evolves touched as s') {q : Position} {r : Register}
    (hr : s.register? q = some r) :
    ∃ r', s'.register? q = some r' ∧ r'.name = r.name ∧ r'.plan = r.plan := by
  induction h with
  | refl => exact ⟨r, hr, rfl, rfl⟩
  | tail _ _ ha ih =>
    obtain ⟨r₁, hr₁, hname₁, hplan₁⟩ := ih
    obtain ⟨r₂, hr₂, hname₂, hplan₂⟩ := ha.exists_register? hr₁
    exact ⟨r₂, hr₂, hname₂.trans hname₁, hplan₂.trans hplan₁⟩

theorem Evolves.register?_of_not_touched (h : s.Evolves touched as s') (hs : s.Coherent)
    {q : Position} (hq : ¬ touched q) : s'.register? q = s.register? q := by
  induction h with
  | refl => rfl
  | tail hev hp ha ih =>
    obtain ⟨-, -, -, -, -, hother⟩ := ha.spec (hev.coherent hs)
    rw [hother q fun hqp => hq (hqp ▸ hp), ih]

theorem Evolves.awaits_of_awaits (h : s.Evolves touched as s') (hs : s.Coherent)
    {x d : Position} (hx : s'.Awaits x d) : s.Awaits x d := by
  induction h with
  | refl => exact hx
  | tail hev _ ha ih => exact ih (ha.awaits_of_awaits (hev.coherent hs) hx)

theorem Evolves.register?_of_pendingAt_eq_nil (h : s.Evolves touched as s') (hs : s.Coherent)
    {q : Position} (hq : s.pendingAt q = []) : s'.register? q = s.register? q := by
  induction h with
  | refl => rfl
  | tail hev _ ha ih =>
    rw [ha.register?_of_pendingAt_eq_nil (hev.coherent hs) (by rwa [pendingAt_congr ih]), ih]

theorem Evolves.awaits_or_resolved (h : s.Evolves touched as s') (hs : s.Coherent)
    {x d : Position} (hx : s.Awaits x d) : s'.Awaits x d ∨ s'.pendingAt d = [] := by
  induction h with
  | refl => exact .inl hx
  | @tail _ s₁ s₂ _ _ hev _ ha ih =>
    have hs' := hev.coherent hs
    have hstay (hd : s₁.pendingAt d = []) : s₂.pendingAt d = [] := by
      rwa [pendingAt_congr (ha.register?_of_pendingAt_eq_nil hs' hd)]
    rcases ih with hx' | hd
    · exact (ha.awaits_or_resolved hs' hx').imp_right hstay
    · exact .inr (hstay hd)

theorem Evolves.grounded_iff (h : s.Evolves touched as s') (hs : s.Coherent) {q : Position} :
    s'.Grounded q ↔ s.Grounded q := by
  induction h with
  | refl => exact Iff.rfl
  | tail hev _ ha ih => exact (ha.grounded_iff (hev.coherent hs)).trans ih

theorem Evolves.denote_eq (h : s.Evolves touched as s') (hs : s.Coherent) {q : Position}
    (hq : s.Grounded q) : s'.denote q = s.denote q := by
  induction h with
  | refl => rfl
  | tail hev _ ha ih =>
    exact (ha.denote_eq (hev.coherent hs) ((hev.grounded_iff hs).2 hq)).trans ih

/-- Once a register is resolved, everything that could be reached from it is. -/
theorem Evolves.pendingAt_eq_nil_of_reaches (h : s.Evolves touched as s') (hs : s.Coherent)
    {q : Position} (hp : s'.pendingAt p = []) (hpq : s.Reaches p q) : s'.pendingAt q = [] := by
  induction hpq with
  | refl => exact hp
  | tail _ he ih => exact (h.awaits_or_resolved hs he).resolve_left fun he' => he'.ne_nil ih

end LazyRegisters.Store
