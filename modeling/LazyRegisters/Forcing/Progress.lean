import LazyRegisters.Forcing.Basic

/-!
# Forcing: every move makes progress

The moves still possible are counted by the entries that are pending, twice the unresolved
registers that are not on the path, and the registers on the path. Applying an entry leaves one
entry less. Entering an unresolved register puts it on the path, which counts half. Leaving takes a
register off the path that is resolved and so counts no more. Every move therefore lowers the count,
whatever the store.
-/

namespace LazyRegisters

def Store.pendingTotal (s : Store) : Nat :=
  s.registers.toList.foldr (fun r n => r.pendingCount + n) 0

namespace Forcing

/-- The number of unresolved registers that are not on the path. -/
def waiting (f : Forcing) : Nat :=
  (List.range f.store.size).countP fun p => !f.store.isResolvedAt p && !f.onPath.contains p

/-- A bound on the number of moves to come. -/
def movesLeft (f : Forcing) : Nat := f.store.pendingTotal + 2 * f.waiting + f.path.length

theorem foldr_modify_lt {α : Type} (g : α → Nat) (f : α → α) {l : List α} {i : Nat} {a : α}
    (h : l[i]? = some a) (hlt : g (f a) < g a) :
    (l.modify i f).foldr (fun b n => g b + n) 0 < l.foldr (fun b n => g b + n) 0 := by
  induction l generalizing i with
  | nil => simp at h
  | cons b l ih =>
    cases i with
    | zero =>
      obtain rfl : b = a := by simpa using h
      simpa using hlt
    | succ i =>
      have := ih (i := i) (by simpa using h)
      simpa using this

theorem countP_lt_of_mem {α : Type} {p q : α → Bool} {l : List α} {a : α} (ha : a ∈ l)
    (hpq : ∀ x ∈ l, p x → q x) (hp : p a = false) (hq : q a) : l.countP p < l.countP q := by
  induction l with
  | nil => simp at ha
  | cons b l ih =>
    have hle : l.countP p ≤ l.countP q :=
      List.countP_mono_left fun x hx => hpq x (List.mem_cons_of_mem b hx)
    rcases List.mem_cons.1 ha with rfl | ha
    · simp [hp, hq]; omega
    · have hlt := ih ha fun x hx => hpq x (List.mem_cons_of_mem b hx)
      rw [List.countP_cons, List.countP_cons]
      split
      · next hb =>
        rw [if_pos (hpq b (by simp) hb)]
        omega
      · exact Nat.lt_of_lt_of_le hlt (Nat.le_add_right _ _)

theorem store_apply {f : Forcing} {p : Position} {e : Entry Position} (x : Float)
    (h : f.store.pendingEntryAt? p = some e) :
    (f.apply p x).store = f.store.applyPending p x := by
  obtain ⟨r, hr, he⟩ := Option.bind_eq_some_iff.1 h
  simp [apply, application?, hr, he]

@[simp] theorem path_apply (f : Forcing) (p : Position) (x : Float) :
    (f.apply p x).path = f.path := by
  unfold apply; split <;> rfl

@[simp] theorem onPath_apply (f : Forcing) (p : Position) (x : Float) :
    (f.apply p x).onPath = f.onPath := by
  unfold apply; split <;> rfl

theorem pendingTotal_apply {f : Forcing} {p : Position} {e : Entry Position} (x : Float)
    (h : f.store.pendingEntryAt? p = some e) :
    (f.apply p x).store.pendingTotal < f.store.pendingTotal := by
  obtain ⟨r, hr, he⟩ := Option.bind_eq_some_iff.1 h
  rw [store_apply x h]
  unfold Store.pendingTotal Store.applyPending Store.modify
  rw [Array.toList_modify]
  refine foldr_modify_lt Register.pendingCount _ (a := r) (by simpa [Store.register?] using hr) ?_
  have := Register.pendingCount_pos he
  rw [Register.pendingCount_applyPending]
  omega

theorem waiting_apply {f : Forcing} {p : Position} {e : Entry Position} (x : Float)
    (h : f.store.pendingEntryAt? p = some e) : (f.apply p x).waiting ≤ f.waiting := by
  unfold waiting
  rw [store_apply x h, onPath_apply, Store.applyPending, Store.size_modify]
  refine List.countP_mono_left fun q _ hq => ?_
  simp only [Bool.and_eq_true, Bool.not_eq_true'] at hq ⊢
  refine ⟨Bool.eq_false_iff.2 fun hr => ?_, hq.2⟩
  have hq := Bool.eq_false_iff.1 hq.1
  unfold Store.isResolvedAt at hr hq
  rw [Store.register?_modify] at hq
  split at hq
  · cases hs : f.store.register? q with
    | none => simp [hs] at hq
    | some r =>
      rw [hs] at hr hq
      simp only [Option.all_some] at hr
      simp [Register.applyPending_of_resolved hr, hr] at hq
  · exact hq hr

theorem pendingEntryAt?_of_move_apply {f : Forcing} {p : Position} {x : Float}
    (h : f.move = .apply p x) : ∃ e, f.store.pendingEntryAt? p = some e := by
  unfold move at h
  split at h
  · cases h
  · split at h
    · cases h
    · next he =>
      split at h
      · cases h; exact ⟨_, he⟩
      · split at h
        · cases h
        · split at h
          · cases h; exact ⟨_, he⟩
          · cases h

theorem of_move_enter {f : Forcing} {d : Position} (h : f.move = .enter d) :
    f.store.isResolvedAt d = false ∧ f.onPath.contains d = false := by
  unfold move at h
  split at h
  · cases h
  · split at h
    · cases h
    · split at h
      · cases h
      · split at h
        · cases h
        · next hc =>
          split at h
          · cases h
          · next hr => cases h; exact ⟨Bool.eq_false_iff.2 hr, Bool.eq_false_iff.2 hc⟩

theorem of_move_leave {f : Forcing} (h : f.move = .leave) :
    ∃ p path, f.path = p :: path ∧ f.store.isResolvedAt p := by
  unfold move at h
  split at h
  · cases h
  · next p path hp =>
    split at h
    · next he => exact ⟨p, path, hp, (Store.isResolvedAt_iff _ _).2 he⟩
    · split at h
      · cases h
      · split at h
        · cases h
        · split at h <;> cases h

theorem movesLeft_apply {f : Forcing} {p : Position} {x : Float} (h : f.move = .apply p x) :
    (f.apply p x).movesLeft < f.movesLeft := by
  obtain ⟨e, he⟩ := pendingEntryAt?_of_move_apply h
  have := pendingTotal_apply x he
  have := waiting_apply x he
  unfold movesLeft
  rw [path_apply]
  omega

theorem waiting_enter {f : Forcing} {d : Position} (h : f.move = .enter d) :
    (f.enter d).waiting < f.waiting := by
  obtain ⟨hd, hp⟩ := of_move_enter h
  have hlt := Store.lt_size_of_not_isResolvedAt hd
  refine countP_lt_of_mem (a := d) (List.mem_range.2 hlt) ?_ ?_ ?_
  · intro q _ hq
    simp only [enter, Std.TreeSet.contains_insert, Bool.and_eq_true, Bool.not_eq_true',
      Bool.or_eq_false_iff] at hq ⊢
    exact ⟨hq.1, hq.2.2⟩
  · simp [enter]
  · simp [hd, hp]

theorem movesLeft_enter {f : Forcing} {d : Position} (h : f.move = .enter d) :
    (f.enter d).movesLeft < f.movesLeft := by
  have := waiting_enter h
  have : (f.enter d).store = f.store := rfl
  have : (f.enter d).path.length = f.path.length + 1 := rfl
  unfold movesLeft
  grind

theorem movesLeft_leave {f : Forcing} (h : f.move = .leave) : f.leave.movesLeft < f.movesLeft := by
  obtain ⟨p, path, hp, hr⟩ := of_move_leave h
  have hleave : f.leave = { f with path := path, onPath := f.onPath.erase p } := by
    simp [leave, hp]
  have hwaiting : f.leave.waiting = f.waiting := by
    rw [hleave]
    refine List.countP_congr fun q _ => ?_
    by_cases hq : p = q
    · subst hq; simp [hr]
    · simp [Std.TreeSet.contains_erase, hq]
  unfold movesLeft
  rw [hwaiting, hleave, hp]
  simp

end Forcing

end LazyRegisters
