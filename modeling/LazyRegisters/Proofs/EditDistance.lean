import LazyRegisters.Operation
import Mathlib.Order.Bounds.Basic
import Mathlib.Tactic.ByContra

/-!
# Edit distance and suggestions

An edit inserts, deletes or replaces one character of a text. `Text.distance` is the least number of
edits that turn one text into the other (`Text.isLeast_distance`): so many are enough because every
entry of the table stands for an edit, and fewer are not because one edit brings the distance to any
other text down by at most one.

Distances add up along a detour, and the names of two operations are more than four edits apart. So
at most one of them is within two edits of a misspelt name, and that one is suggested, however it is
looked for (`Operation.suggest?_unambiguous`).
-/

namespace LazyRegisters

namespace Text

/-- One edit of a text: a character is inserted, deleted or replaced. -/
inductive Edit : List Char → List Char → Prop where
  | insert (front back : List Char) (c : Char) : Edit (front ++ back) (front ++ c :: back)
  | delete (front back : List Char) (c : Char) : Edit (front ++ c :: back) (front ++ back)
  | replace (front back : List Char) (c d : Char) : Edit (front ++ c :: back) (front ++ d :: back)

/-- A number of edits, one after the other. -/
inductive Edits : Nat → List Char → List Char → Prop where
  | refl (s : List Char) : Edits 0 s s
  | step {n : Nat} {s s' t : List Char} (h : Edit s s') (hn : Edits n s' t) : Edits (n + 1) s t

variable {s s' t u : List Char} {m n : Nat}

theorem Edit.symm (h : Edit s t) : Edit t s := by
  cases h with
  | insert front back c => exact .delete front back c
  | delete front back c => exact .insert front back c
  | replace front back c d => exact .replace front back d c

theorem Edit.cons (h : Edit s t) (a : Char) : Edit (a :: s) (a :: t) := by
  cases h with
  | insert front back c => exact .insert (a :: front) back c
  | delete front back c => exact .delete (a :: front) back c
  | replace front back c d => exact .replace (a :: front) back c d

theorem Edits.cons (h : Edits n s t) (a : Char) : Edits n (a :: s) (a :: t) := by
  induction h with
  | refl s => exact .refl (a :: s)
  | step h _ ih => exact .step (h.cons a) ih

theorem Edits.trans (h : Edits m s t) (h' : Edits n t u) : Edits (m + n) s u := by
  induction h with
  | refl s => rwa [Nat.zero_add]
  | step h _ ih =>
    rw [Nat.add_right_comm]
    exact .step h (ih h')

theorem Edits.symm (h : Edits n s t) : Edits n t s := by
  induction h with
  | refl s => exact .refl s
  | step h _ ih => exact ih.trans (.step h.symm (.refl _))

/-! ## The table of distances -/

/-- The row of a text: its distances to all ends of `t`. -/
def row (s t : List Char) : List Nat := s.foldr (fun a row => nextRow a t row) (firstRow t)

/-- Without its first distance, the row is that of the next end. -/
theorem row_cons_right (s : List Char) (b : Char) (t : List Char) :
    row s (b :: t) = distance s (b :: t) :: row s t := by
  induction s with
  | nil => rfl
  | cons a s ih =>
    show nextRow a (b :: t) (row s (b :: t)) =
      (nextRow a (b :: t) (row s (b :: t))).headD 0 :: nextRow a t (row s t)
    rw [ih]
    rfl

theorem distance_nil_left (t : List Char) : distance [] t = t.length := by
  cases t <;> rfl

theorem distance_nil_right (s : List Char) : distance s [] = s.length := by
  have hrow : row s [] = [s.length] := by
    induction s with
    | nil => rfl
    | cons a s ih =>
      show nextRow a [] (row s []) = [s.length + 1]
      rw [ih]
      rfl
  show (row s []).headD 0 = s.length
  rw [hrow]
  rfl

theorem distance_cons_cons (a b : Char) (s t : List Char) :
    distance (a :: s) (b :: t) =
      if a = b then distance s t
      else 1 + min (distance s (b :: t)) (min (distance (a :: s) t) (distance s t)) := by
  show (nextRow a (b :: t) (row s (b :: t))).headD 0 = _
  rw [row_cons_right]
  rfl

/-! ## As many edits are enough -/

theorem edits_distance (s t : List Char) : Edits (distance s t) s t := by
  induction s generalizing t with
  | nil =>
    rw [distance_nil_left]
    induction t with
    | nil => exact .refl []
    | cons b t ih => exact .step (.insert [] [] b) (ih.cons b)
  | cons a s ihs =>
    induction t with
    | nil =>
      have hs := ihs []
      rw [distance_nil_right] at hs ⊢
      exact .step (.delete [] s a) hs
    | cons b t iht =>
      rw [distance_cons_cons]
      split
      · next hab =>
        subst hab
        exact (ihs t).cons a
      · -- The least of the three says whether to delete, insert or replace.
        obtain hmin | hmin | hmin :
            1 + min (distance s (b :: t)) (min (distance (a :: s) t) (distance s t)) =
              distance s (b :: t) + 1 ∨
            1 + min (distance s (b :: t)) (min (distance (a :: s) t) (distance s t)) =
              distance (a :: s) t + 1 ∨
            1 + min (distance s (b :: t)) (min (distance (a :: s) t) (distance s t)) =
              distance s t + 1 := by
          omega
        · rw [hmin]
          exact .step (.delete [] s a) (ihs (b :: t))
        · rw [hmin]
          exact .step (.insert [] (a :: s) b) (iht.cons b)
        · rw [hmin]
          exact .step (.replace [] s a b) ((ihs t).cons b)

/-! ## Fewer edits are not enough -/

/-- A character more at the front of either text changes the distance by one at most. -/
theorem distance_neighbours (s t : List Char) :
    (∀ c, distance (c :: s) t ≤ distance s t + 1 ∧ distance s t ≤ distance (c :: s) t + 1) ∧
    ∀ c, distance s (c :: t) ≤ distance s t + 1 ∧ distance s t ≤ distance s (c :: t) + 1 := by
  induction s generalizing t with
  | nil =>
    refine ⟨?_, fun c => ?_⟩
    · induction t with
      | nil => exact fun c => ⟨Nat.le_refl 1, Nat.zero_le _⟩
      | cons b t iht =>
        intro c
        have hc := iht c
        rw [distance_cons_cons]
        simp only [distance_nil_left, List.length_cons] at hc ⊢
        split <;> omega
    · simp only [distance_nil_left, List.length_cons]
      omega
  | cons a s ihs =>
    induction t with
    | nil =>
      refine ⟨fun c => ?_, fun c => ?_⟩
      · simp only [distance_nil_right, List.length_cons]
        omega
      · have hs := (ihs []).1 a
        have hc := (ihs []).2 c
        rw [distance_cons_cons]
        split <;> omega
    | cons b t iht =>
      refine ⟨fun c => ?_, fun c => ?_⟩
      · have hc := iht.1 c
        have hb := iht.2 b
        rw [distance_cons_cons c b]
        split <;> omega
      · have ha := (ihs (b :: t)).1 a
        have hc := (ihs (b :: t)).2 c
        rw [distance_cons_cons a c]
        split <;> omega

theorem distance_replace_le (s : List Char) (c d : Char) (t : List Char) :
    distance (c :: s) t ≤ distance (d :: s) t + 1 := by
  induction t with
  | nil =>
    rw [distance_nil_right, distance_nil_right]
    exact Nat.le_succ _
  | cons b t ih =>
    have hd := (distance_neighbours s t).1 d
    have hb := (distance_neighbours s t).2 b
    rw [distance_cons_cons, distance_cons_cons]
    split <;> split <;> omega

theorem distance_append_le (front : List Char)
    (h : ∀ t, distance s t ≤ distance s' t + 1) (t : List Char) :
    distance (front ++ s) t ≤ distance (front ++ s') t + 1 := by
  induction front generalizing t with
  | nil => exact h t
  | cons a front ihfront =>
    rw [List.cons_append, List.cons_append]
    induction t with
    | nil =>
      have hnil := ihfront []
      rw [distance_nil_right, distance_nil_right] at hnil ⊢
      exact Nat.succ_le_succ hnil
    | cons b t iht =>
      have ht := ihfront t
      have hbt := ihfront (b :: t)
      rw [distance_cons_cons, distance_cons_cons]
      split <;> omega

/-- One edit brings the distance down by one at most. -/
theorem Edit.distance_le (h : Edit s s') (t : List Char) :
    distance s t ≤ distance s' t + 1 := by
  cases h with
  | insert front back c =>
    exact distance_append_le front (fun t => ((distance_neighbours back t).1 c).2) t
  | delete front back c =>
    exact distance_append_le front (fun t => ((distance_neighbours back t).1 c).1) t
  | replace front back c d =>
    exact distance_append_le front (fun t => distance_replace_le back c d t) t

theorem distance_self (s : List Char) : distance s s = 0 := by
  induction s with
  | nil => rfl
  | cons a s ih => rw [distance_cons_cons, if_pos rfl, ih]

theorem Edits.distance_le (h : Edits n s t) : distance s t ≤ n := by
  induction h with
  | refl s => exact Nat.le_of_eq (distance_self s)
  | @step n s s' t h _ ih =>
    have hedit := h.distance_le t
    omega

/-- **The distance is the least number of edits.** -/
theorem isLeast_distance (s t : List Char) : IsLeast {n | Edits n s t} (distance s t) :=
  ⟨edits_distance s t, fun _ h => Edits.distance_le h⟩

theorem distance_comm (s t : List Char) : distance s t = distance t s :=
  Nat.le_antisymm (edits_distance t s).symm.distance_le (edits_distance s t).symm.distance_le

/-- Distances add up along a detour. -/
theorem distance_triangle (s t u : List Char) :
    distance s u ≤ distance s t + distance t u :=
  ((edits_distance s t).trans (edits_distance t u)).distance_le

end Text

/-! ## Suggestions -/

namespace Operation

variable {name : String} {op op' : Operation}

/-- At the least, no more than two edits turn `name` into the name of the operation. -/
def Near (name : String) (op : Operation) : Prop :=
  ∃ n, IsLeast {n | Text.Edits n name.toList op.name.toList} n ∧ n ≤ 2

theorem near_iff :
    Near name op ↔ Text.distance name.toList op.name.toList ≤ maxSuggestionDistance := by
  have hleast := Text.isLeast_distance name.toList op.name.toList
  constructor
  · rintro ⟨n, hn, hle⟩
    rwa [hleast.unique hn]
  · intro hle
    exact ⟨_, hleast, hle⟩

theorem lt_distance_name (h : op ≠ op') :
    2 * maxSuggestionDistance < Text.distance op.name.toList op'.name.toList := by
  cases op <;> cases op' <;> revert h <;> decide

/-- No name is near to two operations. -/
theorem Near.unique (h : Near name op) (h' : Near name op') : op = op' := by
  rw [near_iff] at h h'
  by_contra hne
  have hfar := lt_distance_name hne
  have hdetour := Text.distance_triangle op.name.toList name.toList op'.name.toList
  rw [Text.distance_comm op.name.toList name.toList] at hdetour
  omega

theorem near_of_suggest? (h : suggest? name = some op) : Near name op := by
  obtain ⟨d, hd, hfind⟩ := List.exists_of_findSome?_eq_some h
  have heq := List.find?_some hfind
  rw [beq_iff_eq] at heq
  rw [near_iff, heq]
  exact Nat.le_of_lt_succ (List.mem_range.1 hd)

theorem suggest?_eq_none_iff : suggest? name = none ↔ ∀ op, ¬ Near name op := by
  constructor
  · intro h op hnear
    rw [near_iff] at hnear
    have hd := List.findSome?_eq_none_iff.1 h (Text.distance name.toList op.name.toList)
      (List.mem_range.2 (Nat.lt_succ_of_le hnear))
    have hop := List.find?_eq_none.1 hd op (mem_all op)
    exact hop (beq_self_eq_true _)
  · intro h
    cases hsuggest : suggest? name with
    | none => rfl
    | some op => exact absurd (near_of_suggest? hsuggest) (h op)

theorem suggest?_eq_some_iff : suggest? name = some op ↔ Near name op := by
  constructor
  · exact near_of_suggest?
  · intro h
    cases hsuggest : suggest? name with
    | none => exact absurd h (suggest?_eq_none_iff.1 hsuggest op)
    | some op' => rw [(near_of_suggest? hsuggest).unique h]

/-- **Suggestions are unambiguous and complete.** The distance is the least number of edits. At most
one operation is near to a name, and it is suggested; if there is none, nothing is. So whichever of
the near ones is picked from the operations in whichever order, it is the suggestion. -/
theorem suggest?_unambiguous :
    (∀ s t, IsLeast {n | Text.Edits n s t} (Text.distance s t)) ∧
    ∀ name,
      (∀ op op', Near name op → Near name op' → op = op') ∧
      (∀ op, suggest? name = some op ↔ Near name op) ∧
      (suggest? name = none ↔ ∀ op, ¬ Near name op) ∧
      ∀ (ops : List Operation) (pick : List Operation → Option Operation), (∀ op, op ∈ ops) →
        (∀ l, pick l = none → l = []) → (∀ l op, pick l = some op → op ∈ l) →
        pick (ops.filter fun op =>
          Text.distance name.toList op.name.toList ≤ maxSuggestionDistance) = suggest? name := by
  refine ⟨Text.isLeast_distance, fun name => ⟨fun op op' => Near.unique,
    fun op => suggest?_eq_some_iff, suggest?_eq_none_iff, ?_⟩⟩
  intro ops pick hops hnone hsome
  -- The operations that are picked from are the near ones.
  have hmem (op : Operation) : op ∈ (ops.filter fun op =>
      Text.distance name.toList op.name.toList ≤ maxSuggestionDistance) ↔ Near name op := by
    rw [List.mem_filter, decide_eq_true_eq, near_iff]
    exact and_iff_right (hops op)
  generalize (ops.filter fun op =>
    Text.distance name.toList op.name.toList ≤ maxSuggestionDistance) = near at hmem ⊢
  cases hpick : pick near with
  | none =>
    refine (suggest?_eq_none_iff.2 fun op hop => ?_).symm
    have hin := (hmem op).2 hop
    rw [hnone near hpick] at hin
    cases hin
  | some op => exact (suggest?_eq_some_iff.2 ((hmem op).1 (hsome near op hpick))).symm

/-- Two edits away a name is still understood, and it does not matter in which order the operations
are looked through. -/
theorem suggest?_unambiguous_reversed :
    suggest? "subtrac.." = some subtract ∧ Near "subtrac.." subtract ∧
      suggest? "print" = none ∧ (∀ op, ¬ Near "print" op) ∧
      ((all.reverse.filter fun op => Text.distance "ultipl".toList op.name.toList ≤
        maxSuggestionDistance).getLast? = suggest? "ultipl") ∧
      suggest? "ultipl" = some multiply := by
  have hsubtract : suggest? "subtrac.." = some subtract := by decide
  have hprint : suggest? "print" = none := by decide
  obtain ⟨-, h⟩ := suggest?_unambiguous
  refine ⟨hsubtract, ((h "subtrac..").2.1 subtract).1 hsubtract, hprint,
    (h "print").2.2.1.1 hprint, ?_, by decide⟩
  refine (h "ultipl").2.2.2 all.reverse List.getLast? (fun op => ?_) (fun l => ?_) (fun l op => ?_)
  · exact List.mem_reverse.2 (mem_all op)
  · exact List.getLast?_eq_none_iff.1
  · exact List.mem_of_getLast?

end Operation

end LazyRegisters
