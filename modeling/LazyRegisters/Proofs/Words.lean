import LazyRegisters.Text.Word

/-!
# Words joined

What separates the words of a line does not count: joined by single spaces, they are the words of
the line that results (`words_joinWords`).
-/

namespace LazyRegisters.Text

/-- What a word of a line is. -/
structure IsWord (w : String) : Prop where
  ne_empty : w ≠ ""
  unseparated : ∀ c ∈ w.toList, isSeparator c = false

variable {w : String} {ws : List String}

theorem isSeparator_of_isDigit {c : Char} (h : c.isDigit) : isSeparator c = false := by
  rw [← Bool.not_eq_true]
  intro hsep
  unfold isSeparator at hsep
  rw [Bool.or_eq_true, Bool.or_eq_true, Bool.or_eq_true, Bool.or_eq_true, beq_iff_eq, beq_iff_eq,
    beq_iff_eq, beq_iff_eq, beq_iff_eq] at hsep
  rcases hsep with (((rfl | rfl) | rfl) | rfl) | rfl <;> cases h

theorem isWord_ofList {cs : List Char} (hne : cs ≠ []) (h : ∀ c ∈ cs, isSeparator c = false) :
    IsWord (String.ofList cs) := by
  refine ⟨fun hempty => hne (String.ofList_eq_empty_iff.1 hempty), ?_⟩
  rwa [String.toList_ofList]

theorem isWord_of_mem_words {line : String} (h : w ∈ words line) : IsWord w := by
  obtain ⟨cs, hcs, rfl⟩ := List.mem_map.1 h
  exact isWord_ofList (ne_nil_of_mem_fields hcs) (not_isBlank_of_mem_fields hcs)

theorem isWord_of_all (hne : w ≠ "") (h : w.toList.all (!isSeparator ·)) : IsWord w :=
  ⟨hne, fun c hc => by simpa using List.all_eq_true.1 h c hc⟩

theorem IsWord.toList_ne_nil (h : IsWord w) : w.toList ≠ [] :=
  fun hnil => h.ne_empty (String.toList_eq_nil_iff.1 hnil)

theorem words_singleton (h : IsWord w) : words w = [w] := by
  rw [words, fields_of_not_isBlank h.unseparated h.toList_ne_nil, List.map_singleton,
    String.ofList_toList]

theorem words_append_space (h : IsWord w) (rest : String) :
    words (w ++ " " ++ rest) = w :: words rest := by
  have hlist : (w ++ " " ++ rest).toList = w.toList ++ ' ' :: rest.toList := by
    rw [String.toList_append, String.toList_append, List.append_assoc]
    rfl
  rw [words, hlist, fields_append_cons h.unseparated h.toList_ne_nil (by decide), List.map_cons,
    String.ofList_toList, words]

/-- **The words of joined words are these words.** -/
theorem words_joinWords (h : ∀ w ∈ ws, IsWord w) : words (joinWords ws) = ws := by
  induction ws with
  | nil => decide
  | cons w ws ih =>
    have hw := h w List.mem_cons_self
    have hws := ih fun w' hw' => h w' (List.mem_cons_of_mem w hw')
    cases ws with
    | nil => rw [joinWords, String.intercalate_singleton, words_singleton hw]
    | cons w' ws =>
      rw [joinWords, String.intercalate_cons_cons, words_append_space hw, ← joinWords, hws]

end LazyRegisters.Text
