import LazyRegisters.Proofs.Lines
import LazyRegisters.Proofs.Lowering
import LazyRegisters.Script
import Mathlib.Data.List.DropRight

/-!
# Cleaned lines

The lines of a program have been trimmed and lowercased before they are obeyed. Neither end of such
a line is white space, so a line whose only word is `quit` is just that word; and none of its
characters is lowered any further.
-/

namespace LazyRegisters

namespace Text

variable {cs : List Char} {c : Char}

theorem trim_eq_rdropWhile (cs : List Char) :
    trim cs = (cs.dropWhile isWhiteSpace).rdropWhile isWhiteSpace := rfl

theorem getLast?_trim (h : (trim cs).getLast? = some c) : isWhiteSpace c = false := by
  have hlast := List.head?_dropWhile_not isWhiteSpace (cs.dropWhile isWhiteSpace).reverse
  rw [trim, List.getLast?_reverse] at h
  rw [h] at hlast
  exact hlast

theorem head?_trim (h : (trim cs).head? = some c) : isWhiteSpace c = false := by
  have hhead := List.head?_dropWhile_not isWhiteSpace cs
  obtain ⟨blanks, hblanks⟩ := List.rdropWhile_prefix isWhiteSpace (cs.dropWhile isWhiteSpace)
  rw [← trim_eq_rdropWhile] at hblanks
  rw [← hblanks, List.head?_append, h, Option.some_or] at hhead
  exact hhead

theorem trim_eq_self (hhead : ∀ c, cs.head? = some c → isWhiteSpace c = false)
    (hlast : ∀ c, cs.getLast? = some c → isWhiteSpace c = false) : trim cs = cs := by
  have hdrop : cs.dropWhile isWhiteSpace = cs := by
    cases cs with
    | nil => rfl
    | cons c cs => rw [List.dropWhile_cons_of_neg (by simp [hhead c rfl])]
  rw [trim_eq_rdropWhile, hdrop, List.rdropWhile_eq_self_iff]
  intro hne
  rw [hlast _ (List.getLast?_eq_some_getLast hne)]
  exact Bool.false_ne_true

theorem trim_cons (hc : isWhiteSpace c = false) (cs : List Char) :
    trim (c :: cs) = c :: cs.rdropWhile isWhiteSpace := by
  rw [trim_eq_rdropWhile, List.dropWhile_cons_of_neg (by simp [hc]), List.rdropWhile,
    List.reverse_cons, List.dropWhile_append, List.dropWhile_cons_of_neg (by simp [hc]),
    List.rdropWhile]
  split
  · next hempty => rw [List.isEmpty_iff.1 hempty]; rfl
  · rw [List.reverse_append]; rfl

theorem trim_append {blanks : List Char} (h : ∀ c ∈ blanks, isWhiteSpace c) (cs : List Char) :
    trim (cs ++ blanks) = trim cs := by
  rw [trim, trim, List.dropWhile_append]
  split
  · next hempty =>
    rw [List.isEmpty_iff.1 hempty, List.dropWhile_eq_nil_iff.2 h]
  · rw [List.reverse_append, List.dropWhile_append_of_pos fun c hc => h c (List.mem_reverse.1 hc)]

end Text

namespace Script

variable {cs : List Char} {c : Char}

theorem toList_clean (cs : List Char) : (clean cs).toList = Text.lower (Text.trim cs) :=
  String.toList_ofList

theorem head?_clean (h : (clean cs).toList.head? = some c) : Text.isWhiteSpace c = false := by
  rw [toList_clean] at h
  exact Text.head?_lower (fun _ => Text.head?_trim) h

theorem getLast?_clean (h : (clean cs).toList.getLast? = some c) :
    Text.isWhiteSpace c = false := by
  rw [toList_clean] at h
  exact Text.getLast?_lower (fun _ => Text.getLast?_trim) h

theorem lowerChar_of_mem_clean (h : c ∈ (clean cs).toList) : Text.lowerChar c = [c] := by
  rw [toList_clean] at h
  exact Text.lowerChar_of_mem_lowerAfter h

/-- White space at the end of a line does not matter. -/
theorem clean_append {blanks : List Char} (h : ∀ c ∈ blanks, Text.isWhiteSpace c)
    (cs : List Char) : clean (cs ++ blanks) = clean cs := by
  rw [clean, Text.trim_append h, ← clean]

theorem clean_eq_ofList (hhead : ∀ c, cs.head? = some c → Text.isWhiteSpace c = false)
    (hlast : ∀ c, cs.getLast? = some c → Text.isWhiteSpace c = false)
    (hlower : ∀ c ∈ cs, Text.lowerChar c = [c]) : clean cs = String.ofList cs := by
  rw [clean, Text.trim_eq_self hhead hlast, Text.lower, Text.lowerAfter_eq_self hlower]

theorem exists_clean_of_mem_ofText {text line : String} (h : line ∈ ofText text) :
    ∃ cs, line = clean cs := by
  have hmem : line ∈ (Text.splitLines '\n' text.toList).map clean := by
    unfold ofText at h
    dsimp only at h
    split at h
    · exact (List.dropLast_prefix _).subset h
    · exact h
  obtain ⟨cs, -, rfl⟩ := List.mem_map.1 hmem
  exact ⟨cs, rfl⟩

/-- A text without quit commands is obeyed as it is. -/
theorem ofText_eq_map {text : String}
    (h : ∀ cs ∈ Text.splitLines '\n' text.toList, clean cs ≠ Command.quitKeyword) :
    ofText text = (Text.splitLines '\n' text.toList).map clean := by
  unfold ofText
  dsimp only
  rw [if_neg]
  intro hlast
  obtain ⟨cs, hcs, hquit⟩ := List.mem_map.1 (List.mem_of_getLast? hlast)
  exact h cs hcs hquit

end Script

theorem Text.isSeparator_eq_false {c : Char} (h : Text.isWhiteSpace c = false) :
    Text.isSeparator c = false := by
  cases hc : Text.isSeparator c with
  | false => rfl
  | true => rw [Text.isWhiteSpace_of_isSeparator hc] at h; exact h

/-- Only the word `quit` ends the program. -/
theorem Command.ofWords_eq_quit_iff {ws : List String} :
    ofWords ws = .ok quit ↔ ws = [quitKeyword] := by
  constructor
  · intro h
    unfold ofWords at h
    split at h
    · split at h
      · next hword => rw [hword]
      · cases h
    · split at h <;> cases h
    · split at h
      · cases h
      · split at h <;> cases h
    · cases h
  · rintro rfl
    rfl

/-- A cleaned line ends the program if it is `quit` and nothing else. -/
theorem Script.ends_clean_iff (cs : List Char) :
    Calculator.ends (clean cs) ↔ clean cs = Command.quitKeyword := by
  rw [Calculator.ends_iff, Command.parse_eq_ok_iff, Command.ofWords_eq_quit_iff]
  constructor
  · intro h
    obtain ⟨w, hw, hquit⟩ := List.map_eq_singleton_iff.1 h
    have hline : (clean cs).toList = w := Text.eq_of_fields_eq_singleton
      (fun c hc => Text.isSeparator_eq_false (head?_clean hc))
      (fun c hc => Text.isSeparator_eq_false (getLast?_clean hc)) hw
    rw [← hquit, ← hline, String.ofList_toList]
  · intro h
    rw [h]
    decide

end LazyRegisters
