import LazyRegisters.Proofs.CleanLines
import LazyRegisters.Proofs.NumberText
import LazyRegisters.Proofs.Representation
import LazyRegisters.Proofs.Words

/-!
# Commands read back

The text of a command is its words joined by single spaces, and it is read as the same command
(`Command.parse_text`): numbers read back to the last bit, and neither a number nor the name of a
register is taken for the other.
-/

namespace LazyRegisters

/-! ## The words of a command -/

theorem Number.isWord_text_plain (x : Float) : Text.IsWord (text .plain x) := by
  rcases Nat.lt_trichotomy (magnitude x) infinity with hlt | heq | hgt
  · have hcanonical := canonical_shortest hlt
    constructor
    · -- It reads back, and the empty word does not.
      intro hempty
      have hread := ofWord?_text_plain x
      have hnone : ofWord? "" = none := by decide
      rw [hempty, hnone] at hread
      cases hread
    · rw [text_of_lt_infinity hlt, String.toList_ofList]
      intro c hc
      rcases mem_signed_pointed hc with rfl | hc | rfl | hc
      · decide
      · exact Text.isSeparator_of_isDigit (hcanonical.whole_digits c hc)
      · decide
      · exact Text.isSeparator_of_isDigit (hcanonical.fraction_digits c hc)
  · rw [text_of_eq_infinity heq]
    cases isNegative x <;> exact Text.isWord_of_all (by decide) (by decide)
  · rw [text_of_infinity_lt hgt]
    exact Text.isWord_of_all (by decide) (by decide)

theorem Operand.ofWord_text {word : String} {operand : Operand String} (h : ofWord word = operand) :
    ofWord (operand.text .plain) = operand := by
  cases operand with
  | number x => rw [text, ofWord, Number.ofWord?_text_plain]
  | register name =>
    obtain ⟨rfl, hnone⟩ := ofWord_eq_register h
    rw [text, ofWord, hnone]

namespace Command

variable {c : Command} {line : String} {ws : List String}

theorem ofWords_eq_print {register : String} (h : ofWords ws = .ok (print register)) :
    ws = [printKeyword, register] := by
  unfold ofWords at h
  split at h
  · split at h <;> cases h
  · split at h
    · next hkeyword =>
      cases h
      rw [hkeyword]
    · cases h
  · split at h
    · cases h
    · split at h <;> cases h
  · cases h

theorem isWord_of_mem_toWords (h : ofWords (Text.words line) = .ok c) :
    ∀ w ∈ c.toWords, Text.IsWord w := by
  intro w hw
  cases c with
  | operate target op operand =>
    obtain ⟨name, word, hline, -, hoperand⟩ := ofWords_eq_operate h
    have hmem {w : String} (hw : w ∈ [target, name, word]) : Text.IsWord w :=
      Text.isWord_of_mem_words (hline ▸ hw)
    rw [toWords, List.mem_cons, List.mem_cons, List.mem_singleton] at hw
    rcases hw with rfl | rfl | rfl
    · exact hmem List.mem_cons_self
    · cases op <;> exact Text.isWord_of_all (by decide) (by decide)
    · cases operand with
      | number x => exact Number.isWord_text_plain x
      | register register =>
        obtain ⟨rfl, -⟩ := Operand.ofWord_eq_register hoperand
        exact hmem (List.mem_cons_of_mem _ (List.mem_cons_of_mem _ List.mem_cons_self))
  | print register =>
    rw [toWords, ← ofWords_eq_print h] at hw
    exact Text.isWord_of_mem_words hw
  | quit =>
    rw [toWords, ← ofWords_eq_quit_iff.1 h] at hw
    exact Text.isWord_of_mem_words hw

theorem ofWords_toWords (h : ofWords ws = .ok c) : ofWords c.toWords = .ok c := by
  cases c with
  | operate target op operand =>
    obtain ⟨name, word, -, htarget, hoperand⟩ := ofWords_eq_operate h
    rw [toWords, ofWords, Operation.ofName?_name]
    dsimp only
    rw [htarget, Operand.ofWord_text hoperand]
    rfl
  | print register => rfl
  | quit => rfl

/-- **What is parsed and written is parsed as the same command**, and written the same way. -/
theorem parse_text (h : parse line = .ok c) :
    parse c.text = .ok c ∧ (parse c.text).map text = .ok c.text := by
  have hwords := parse_eq_ok_iff.1 h
  have hparse : parse c.text = .ok c := by
    rw [parse_eq_ok_iff, text, Text.words_joinWords (isWord_of_mem_toWords hwords)]
    exact ofWords_toWords hwords
  rw [hparse]
  exact ⟨rfl, rfl⟩

/-- Separators are made single spaces, and the underscores of a number and zeros in it go. -/
theorem parse_text_negative_zero :
    let c := operate "total_1" .multiply (.number (Float.ofBits 0x8000000000000000))
    parse "total_1\t multiply  -0.0_0e9" = .ok c ∧ c.text = "total_1 multiply -0" ∧
      parse "total_1 multiply -0" = .ok c := by
  intro c
  have hparse : parse "total_1\t multiply  -0.0_0e9" = .ok c := by decide
  have htext : c.text = "total_1 multiply -0" := by decide
  exact ⟨hparse, htext, htext ▸ (parse_text hparse).1⟩

end Command

end LazyRegisters
