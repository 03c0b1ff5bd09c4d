import LazyRegisters.Proofs.Reading
import Mathlib

/-!
# Letters of either case

A program may be written in any case: changing the case of letters of ASCII, wherever they stand,
changes none of its lines (`Script.read_eq_of_sameLetters`).

Only the capital sigma is lowered by what stands around it, and there a letter is cased and not
passed over in either case. All that reading a program makes of a character is collected in `Alike`,
and each step of reading keeps texts alike character by character.
-/

namespace LazyRegisters

namespace Text

/-- The same character, but for the case of a letter of ASCII. -/
def SameLetter (c d : Char) : Prop := d = c ∨ d = c.toLower ∨ d = c.toUpper

instance : DecidableRel SameLetter := fun c d =>
  inferInstanceAs (Decidable (d = c ∨ d = c.toLower ∨ d = c.toUpper))

/-- Characters that make no difference to the reading of a program. -/
structure Alike (c d : Char) : Prop where
  lowerChar_eq : lowerChar c = lowerChar d
  isCased_eq : isCased c = isCased d
  isCaseIgnorable_eq : isCaseIgnorable c = isCaseIgnorable d
  isWhiteSpace_eq : isWhiteSpace c = isWhiteSpace d
  lineFeed_iff : c = '\n' ↔ d = '\n'
  sigma_iff : c = 'Σ' ↔ d = 'Σ'

variable {c d : Char} {cs ds before before' : List Char}

/-! ## Characters -/

theorem alike_refl (c : Char) : Alike c c := ⟨rfl, rfl, rfl, rfl, Iff.rfl, Iff.rfl⟩

theorem toNat_of_isAlpha (h : c.isAlpha) :
    0x41 ≤ c.toNat ∧ c.toNat ≤ 0x5a ∨ 0x61 ≤ c.toNat ∧ c.toNat ≤ 0x7a := by
  simpa [Char.isAlpha, Char.isUpper, Char.isLower, UInt32.le_iff_toNat_le] using h

theorem isCased_of_isAlpha (h : c.isAlpha) : isCased c := by
  refine List.any_eq_true.2 ?_
  rcases toNat_of_isAlpha h with h | h
  · exact ⟨(0x41, 0x5a), by decide, by simpa using h⟩
  · exact ⟨(0x61, 0x7a), by decide, by simpa using h⟩

/-- No letter of ASCII lies in ranges that leave them out. -/
theorem inRanges_eq_false_of_isAlpha {ranges : List (Nat × Nat)}
    (hranges : ∀ r ∈ ranges, r.2 < 0x41 ∨ 0x5a < r.1 ∧ r.2 < 0x61 ∨ 0x7a < r.1) (h : c.isAlpha) :
    inRanges ranges c = false := by
  refine List.any_eq_false.2 fun r hr hin => ?_
  have hout := hranges r hr
  have hletter := toNat_of_isAlpha h
  rw [Bool.and_eq_true, decide_eq_true_eq, decide_eq_true_eq] at hin
  omega

theorem isCaseIgnorable_of_isAlpha (h : c.isAlpha) : isCaseIgnorable c = false :=
  inRanges_eq_false_of_isAlpha (by decide +kernel) h

theorem isWhiteSpace_of_isAlpha (h : c.isAlpha) : isWhiteSpace c = false :=
  inRanges_eq_false_of_isAlpha (by decide) h

theorem lowerChar_of_isAlpha (h : c.isAlpha) : lowerChar c = [c.toLower] := by
  have hletter := toNat_of_isAlpha h
  exact if_pos (by omega)

theorem ne_of_isAlpha {e : Char} (h : c.isAlpha) (he : e.isAlpha = false) : c ≠ e := by
  rintro rfl
  rw [h] at he
  cases he

/-- Letters that differ in case are lowered alike, and reading makes no other use of a letter. -/
theorem alike_of_toLower_eq (h : c.toLower = d.toLower) : Alike c d := by
  have hletter : c.isAlpha = d.isAlpha := by
    rw [← Char.isAlpha_toLower_eq_isAlpha, h, Char.isAlpha_toLower_eq_isAlpha]
  by_cases hc : c.isAlpha
  · have hd : d.isAlpha := hletter ▸ hc
    refine ⟨?_, ?_, ?_, ?_, ?_, ?_⟩
    · rw [lowerChar_of_isAlpha hc, lowerChar_of_isAlpha hd, h]
    · rw [isCased_of_isAlpha hc, isCased_of_isAlpha hd]
    · rw [isCaseIgnorable_of_isAlpha hc, isCaseIgnorable_of_isAlpha hd]
    · rw [isWhiteSpace_of_isAlpha hc, isWhiteSpace_of_isAlpha hd]
    · exact iff_of_false (ne_of_isAlpha hc (by decide)) (ne_of_isAlpha hd (by decide))
    · exact iff_of_false (ne_of_isAlpha hc (by decide)) (ne_of_isAlpha hd (by decide))
  · have hnot {e : Char} (he : ¬ e.isAlpha) : e.toLower = e :=
      Char.toLower_eq_of_not_isUpper fun hupper => he (by rw [Char.isAlpha, hupper, Bool.true_or])
    rw [hnot hc, hnot (hletter ▸ hc)] at h
    exact h ▸ alike_refl c

theorem SameLetter.alike (h : SameLetter c d) : Alike c d := by
  apply alike_of_toLower_eq
  obtain rfl | rfl | rfl := h
  · rfl
  · rw [Char.toLower_toLower_eq_toLower]
  · rw [Char.toLower_toUpper_eq_toLower]

/-! ## Lines -/

theorem forall₂_dropWhile {α : Type} {R : α → α → Prop} {p : α → Bool} {l m : List α}
    (hp : ∀ a b, R a b → p a = p b) (h : List.Forall₂ R l m) :
    List.Forall₂ R (l.dropWhile p) (m.dropWhile p) := by
  induction h with
  | nil => exact .nil
  | @cons a b l m hab hlm ih =>
    rw [List.dropWhile_cons, List.dropWhile_cons, hp a b hab]
    split
    · exact ih
    · exact .cons hab hlm

theorem forall₂_trim (h : List.Forall₂ Alike cs ds) : List.Forall₂ Alike (trim cs) (trim ds) := by
  have hspace : ∀ a b, Alike a b → isWhiteSpace a = isWhiteSpace b := fun _ _ => (·.isWhiteSpace_eq)
  exact List.rel_reverse
    (forall₂_dropWhile hspace (List.rel_reverse (forall₂_dropWhile hspace h)))

theorem forall₂_linesFrom {started started' : List Char} (h : List.Forall₂ Alike cs ds)
    (hstarted : List.Forall₂ Alike started started') :
    List.Forall₂ (List.Forall₂ Alike) (linesFrom '\n' started cs) (linesFrom '\n' started' ds) := by
  induction h generalizing started started' with
  | nil =>
    cases hstarted with
    | nil => exact .nil
    | cons hab hrest => exact .cons (List.rel_reverse (.cons hab hrest)) .nil
  | @cons c d cs ds hcd hrest ih =>
    rw [linesFrom, linesFrom]
    by_cases hc : c = '\n'
    · rw [if_pos hc, if_pos (hcd.lineFeed_iff.1 hc)]
      exact .cons (List.rel_reverse hstarted) (ih .nil)
    · rw [if_neg hc, if_neg (hcd.lineFeed_iff.not.1 hc)]
      exact ih (.cons hcd hstarted)

/-! ## Lowercase -/

theorem startsCased_congr (h : List.Forall₂ Alike cs ds) : startsCased cs = startsCased ds := by
  have hdrop := forall₂_dropWhile (p := isCaseIgnorable) (fun _ _ => (·.isCaseIgnorable_eq)) h
  unfold startsCased
  generalize cs.dropWhile isCaseIgnorable = l, ds.dropWhile isCaseIgnorable = m at hdrop
  cases hdrop with
  | nil => rfl
  | cons hab _ => exact hab.isCased_eq

theorem lowerBetween_congr (hbefore : List.Forall₂ Alike before before') (hcd : Alike c d)
    (hafter : List.Forall₂ Alike cs ds) :
    lowerBetween before c cs = lowerBetween before' d ds := by
  unfold lowerBetween
  rw [startsCased_congr hbefore, startsCased_congr hafter, hcd.lowerChar_eq]
  simp only [hcd.sigma_iff]

theorem lowerAfter_congr (h : List.Forall₂ Alike cs ds)
    (hbefore : List.Forall₂ Alike before before') :
    lowerAfter before cs = lowerAfter before' ds := by
  induction h generalizing before before' with
  | nil => rfl
  | cons hcd hrest ih =>
    rw [lowerAfter, lowerAfter, lowerBetween_congr hbefore hcd hrest, ih (.cons hcd hbefore)]

end Text

namespace Script

variable {cs ds : List Char} {text text' : String}

theorem clean_congr (h : List.Forall₂ Text.Alike cs ds) : clean cs = clean ds := by
  rw [clean, clean, Text.lower, Text.lower, Text.lowerAfter_congr (Text.forall₂_trim h) .nil]

theorem map_clean_splitLines_congr (h : List.Forall₂ Text.Alike cs ds) :
    (Text.splitLines '\n' cs).map clean = (Text.splitLines '\n' ds).map clean := by
  have hlines := List.rel_map (R := List.Forall₂ Text.Alike) (P := Eq) (fun _ _ => clean_congr)
    (Text.forall₂_linesFrom h .nil)
  rwa [List.forall₂_eq_eq_eq] at hlines

theorem ofText_congr (h : List.Forall₂ Text.Alike text.toList text'.toList) :
    ofText text = ofText text' := by
  rw [ofText, ofText, map_clean_splitLines_congr h]

theorem fromUTF8?_toByteArray (text : String) :
    String.fromUTF8? text.toByteArray = some text := by
  rw [fromUTF8?_eq_some_iff, ← String.utf8Encode_toList]
  exact toList_toByteArray _

theorem ofFile_toByteArray (text : String) :
    ofFile (some text.toByteArray) = .ok (ofText text) := by
  rw [ofFile, fromUTF8?_toByteArray]

/-- **Programs may be written in any case.** Texts that differ in the case of letters of ASCII are the
same program, from a file or typed, and are answered with the same transcript. -/
theorem read_eq_of_sameLetters (h : List.Forall₂ Text.SameLetter text.toList text'.toList) :
    ofText text = ofText text' ∧
      ofTyped text.toByteArray = ofTyped text'.toByteArray ∧
      Console.Batch.ofFile (some text.toByteArray) =
        Console.Batch.ofFile (some text'.toByteArray) ∧
      Console.Batch.ofTyped text.toByteArray = Console.Batch.ofTyped text'.toByteArray := by
  have htext := ofText_congr (h.imp fun _ _ => Text.SameLetter.alike)
  have htyped : ofTyped text.toByteArray = ofTyped text'.toByteArray := by
    rw [ofTyped_eq_heeded (fromUTF8?_toByteArray text),
      ofTyped_eq_heeded (fromUTF8?_toByteArray text'), htext]
  refine ⟨htext, htyped, ?_, ?_⟩
  · rw [Console.Batch.ofFile, Console.Batch.ofFile, ofFile_toByteArray, ofFile_toByteArray, htext]
  · rw [Console.Batch.ofTyped, Console.Batch.ofTyped, htyped]

/-- A letter of either case keeps a sigma before it from being final, also from behind a full
stop. -/
theorem read_eq_of_sameLetters_sigma :
    let text := "aΣ add 2\nAΣ.b add aΣ\nprint aΣ.B\nquit\nprint b"
    let text' := "AΣ ADD 2\naΣ.B Add AΣ\nPrint AΣ.b\nQUIT\nPRINT b"
    List.Forall₂ Text.SameLetter text.toList text'.toList ∧
      ofText text = ofText text' ∧
      ofTyped text.toByteArray = .ok ["aς add 2", "aσ.b add aς", "print aσ.b"] ∧
      Console.Batch.ofTyped text.toByteArray = .outputLines ["", "2"] := by
  intro text text'
  have hletters : List.Forall₂ Text.SameLetter text.toList text'.toList := by decide
  obtain ⟨htext, htyped, -, houtput⟩ := read_eq_of_sameLetters hletters
  exact ⟨hletters, htext, htyped.trans (by decide +kernel), houtput.trans (by decide +kernel)⟩

end Script

end LazyRegisters
