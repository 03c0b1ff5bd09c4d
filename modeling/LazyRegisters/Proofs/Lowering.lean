import LazyRegisters.Text.Blank
import LazyRegisters.Text.Lowercase
import Mathlib.Data.List.Basic

/-!
# Lowered texts

What a character is lowered to is not lowered any further and is no white space, unless the
character was. Both are read off the table: the characters that one run is lowered to are compared
with every other run and with the white space (`LowerRun.misses`). Hence lowering a text a second
time changes nothing (`lowerAfter_eq_self`), and no white space comes to stand at its ends.
-/

namespace LazyRegisters.Text

/-! ## The table -/

namespace LowerRun

/-- What the first character of a run is lowered to. -/
def low (r : LowerRun) : Nat := (r.first + r.offset).toNat

/-- What the last character of a run is lowered to. -/
def high (r : LowerRun) : Nat := (r.last + r.offset).toNat

/-- The characters that `r` is lowered to lie outside of `q`, or alternate with those of `q`. -/
def misses (r q : LowerRun) : Bool :=
  r.high.blt q.first || q.last.blt r.low ||
    (r.step == 2 || r.first == r.last) && q.step == 2 && (r.low + q.first) % 2 == 1

/-- The character of this number belongs to the run. -/
def Has (r : LowerRun) (n : Nat) : Prop :=
  r.first ≤ n ∧ n ≤ r.last ∧ (n - r.first) % r.step = 0

variable {r q : LowerRun} {n : Nat}

theorem Has.low_le (h : r.Has n) : r.low ≤ (n + r.offset).toNat := by
  have := h.1
  unfold low
  omega

theorem Has.le_high (h : r.Has n) : (n + r.offset).toNat ≤ r.high := by
  have := h.2.1
  unfold high
  omega

theorem Has.not_has_of_misses (h : r.Has n) (hlow : 0 < r.low) (hmiss : r.misses q) :
    ¬ q.Has (n + r.offset).toNat := by
  intro hq
  obtain ⟨hfirst, hlast, hstep⟩ := h
  obtain ⟨hqfirst, hqlast, hqstep⟩ := hq
  simp only [misses, Bool.or_eq_true, Bool.and_eq_true, beq_iff_eq, Nat.blt_eq] at hmiss
  unfold low high at *
  rcases hmiss with (hbefore | hbehind) | ⟨⟨halternate, hqtwo⟩, hodd⟩
  · omega
  · omega
  · rw [hqtwo] at hqstep
    rcases halternate with htwo | hsingle
    · rw [htwo] at hstep
      omega
    · omega

end LowerRun

theorem misses_of_mem : ∀ r ∈ lowerRuns, lowerRuns.all r.misses := by decide +kernel

/-- All characters that runs are lowered to lie behind the capital letters of ASCII, and none of
them is a surrogate, the capital I with a dot, or white space. -/
theorem low_high_of_mem : ∀ r ∈ lowerRuns, 0x61 ≤ r.low ∧
    (r.high < 0xd800 ∨ 0xdfff < r.low ∧ r.high < 0x110000) ∧
    (r.high < 0x130 ∨ 0x130 < r.low) ∧
    ∀ w ∈ whiteSpaceRanges, r.high < w.1 ∨ w.2 < r.low := by
  decide +kernel

theorem toLower_ascii : ∀ n < 128,
    lowerChar (Char.ofNat n).toLower = [(Char.ofNat n).toLower] ∧
      (0x61 ≤ n → (Char.ofNat n).toLower = Char.ofNat n) ∧
      (isWhiteSpace (Char.ofNat n) = false → isWhiteSpace (Char.ofNat n).toLower = false) := by
  decide

/-- The dot that an i is left with and the small sigmas are not lowered; the capital sigma is. -/
theorem lowerChar_dot_and_sigmas : lowerChar (Char.ofNat 0x307) = [Char.ofNat 0x307] ∧
    lowerChar 'σ' = ['σ'] ∧ lowerChar 'ς' = ['ς'] ∧ lowerChar 'Σ' ≠ ['Σ'] := by
  decide

/-! ## Characters -/

variable {c d : Char}

/-- A character is lowered by ASCII, as the capital I with a dot, by a run, or not at all. -/
theorem lowerChar_cases (c : Char) :
    (c.toNat < 128 ∧ lowerChar c = [c.toLower]) ∨
      lowerChar c = ['i', Char.ofNat 0x307] ∨
      (∃ r ∈ lowerRuns, r.Has c.toNat ∧ lowerChar c = [Char.ofNat (c.toNat + r.offset).toNat]) ∨
      lowerChar c = [c] := by
  unfold lowerChar
  split
  · next h => exact .inl ⟨h, rfl⟩
  · split
    · exact .inr (.inl rfl)
    · split
      · next r hr =>
        have hhas : r.Has c.toNat := by
          simpa [LowerRun.Has, and_assoc] using List.find?_some hr
        exact .inr (.inr (.inl ⟨r, List.mem_of_find?_eq_some hr, hhas, rfl⟩))
      · exact .inr (.inr (.inr rfl))

theorem toNat_of_has {r : LowerRun} {n : Nat} (hr : r ∈ lowerRuns) (h : r.Has n) :
    (Char.ofNat (n + r.offset).toNat).toNat = (n + r.offset).toNat := by
  obtain ⟨-, hvalid, -⟩ := low_high_of_mem r hr
  have hlow := h.low_le
  have hhigh := h.le_high
  have hchar : (n + r.offset).toNat.isValidChar := by
    unfold Nat.isValidChar
    omega
  rw [Char.ofNat, dif_pos hchar]
  rfl

theorem lowerChar_of_has {r : LowerRun} {n : Nat} (hr : r ∈ lowerRuns) (h : r.Has n) :
    lowerChar (Char.ofNat (n + r.offset).toNat) = [Char.ofNat (n + r.offset).toNat] := by
  obtain ⟨hascii, -, hdot, -⟩ := low_high_of_mem r hr
  have hlow := h.low_le
  have hhigh := h.le_high
  have hmisses := List.all_eq_true.1 (misses_of_mem r hr)
  unfold lowerChar
  rw [toNat_of_has hr h]
  split
  · next hlt => rw [(toLower_ascii _ hlt).2.1 (by omega)]
  · rw [if_neg (by omega)]
    have hnone : lowerRuns.find? (fun q =>
        q.first ≤ (n + r.offset).toNat && (n + r.offset).toNat ≤ q.last &&
          ((n + r.offset).toNat - q.first) % q.step == 0) = none := by
      refine List.find?_eq_none.2 fun q hq hhas => ?_
      refine h.not_has_of_misses (by omega) (hmisses q hq) ?_
      simpa [LowerRun.Has, and_assoc] using hhas
    rw [hnone]

/-- Lowering goes no further than one step. -/
theorem lowerChar_of_mem_lowerChar (h : d ∈ lowerChar c) : lowerChar d = [d] := by
  obtain ⟨hlt, hc⟩ | hc | ⟨r, hr, hhas, hc⟩ | hc := lowerChar_cases c
  · have hlower := (toLower_ascii c.toNat hlt).1
    rw [Char.ofNat_toNat] at hlower
    rw [hc] at h
    rw [List.mem_singleton.1 h, hlower]
  · rw [hc] at h
    rcases List.mem_cons.1 h with rfl | h
    · decide
    · rw [List.mem_singleton.1 h, lowerChar_dot_and_sigmas.1]
  · rw [hc] at h
    rw [List.mem_singleton.1 h, lowerChar_of_has hr hhas]
  · rw [hc] at h
    rw [List.mem_singleton.1 h, hc]

theorem isWhiteSpace_of_mem_lowerChar (h : d ∈ lowerChar c) (hc : isWhiteSpace c = false) :
    isWhiteSpace d = false := by
  obtain ⟨hlt, hlower⟩ | hlower | ⟨r, hr, hhas, hlower⟩ | hlower := lowerChar_cases c
  · have hspace := (toLower_ascii c.toNat hlt).2.2
    rw [Char.ofNat_toNat] at hspace
    rw [hlower] at h
    rw [List.mem_singleton.1 h, hspace hc]
  · rw [hlower] at h
    rcases List.mem_cons.1 h with rfl | h
    · decide
    · rw [List.mem_singleton.1 h]
      decide
  · obtain ⟨-, -, -, hspace⟩ := low_high_of_mem r hr
    have hlow := hhas.low_le
    have hhigh := hhas.le_high
    rw [hlower] at h
    rw [List.mem_singleton.1 h, isWhiteSpace, inRanges, toNat_of_has hr hhas, List.any_eq_false]
    intro w hw
    have := hspace w hw
    simp only [Bool.and_eq_true, decide_eq_true_eq]
    omega
  · rw [hlower] at h
    rw [List.mem_singleton.1 h, hc]

/-! ## Texts -/

theorem lowerBetween_ne_nil (before : List Char) (c : Char) (after : List Char) :
    lowerBetween before c after ≠ [] := by
  unfold lowerBetween
  split
  · simp
  · obtain ⟨-, h⟩ | h | ⟨r, -, -, h⟩ | h := lowerChar_cases c <;> simp [h]

theorem lowerChar_of_mem_lowerBetween {before after : List Char}
    (h : d ∈ lowerBetween before c after) : lowerChar d = [d] := by
  unfold lowerBetween at h
  split at h
  · rw [List.mem_singleton.1 h]
    split
    · exact lowerChar_dot_and_sigmas.2.2.1
    · exact lowerChar_dot_and_sigmas.2.1
  · exact lowerChar_of_mem_lowerChar h

theorem isWhiteSpace_of_mem_lowerBetween {before after : List Char}
    (h : d ∈ lowerBetween before c after) (hc : isWhiteSpace c = false) :
    isWhiteSpace d = false := by
  unfold lowerBetween at h
  split at h
  · rw [List.mem_singleton.1 h]
    split <;> decide
  · exact isWhiteSpace_of_mem_lowerChar h hc

/-- No character of a lowered text is lowered any further. -/
theorem lowerChar_of_mem_lowerAfter {before cs : List Char} (h : d ∈ lowerAfter before cs) :
    lowerChar d = [d] := by
  induction cs generalizing before with
  | nil => cases h
  | cons c cs ih =>
    rcases List.mem_append.1 h with h | h
    · exact lowerChar_of_mem_lowerBetween h
    · exact ih h

theorem lowerAfter_eq_self {before cs : List Char} (h : ∀ c ∈ cs, lowerChar c = [c]) :
    lowerAfter before cs = cs := by
  induction cs generalizing before with
  | nil => rfl
  | cons c cs ih =>
    have hc := h c List.mem_cons_self
    have hsigma : c ≠ 'Σ' := by
      rintro rfl
      exact lowerChar_dot_and_sigmas.2.2.2 hc
    rw [lowerAfter, lowerBetween, if_neg hsigma, hc, ih fun d hd => h d (List.mem_cons_of_mem c hd)]
    rfl

/-- The last character of a lowered text comes from the last character. -/
theorem exists_lowerAfter_concat (before cs : List Char) (c : Char) :
    ∃ ds, lowerAfter before (cs ++ [c]) = ds ++ lowerBetween (cs.reverse ++ before) c [] := by
  induction cs generalizing before with
  | nil => exact ⟨[], by simp [lowerAfter]⟩
  | cons b cs ih =>
    obtain ⟨ds, hds⟩ := ih (b :: before)
    refine ⟨lowerBetween before b (cs ++ [c]) ++ ds, ?_⟩
    rw [List.cons_append, lowerAfter, hds, List.append_assoc, List.reverse_cons,
      List.append_assoc]
    rfl

theorem head?_lower {cs : List Char} (h : ∀ c, cs.head? = some c → isWhiteSpace c = false)
    (hd : (lower cs).head? = some d) : isWhiteSpace d = false := by
  cases cs with
  | nil => cases hd
  | cons c cs =>
    rw [lower, lowerAfter, List.head?_append_of_ne_nil _ (lowerBetween_ne_nil _ _ _)] at hd
    exact isWhiteSpace_of_mem_lowerBetween (List.mem_of_head? hd) (h c rfl)

theorem getLast?_lower {cs : List Char} (h : ∀ c, cs.getLast? = some c → isWhiteSpace c = false)
    (hd : (lower cs).getLast? = some d) : isWhiteSpace d = false := by
  rcases List.eq_nil_or_concat' cs with rfl | ⟨cs, c, rfl⟩
  · cases hd
  · obtain ⟨ds, hds⟩ := exists_lowerAfter_concat [] cs c
    rw [lower, hds, List.getLast?_append_of_ne_nil _ (lowerBetween_ne_nil _ _ _)] at hd
    exact isWhiteSpace_of_mem_lowerBetween (List.mem_of_getLast? hd) (h c (by simp))

end LazyRegisters.Text
