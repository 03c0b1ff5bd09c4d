import LazyRegisters.Number.Numeral
import LazyRegisters.Proofs.Binary64
import LazyRegisters.Proofs.Rounding
import Mathlib.Data.List.DropRight

/-!
# How decimals are spelled

A decimal is read from digits around a point and an exponent behind them (`Spelled`). Its
significant digits are those digits without the zeros at both ends. These zeros only move the
exponent, so for a word that is a finite number there is a decimal of no more digits that rounds to
it (`exists_roundsTo_of_ofWord?`).
-/

namespace LazyRegisters.Number

/-! ## The value of digits -/

section Digits

variable {cs : List Char} {c : Char}

theorem digit_lt (h : c.isDigit) : c.toNat - '0'.toNat < 10 := by
  have hle : c.val ≤ '9'.val := by
    unfold Char.isDigit at h
    simp only [Bool.and_eq_true, decide_eq_true_eq] at h
    exact h.2
  have hnat : c.toNat ≤ 57 := hle
  have hzero : '0'.toNat = 48 := rfl
  omega

theorem ofDigitChars_lt (h : ∀ c ∈ cs, c.isDigit) :
    Nat.ofDigitChars 10 cs 0 < tenPow cs.length := by
  induction cs with
  | nil => decide
  | cons c cs ih =>
    have hc := digit_lt (h c List.mem_cons_self)
    have hcs := ih fun d hd => h d (List.mem_cons_of_mem c hd)
    have hmul : 10 ^ cs.length * (c.toNat - '0'.toNat + 1) ≤ 10 ^ cs.length * 10 :=
      Nat.mul_le_mul_left _ hc
    rw [tenPow_eq] at hcs ⊢
    rw [Nat.ofDigitChars_cons, Nat.mul_zero, Nat.zero_add, Nat.ofDigitChars_eq_ofDigitChars_zero,
      List.length_cons, Nat.pow_succ]
    rw [Nat.mul_add, Nat.mul_one] at hmul
    omega

end Digits

/-! ## Significant digits -/

/-- The digits before the exponent. -/
def mantissaDigits (cs : List Char) : List Char :=
  (cs.takeWhile fun c => c != 'e' && c != 'E').filter Char.isDigit

/-- Digits without the zeros at both ends. -/
def stripZeros (cs : List Char) : List Char :=
  (cs.dropWhile (· == '0')).rdropWhile (· == '0')

def significantDigits (word : String) : Nat := (stripZeros (mantissaDigits word.toList)).length

theorem length_stripZeros_le (m : List Char) (i j : Nat) :
    (stripZeros (List.replicate i '0' ++ (m ++ List.replicate j '0'))).length ≤ m.length := by
  have hzeros {n : Nat} : ∀ c ∈ List.replicate n '0', c == '0' := by
    intro c hc
    rw [(List.mem_replicate.1 hc).2]
    rfl
  have hright (l : List Char) : ((l ++ List.replicate j '0').rdropWhile (· == '0')).length ≤
      l.length := by
    rw [List.rdropWhile, List.reverse_append, List.reverse_replicate,
      List.dropWhile_append_of_pos hzeros, List.length_reverse]
    exact (List.dropWhile_sublist _).length_le.trans_eq List.length_reverse
  unfold stripZeros
  rw [List.dropWhile_append_of_pos hzeros, List.dropWhile_append]
  split
  · rw [List.dropWhile_replicate, if_pos (beq_self_eq_true '0')]
    exact Nat.zero_le _
  · exact (hright _).trans (List.dropWhile_sublist _).length_le

theorem exists_stripZeros (cs : List Char) : ∃ i j,
    cs = List.replicate i '0' ++ (stripZeros cs ++ List.replicate j '0') := by
  have hreplicate {l : List Char} (h : ∀ c ∈ l, c == '0') : ∃ n, l = List.replicate n '0' :=
    ⟨l.length, List.eq_replicate_iff.2 ⟨rfl, fun c hc => beq_iff_eq.1 (h c hc)⟩⟩
  obtain ⟨i, hi⟩ := hreplicate (l := cs.takeWhile (· == '0'))
    fun c hc => List.mem_takeWhile_imp (p := (· == '0')) hc
  obtain ⟨j, hj⟩ := hreplicate (l := (cs.dropWhile (· == '0')).rtakeWhile (· == '0'))
    fun c hc => List.mem_rtakeWhile_imp (p := (· == '0')) hc
  refine ⟨i, j, ?_⟩
  rw [← hi, ← hj, stripZeros, List.rdropWhile_append_rtakeWhile, List.takeWhile_append_dropWhile]

/-- Zeros in front count for nothing, and zeros behind are in the exponent. -/
theorem exists_value_eq (cs : List Char) (e : Int) (hdigits : ∀ c ∈ cs, c.isDigit) :
    ∃ d : Decimal, d.value = (Decimal.mk (Nat.ofDigitChars 10 cs 0) e).value ∧
      d.coefficient < tenPow (stripZeros cs).length := by
  obtain ⟨i, j, hcs⟩ := exists_stripZeros cs
  have hstripped : ∀ c ∈ stripZeros cs, c.isDigit := by
    intro c hc
    refine hdigits c ?_
    rw [hcs]
    exact List.mem_append_right _ (List.mem_append_left _ hc)
  refine ⟨⟨Nat.ofDigitChars 10 (stripZeros cs) 0, e + j⟩, ?_, ofDigitChars_lt hstripped⟩
  have hvalue : Nat.ofDigitChars 10 cs 0 = 10 ^ j * Nat.ofDigitChars 10 (stripZeros cs) 0 := by
    conv_lhs => rw [hcs]
    rw [Nat.ofDigitChars_append, Nat.ofDigitChars_append, Nat.ofDigitChars_replicate_zero,
      Nat.ofDigitChars_replicate_zero, Nat.mul_zero]
  rw [Decimal.value, Decimal.value, hvalue, zpow_add₀ (by norm_num), zpow_natCast]
  push_cast
  ring

/-! ## What is read -/

/-- A decimal is spelled by digits before a point, digits behind it and an exponent. The point may
be missing where no digits are behind it. -/
structure Spelled (cs : List Char) (d : Decimal) (whole point fraction exponent : List Char) :
    Prop where
  eq : cs = whole ++ (point ++ (fraction ++ exponent))
  whole_digits : ∀ c ∈ whole, c.isDigit
  point_eq : point = ['.'] ∨ point = [] ∧ fraction = []
  fraction_digits : ∀ c ∈ fraction, c.isDigit
  ne_nil : whole ++ fraction ≠ []
  coefficient_eq : d.coefficient = Nat.ofDigitChars 10 (whole ++ fraction) 0
  exponent_eq : Numeral.readExponent? exponent = some (d.exponent + fraction.length)

theorem splitFraction_cases (cs : List Char) :
    (∃ rest, cs = '.' :: rest ∧ Numeral.splitFraction cs =
      (rest.takeWhile Char.isDigit, rest.dropWhile Char.isDigit)) ∨
    Numeral.splitFraction cs = ([], cs) := by
  unfold Numeral.splitFraction
  split
  · next rest => exact .inl ⟨rest, rfl, rfl⟩
  · exact .inr rfl

/-- What is read is spelled. -/
theorem exists_spelled {cs : List Char} {d : Decimal} (h : Numeral.readDecimal? cs = some d) :
    ∃ whole point fraction exponent, Spelled cs d whole point fraction exponent := by
  have hdigits {l : List Char} : ∀ c ∈ l.takeWhile Char.isDigit, c.isDigit :=
    fun _ hc => List.mem_takeWhile_imp hc
  have hcs : cs.takeWhile Char.isDigit ++ cs.dropWhile Char.isDigit = cs :=
    List.takeWhile_append_dropWhile
  unfold Numeral.readDecimal? at h
  dsimp only at h
  obtain ⟨rest, hrest, hsplit⟩ | hsplit := splitFraction_cases (cs.dropWhile Char.isDigit)
  · rw [hsplit] at h
    dsimp only at h
    split at h
    · cases h
    · next hne =>
      obtain ⟨e, he, rfl⟩ := Option.map_eq_some_iff.1 h
      refine ⟨cs.takeWhile Char.isDigit, ['.'], rest.takeWhile Char.isDigit,
        rest.dropWhile Char.isDigit, ?_, hdigits, .inl rfl, hdigits, ?_, rfl, ?_⟩
      · rw [List.takeWhile_append_dropWhile, List.singleton_append, ← hrest, hcs]
      · rwa [Ne, List.append_eq_nil_iff]
      · rw [he, Int.sub_add_cancel]
  · rw [hsplit] at h
    dsimp only at h
    split at h
    · cases h
    · next hne =>
      obtain ⟨e, he, rfl⟩ := Option.map_eq_some_iff.1 h
      refine ⟨cs.takeWhile Char.isDigit, [], [], cs.dropWhile Char.isDigit, hcs.symm, hdigits,
        .inr ⟨rfl, rfl⟩, nofun, ?_, rfl, ?_⟩
      · rwa [Ne, List.append_eq_nil_iff]
      · rw [he, Int.sub_add_cancel]

theorem exponent_cases {cs : List Char} {e : Int} (h : Numeral.readExponent? cs = some e) :
    cs = [] ∨ ∃ c rest, cs = c :: rest ∧ (c = 'e' ∨ c = 'E') := by
  cases cs with
  | nil => exact .inl rfl
  | cons c rest =>
    by_cases hc : c = 'e' ∨ c = 'E'
    · exact .inr ⟨c, rest, rfl, hc⟩
    · rw [Numeral.readExponent?, if_neg hc] at h
      cases h

/-! ## The digits that are read -/

section MantissaDigits

variable {cs : List Char}

theorem mantissaDigits_digits {ds : List Char} (h : ∀ c ∈ ds, c.isDigit) (cs : List Char) :
    mantissaDigits (ds ++ cs) = ds ++ mantissaDigits cs := by
  have hds : ∀ c ∈ ds, (c != 'e' && c != 'E') = true := by
    intro c hc
    have hdigit := h c hc
    rw [Bool.and_eq_true, bne_iff_ne, bne_iff_ne]
    constructor <;> rintro rfl <;> cases hdigit
  unfold mantissaDigits
  rw [List.takeWhile_append_of_pos hds, List.filter_append, List.filter_eq_self.2 h]

theorem mantissaDigits_exponent {e : Int} (h : Numeral.readExponent? cs = some e) :
    mantissaDigits cs = [] := by
  obtain rfl | ⟨c, rest, rfl, rfl | rfl⟩ := exponent_cases h <;> rfl

theorem Spelled.mantissaDigits_eq {d : Decimal} {whole point fraction exponent : List Char}
    (h : Spelled cs d whole point fraction exponent) : mantissaDigits cs = whole ++ fraction := by
  have hpoint (rest : List Char) : mantissaDigits (point ++ rest) = mantissaDigits rest := by
    obtain hp | ⟨hp, -⟩ := h.point_eq <;> rw [hp] <;> rfl
  rw [h.eq, mantissaDigits_digits h.whole_digits, hpoint,
    mantissaDigits_digits h.fraction_digits, mantissaDigits_exponent h.exponent_eq, List.append_nil]

theorem mantissaDigits_splitSign (cs : List Char) :
    mantissaDigits (Numeral.splitSign cs).2 = mantissaDigits cs := by
  unfold Numeral.splitSign
  split <;> rfl

theorem mantissaDigits_filter (cs : List Char) :
    mantissaDigits (cs.filter (· != '_')) = mantissaDigits cs := by
  unfold mantissaDigits
  induction cs with
  | nil => rfl
  | cons c cs ih =>
    by_cases hc : c = '_'
    · rw [hc]
      exact ih
    · rw [List.filter_cons_of_pos (by simpa using hc), List.takeWhile_cons, List.takeWhile_cons]
      split
      · rw [List.filter_cons, List.filter_cons, ih]
      · rfl

end MantissaDigits

/-! ## Words that are numbers -/

/-- What is read is a name, or a decimal behind the sign. -/
theorem read?_cases {cs : List Char} {numeral : Numeral} (h : Numeral.read? cs = some numeral) :
    String.ofList ((Numeral.splitSign cs).2.map Char.toLower) ∈ ["inf", "infinity", "nan"] ∧
        (∀ negative d, numeral ≠ .finite negative d) ∨
      ∃ d, numeral = .finite (Numeral.splitSign cs).1 d ∧
        Numeral.readDecimal? (Numeral.splitSign cs).2 = some d := by
  unfold Numeral.read? at h
  dsimp only at h
  split at h
  · next hnan =>
    obtain rfl := Option.some.inj h
    exact .inl ⟨by simp [hnan], nofun⟩
  · split at h
    · next hname =>
      obtain rfl := Option.some.inj h
      exact .inl ⟨by rcases hname with hname | hname <;> simp [hname], nofun⟩
    · obtain ⟨d, hd, heq⟩ := Option.map_eq_some_iff.1 h
      exact .inr ⟨d, heq.symm, hd⟩

theorem read?_eq_finite {cs : List Char} {negative : Bool} {d : Decimal}
    (h : Numeral.read? cs = some (.finite negative d)) :
    (Numeral.splitSign cs).1 = negative ∧
      Numeral.readDecimal? (Numeral.splitSign cs).2 = some d := by
  obtain ⟨-, hne⟩ | ⟨d', heq, hd⟩ := read?_cases h
  · exact absurd rfl (hne negative d)
  · cases heq
    exact ⟨rfl, hd⟩

/-- Where a finite number is read, there is a decimal that rounds to it, of no more digits than the
word has significant ones. -/
theorem exists_roundsTo_of_ofWord? {word : String} {x : Float} (h : ofWord? word = some x)
    (hfinite : magnitude x < infinity) :
    ∃ d : Decimal, RoundsTo d.value (magnitude x) ∧
      d.coefficient < tenPow (significantDigits word) := by
  unfold ofWord? at h
  dsimp only at h
  split at h
  · obtain ⟨numeral, hread, rfl⟩ := Option.map_eq_some_iff.1 h
    cases numeral with
    | notANumber => exact absurd hfinite (by decide)
    | infinite negative =>
      rw [Numeral.toFloat, magnitude_ofMagnitude _ (Nat.le_refl _)] at hfinite
      exact absurd hfinite (Nat.lt_irrefl _)
    | finite negative d =>
      have hrounds := d.roundsTo_magnitude
      obtain ⟨whole, point, fraction, exponent, hspelled⟩ := exists_spelled (read?_eq_finite hread).2
      have hdigits : ∀ c ∈ whole ++ fraction, c.isDigit := fun c hc =>
        (List.mem_append.1 hc).elim (hspelled.whole_digits c) (hspelled.fraction_digits c)
      obtain ⟨d', hvalue, hlt⟩ := exists_value_eq (whole ++ fraction) d.exponent hdigits
      rw [← hspelled.coefficient_eq] at hvalue
      rw [← hspelled.mantissaDigits_eq, mantissaDigits_splitSign, mantissaDigits_filter] at hlt
      rw [Numeral.toFloat, magnitude_ofMagnitude _ hrounds.le_infinity]
      exact ⟨d', hvalue ▸ hrounds, hlt⟩
  · cases h

end LazyRegisters.Number
