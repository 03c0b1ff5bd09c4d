import LazyRegisters.Number.Style
import LazyRegisters.Proofs.Numeral
import LazyRegisters.Proofs.Positional
import LazyRegisters.Proofs.Shortest

/-!
# Number texts read back

The text of a number is its sign and its shortest decimal in positional notation, and reading that
gives the number back (`ofWord?_text_plain`). As a result, a zero has no sign; up to that, numbers
with the same text are the same (`text_result_canonical`).
-/

namespace LazyRegisters.Number

def signed (negative : Bool) (cs : List Char) : List Char := if negative then '-' :: cs else cs

/-! ## Reading digits around a point -/

section Reading

variable {cs whole fraction : List Char}

theorem underscoresSeparate_of_not_mem (h : '_' ∉ cs) (previous : Option Char) :
    underscoresSeparate previous cs := by
  induction cs generalizing previous with
  | nil => rfl
  | cons c cs ih =>
    obtain ⟨hc, hcs⟩ := not_or.1 (mt List.mem_cons.2 h)
    have hne : (c != '_') = true := bne_iff_ne.2 (Ne.symm hc)
    rw [underscoresSeparate, hne, Bool.true_or, Bool.true_and]
    exact ih hcs _

theorem ofWord?_of_not_mem (h : '_' ∉ cs) :
    ofWord? (String.ofList cs) = (Numeral.read? cs).map Numeral.toFloat := by
  have hfilter : cs.filter (· != '_') = cs := by
    refine List.filter_eq_self.2 fun c hc => ?_
    rw [bne_iff_ne]
    rintro rfl
    exact h hc
  unfold ofWord?
  dsimp only
  rw [String.toList_ofList, if_pos (underscoresSeparate_of_not_mem h none), hfilter]

theorem toLower_of_isDigit {c : Char} (h : c.isDigit) : c.toLower = c := by
  have hlt : c.val ≤ '9'.val := by
    unfold Char.isDigit at h
    rw [Bool.and_eq_true, decide_eq_true_eq, decide_eq_true_eq] at h
    exact h.2
  unfold Char.toLower
  refine dif_neg fun hupper => ?_
  exact absurd (UInt32.le_trans hupper.1 hlt) (by decide)

theorem splitSign_signed {c : Char} (hc : c.isDigit) (negative : Bool) (cs : List Char) :
    Numeral.splitSign (signed negative (c :: cs)) = (negative, c :: cs) := by
  cases negative with
  | true => rfl
  | false =>
    have hcs : signed false (c :: cs) = c :: cs := rfl
    rw [hcs]
    unfold Numeral.splitSign
    split
    · next heq => cases (List.cons.inj heq).1 ▸ hc
    · next heq => cases (List.cons.inj heq).1 ▸ hc
    · rfl

theorem read?_of_splitSign {c : Char} {negative : Bool} {body : List Char}
    (hsign : Numeral.splitSign cs = (negative, c :: body)) (hc : c.isDigit ∨ c = '.') :
    Numeral.read? cs = (Numeral.readDecimal? (c :: body)).map (.finite negative) := by
  have hlower : c.toLower = c := by
    rcases hc with hc | rfl
    · exact toLower_of_isDigit hc
    · rfl
  have hname (name : String) (hne : name.toList.head? ≠ some c) :
      String.ofList ((c :: body).map Char.toLower) ≠ name := by
    rintro rfl
    rw [String.toList_ofList, List.map_cons, hlower] at hne
    exact hne rfl
  have hn : c ≠ 'n' := by
    rintro rfl
    rcases hc with hc | hc <;> cases hc
  have hi : c ≠ 'i' := by
    rintro rfl
    rcases hc with hc | hc <;> cases hc
  have hnan := hname "nan" fun heq => hn (Option.some.inj heq).symm
  have hinf := hname "inf" fun heq => hi (Option.some.inj heq).symm
  have hinfinity := hname "infinity" fun heq => hi (Option.some.inj heq).symm
  unfold Numeral.read?
  rw [hsign]
  dsimp only
  rw [if_neg hnan, if_neg (not_or.2 ⟨hinf, hinfinity⟩)]

theorem read?_signed {c : Char} (hc : c.isDigit) (negative : Bool) (cs : List Char) :
    Numeral.read? (signed negative (c :: cs)) =
      (Numeral.readDecimal? (c :: cs)).map (.finite negative) :=
  read?_of_splitSign (splitSign_signed hc negative cs) (.inl hc)

theorem readDecimal?_pointed (hwhole : ∀ c ∈ whole, c.isDigit)
    (hfraction : ∀ c ∈ fraction, c.isDigit) (hne : whole ≠ []) :
    Numeral.readDecimal? (whole ++ pointed fraction) =
      some ⟨Nat.ofDigitChars 10 (whole ++ fraction) 0, -fraction.length⟩ := by
  have hsplit : (pointed fraction).takeWhile Char.isDigit = [] ∧
      (pointed fraction).dropWhile Char.isDigit = pointed fraction ∧
      Numeral.splitFraction (pointed fraction) = (fraction, []) := by
    cases fraction with
    | nil => exact ⟨rfl, rfl, rfl⟩
    | cons c cs =>
      refine ⟨rfl, rfl, ?_⟩
      rw [pointed, Numeral.splitFraction, List.takeWhile_eq_self_iff.2 hfraction,
        List.dropWhile_eq_nil_iff.2 hfraction]
  obtain ⟨htake, hdrop, hfrac⟩ := hsplit
  unfold Numeral.readDecimal?
  dsimp only
  rw [List.takeWhile_append_of_pos hwhole, List.dropWhile_append_of_pos hwhole, htake, hdrop, hfrac,
    List.append_nil]
  dsimp only
  rw [if_neg fun h => hne h.1, Numeral.readExponent?, Option.map_some, Int.zero_sub]

theorem mem_signed_pointed {c : Char} {negative : Bool}
    (h : c ∈ signed negative (whole ++ pointed fraction)) :
    c = '-' ∨ c ∈ whole ∨ c = '.' ∨ c ∈ fraction := by
  have hpointed (hc : c ∈ pointed fraction) : c = '.' ∨ c ∈ fraction := by
    cases fraction with
    | nil => cases hc
    | cons d cs => exact List.mem_cons.1 hc
  cases negative with
  | false => exact .inr ((List.mem_append.1 h).imp_right hpointed)
  | true => exact (List.mem_cons.1 h).imp_right fun h => (List.mem_append.1 h).imp_right hpointed

/-- Digits around a point are read as the number they stand for. -/
theorem ofWord?_signed_pointed (negative : Bool) (h : Canonical whole fraction) :
    ofWord? (String.ofList (signed negative (whole ++ pointed fraction))) =
      some (ofMagnitude negative
        (Decimal.mk (Nat.ofDigitChars 10 (whole ++ fraction) 0) (-fraction.length)).magnitude) := by
  have hread := readDecimal?_pointed h.whole_digits h.fraction_digits h.whole_ne_nil
  have hunderscore : '_' ∉ signed negative (whole ++ pointed fraction) := by
    intro hmem
    rcases mem_signed_pointed hmem with hc | hc | hc | hc
    · cases hc
    · cases h.whole_digits _ hc
    · cases hc
    · cases h.fraction_digits _ hc
  rw [ofWord?_of_not_mem hunderscore]
  cases whole with
  | nil => exact absurd rfl h.whole_ne_nil
  | cons c cs =>
    rw [List.cons_append] at hread ⊢
    rw [read?_signed (h.whole_digits c List.mem_cons_self), hread]
    rfl

end Reading

/-! ## The text of a number -/

section Text

variable {style : Style} {x y : Float} {b : Nat}

/-- Whether the text of a finite number has a sign. -/
def isSigned (style : Style) (x : Float) : Bool :=
  isNegative x && (magnitude x != 0 || style.signedZero)

theorem text_of_infinity_lt (h : infinity < magnitude x) : text style x = style.notANumber :=
  if_pos h

theorem text_of_eq_infinity (h : magnitude x = infinity) :
    text style x = if isNegative x then "-inf" else "inf" := by
  have hne : (magnitude x != 0) = true := by
    rw [h]
    decide
  unfold text
  dsimp only
  rw [if_neg (by omega), if_pos h, hne, Bool.true_or, Bool.and_true]
  cases isNegative x <;> rfl

theorem text_of_lt_infinity (h : magnitude x < infinity) :
    text style x = String.ofList (signed (isSigned style x)
      ((shortest (magnitude x)).parts.1 ++ pointed (shortest (magnitude x)).parts.2)) := by
  unfold text
  dsimp only
  rw [if_neg (Nat.not_lt_of_le h.le), if_neg (Nat.ne_of_lt h), Decimal.positional_eq]
  rfl

theorem canonical_shortest (hb : b < infinity) :
    Canonical (shortest b).parts.1 (shortest b).parts.2 := by
  rcases Nat.eq_zero_or_pos b with rfl | hpos
  · exact Decimal.canonical_parts_zero
  · exact Decimal.canonical_parts (not_dvd_shortest hpos hb)

theorem magnitude_parts (d : Decimal) :
    (Decimal.mk (Nat.ofDigitChars 10 (d.parts.1 ++ d.parts.2) 0) (-d.parts.2.length)).magnitude =
      d.magnitude := by
  have hzero : (-(d.places : Int)).toNat = 0 := by omega
  have hplaces : (- -(d.places : Int)).toNat = (-d.exponent).toNat := by
    unfold Decimal.places
    omega
  have hone : tenPow 0 = 1 := rfl
  rw [Decimal.ofDigitChars_parts, Decimal.length_fraction, Decimal.magnitude_eq_iff,
    Decimal.value_eq_div, hzero, hplaces, hone, Nat.mul_one, ← Decimal.value_eq_div]
  exact d.roundsTo_magnitude

theorem ofWord?_text_of_lt_infinity (h : magnitude x < infinity) :
    ofWord? (text style x) = some (ofMagnitude (isSigned style x) (magnitude x)) := by
  rw [text_of_lt_infinity h, ofWord?_signed_pointed _ (canonical_shortest h), magnitude_parts,
    magnitude_shortest h]

theorem ofWord?_text_of_eq_infinity (h : magnitude x = infinity) :
    ofWord? (text style x) = some x := by
  have hword (negative : Bool) :
      ofWord? (if negative then "-inf" else "inf") = some (ofMagnitude negative infinity) := by
    cases negative <;> decide
  rw [text_of_eq_infinity h, hword, ← h, ofMagnitude_magnitude h.le]

/-- **Numbers inside commands read back**, negative zero and what is not finite among them. -/
theorem ofWord?_text_plain (x : Float) : ofWord? (text .plain x) = some x := by
  rcases Nat.lt_trichotomy (magnitude x) infinity with hlt | heq | hgt
  · have hsigned : isSigned .plain x = isNegative x := by
      have hzero : Style.plain.signedZero = true := rfl
      rw [isSigned, hzero, Bool.or_true, Bool.and_true]
    rw [ofWord?_text_of_lt_infinity hlt, hsigned, ofMagnitude_magnitude hlt.le]
  · exact ofWord?_text_of_eq_infinity heq
  · rw [text_of_infinity_lt hgt, eq_notANumber hgt]
    decide

theorem isSigned_result (x : Float) : isSigned .result x = (isNegative x && magnitude x != 0) := by
  have hzero : Style.result.signedZero = false := rfl
  rw [isSigned, hzero, Bool.or_false]

/-- **Results read back**, negative zero as zero. -/
theorem ofWord?_text_result (x : Float) :
    ofWord? (text .result x) = some (if x == 0 then 0 else x) := by
  rcases Nat.lt_trichotomy (magnitude x) infinity with hlt | heq | hgt
  · rw [ofWord?_text_of_lt_infinity hlt, isSigned_result]
    split
    · next hzero =>
      rw [beq_zero_iff] at hzero
      rw [hzero, zero_eq, bne_self_eq_false, Bool.and_false]
    · next hne =>
      rw [beq_zero_iff] at hne
      rw [bne_iff_ne.2 hne, Bool.and_true, ofMagnitude_magnitude hlt.le]
  · have hne : ¬ x == 0 := by
      rw [beq_zero_iff, heq]
      decide
    rw [ofWord?_text_of_eq_infinity heq, if_neg hne]
  · have hne : ¬ x == 0 := by
      rw [beq_zero_iff]
      omega
    rw [if_neg hne, text_of_infinity_lt hgt, eq_notANumber hgt]
    decide

/-! ## No shorter text -/

theorem length_stripZeros_parts (d : Decimal) :
    (stripZeros (d.parts.1 ++ d.parts.2)).length ≤ digitCount d.coefficient := by
  have hstrip := length_stripZeros_le (Nat.toDigits 10 d.coefficient)
  obtain ⟨-, hd⟩ | ⟨-, -, hd⟩ | ⟨-, -, hd⟩ := d.parts_cases <;> rw [hd]
  · rw [List.append_nil]
    exact hstrip 0 d.exponent.toNat
  · have hzeros := hstrip 0 0
    rw [List.take_append_drop]
    rwa [List.replicate_zero, List.append_nil, List.nil_append] at hzeros
  · have hzeros := hstrip (d.places - digitCount d.coefficient + 1) 0
    rwa [List.replicate_zero, List.append_nil] at hzeros

theorem significantDigits_text (h : magnitude x < infinity) :
    significantDigits (text style x) =
      (stripZeros ((shortest (magnitude x)).parts.1 ++
        (shortest (magnitude x)).parts.2)).length := by
  have hcanonical := canonical_shortest h
  have hsigned (negative : Bool) (cs : List Char) :
      mantissaDigits (signed negative cs) = mantissaDigits cs := by
    cases negative <;> rfl
  have hpointed {cs : List Char} (hcs : ∀ c ∈ cs, c.isDigit) :
      mantissaDigits (pointed cs) = cs := by
    have hdigits := mantissaDigits_digits hcs []
    rw [List.append_nil] at hdigits
    cases cs with
    | nil => rfl
    | cons c cs => exact hdigits.trans (List.append_nil _)
  rw [significantDigits, text_of_lt_infinity h, String.toList_ofList, hsigned,
    mantissaDigits_digits hcanonical.whole_digits, hpointed hcanonical.fraction_digits]

/-- **No numeral with fewer significant digits stands for the number.** -/
theorem significantDigits_text_le {word : String} (h : magnitude x < infinity)
    (hword : ofWord? word = some x) :
    significantDigits (text style x) ≤ significantDigits word := by
  rw [significantDigits_text h]
  rcases Nat.eq_zero_or_pos (magnitude x) with hzero | hpos
  · rw [hzero]
    exact Nat.zero_le _
  · -- The word stands for a decimal of as many digits, which cannot be fewer than the shortest has.
    obtain ⟨d, hd, hlt⟩ := exists_roundsTo_of_ofWord? hword h
    have hshort := shortest_lt_of_lt hpos h hd hlt
    have hne := coefficient_ne_zero (shortest_spec hpos h).1 hpos
    have hdigits : 0 < significantDigits word := by
      refine Nat.pos_of_ne_zero fun hzero => hne ?_
      rw [hzero] at hshort
      exact Nat.lt_one_iff.1 hshort
    exact (length_stripZeros_parts _).trans ((digitCount_le_iff hdigits).2 hshort)

/-! ## Results -/

theorem fraction_eq_nil_iff (hb : b < infinity) :
    (shortest b).parts.2 = [] ↔ ∃ n : Nat, value b = n := by
  have hplaces : (shortest b).parts.2 = [] ↔ 0 ≤ (shortest b).exponent := by
    rw [← List.length_eq_zero_iff, Decimal.length_fraction]
    unfold Decimal.places
    omega
  rw [hplaces]
  rcases Nat.eq_zero_or_pos b with rfl | hpos
  · have hzero : value 0 = (0 : Nat) := by
      rw [value, units_zero, Nat.cast_zero, zero_div]
    exact ⟨fun _ => ⟨0, hzero⟩, fun _ => Int.le_refl 0⟩
  · exact shortest_exponent_nonneg_iff hpos hb

/-- Results look alike iff they are equal or both not a number. -/
theorem text_result_eq_iff : text .result x = text .result y ↔ x == y ∨ x.isNaN ∧ y.isNaN := by
  constructor
  · intro h
    -- The texts read back to the same number, in which only the sign of zero is lost.
    have hread := congrArg ofWord? h
    rw [ofWord?_text_result, ofWord?_text_result, Option.some.injEq] at hread
    have hzero : (0 : Float) == 0 := beq_zero_iff.2 rfl
    split at hread
    · next hx =>
      split at hread
      · next hy =>
        rw [beq_zero_iff] at hx hy
        exact .inl (beq_iff.2 ⟨by omega, .inr ⟨hx, hy⟩⟩)
      · next hy => exact absurd (hread ▸ hzero) hy
    · next hx =>
      split at hread
      · exact absurd (hread ▸ hzero) hx
      · rw [hread, beq_iff, isNaN_iff]
        rcases Nat.lt_or_ge infinity (magnitude y) with hlt | hle
        · exact .inr ⟨hlt, hlt⟩
        · exact .inl ⟨hle, .inl rfl⟩
  · rw [beq_iff, isNaN_iff, isNaN_iff]
    rintro (⟨-, rfl | ⟨hx, hy⟩⟩ | ⟨hx, hy⟩)
    · rfl
    · have hlt : 0 < infinity := by decide
      rw [text_of_lt_infinity (hx ▸ hlt), text_of_lt_infinity (hy ▸ hlt), isSigned_result,
        isSigned_result, hx, hy, bne_self_eq_false, Bool.and_false, Bool.and_false]
    · rw [eq_notANumber hx, eq_notANumber hy]

/-- **Results are canonical and lose nothing but the sign of zero.** A result reads back. If it is
finite, it is digits before and behind a point, without an exponent and superfluous zeros, with no
more significant digits than any numeral for it. Two results look alike iff they are equal or both
not a number. -/
theorem text_result_canonical :
    (∀ x : Float, ofWord? (text .result x) = some (if x == 0 then 0 else x)) ∧
    (∀ x : Float, x.isFinite →
      (∃ whole fraction, Canonical whole fraction ∧
        text .result x =
          String.ofList (signed (isNegative x && x != 0) (whole ++ pointed fraction)) ∧
        (fraction = [] ↔ ∃ n : Nat, value (magnitude x) = n)) ∧
      ∀ word, ofWord? word = some x →
        significantDigits (text .result x) ≤ significantDigits word) ∧
    (∀ x : Float, x.isNaN → text .result x = "nan") ∧
    (∀ x : Float, x.isInf → text .result x = if isNegative x then "-inf" else "inf") ∧
    ∀ x y : Float, text .result x = text .result y ↔ x == y ∨ x.isNaN ∧ y.isNaN := by
  refine ⟨ofWord?_text_result, fun x hx => ?_, fun x hx => ?_, fun x hx => ?_,
    fun x y => text_result_eq_iff⟩
  · have hlt := isFinite_iff.1 hx
    have hsigned : isSigned .result x = (isNegative x && x != 0) := by
      have hbeq : (x == 0) = (magnitude x == 0) :=
        Bool.eq_iff_iff.2 (beq_zero_iff.trans beq_iff_eq.symm)
      rw [isSigned_result, bne, bne, hbeq]
    refine ⟨⟨_, _, canonical_shortest hlt, ?_, fraction_eq_nil_iff hlt⟩, fun word hword =>
      significantDigits_text_le hlt hword⟩
    rw [text_of_lt_infinity hlt, hsigned]
  · exact text_of_infinity_lt (isNaN_iff.1 hx)
  · exact text_of_eq_infinity (isInf_iff.1 hx)

/-- The sum of one and two tenths takes seventeen digits, however it is written. -/
theorem text_result_canonical_seventeen_digits :
    let x := Float.ofBits 0x3fd3333333333334
    x.isFinite ∧ text .result x = "0.30000000000000004" ∧
      ofWord? "0.30000000000000004" = some x ∧
      ∀ word, ofWord? word = some x → 17 ≤ significantDigits word := by
  intro x
  have hfinite : x.isFinite := by decide
  have htext : text .result x = "0.30000000000000004" := by decide
  have hne : ¬ x == 0 := by decide
  obtain ⟨hread, hcanonical, -⟩ := text_result_canonical
  have hword := hread x
  rw [htext, if_neg hne] at hword
  refine ⟨hfinite, htext, hword, fun word h => ?_⟩
  have hle := (hcanonical x hfinite).2 word h
  rw [htext] at hle
  exact hle

end Text

end LazyRegisters.Number
