import LazyRegisters.Command
import LazyRegisters.Proofs.Grammar
import LazyRegisters.Proofs.NumberText

/-!
# Numerals are read by the grammar

A spelling of a finite number is read as that number (`Grammar.Finite.exists_read?`), and a number
is read from a spelling of it only (`finite_of_read?`). With the names this makes the numerals just
the words of the grammar, and underscores count for nothing in them (`ofWord?_grammar`).
-/

namespace LazyRegisters.Number

open Grammar

section Reading

variable {cs ds rest s m e : List Char} {c : Char} {negative : Bool} {q : ℚ} {k : Int} {v n : Nat}
  {d : Decimal} {whole point fraction exponent : List Char}

theorem endsDigits_nil : EndsDigits [] := nofun

theorem endsDigits_cons (h : c.isDigit = false) (cs : List Char) : EndsDigits (c :: cs) := by
  intro d hd
  rwa [← Option.some.inj hd]

theorem span_digits (hds : ∀ c ∈ ds, c.isDigit) (hrest : EndsDigits rest) :
    (ds ++ rest).takeWhile Char.isDigit = ds ∧ (ds ++ rest).dropWhile Char.isDigit = rest := by
  rw [List.takeWhile_append_of_pos hds, List.dropWhile_append_of_pos hds]
  cases rest with
  | nil => exact ⟨List.append_nil ds, rfl⟩
  | cons c rest =>
    have hc := hrest c rfl
    rw [List.takeWhile_cons_of_neg (by simp [hc]), List.dropWhile_cons_of_neg (by simp [hc])]
    exact ⟨List.append_nil ds, rfl⟩

theorem endsDigits_of_readExponent? (h : Numeral.readExponent? cs = some k) : EndsDigits cs := by
  obtain rfl | ⟨c, rest, rfl, rfl | rfl⟩ := exponent_cases h
  · exact endsDigits_nil
  · exact endsDigits_cons rfl rest
  · exact endsDigits_cons rfl rest

theorem splitFraction_of_readExponent? (h : Numeral.readExponent? cs = some k) :
    Numeral.splitFraction cs = ([], cs) := by
  obtain rfl | ⟨c, rest, rfl, rfl | rfl⟩ := exponent_cases h <;> rfl

theorem Spelled.readDecimal?_eq (h : Spelled cs d whole point fraction exponent) :
    Numeral.readDecimal? cs = some d := by
  have hexponent := endsDigits_of_readExponent? h.exponent_eq
  have hbehind : EndsDigits (point ++ (fraction ++ exponent)) := by
    obtain hpoint | ⟨hpoint, hfraction⟩ := h.point_eq
    · rw [hpoint]
      exact endsDigits_cons rfl _
    · rw [hpoint, hfraction]
      exact hexponent
  have hsplit : Numeral.splitFraction (point ++ (fraction ++ exponent)) = (fraction, exponent) := by
    obtain hpoint | ⟨hpoint, hfraction⟩ := h.point_eq
    · obtain ⟨htake, hdrop⟩ := span_digits h.fraction_digits hexponent
      rw [hpoint, List.singleton_append, Numeral.splitFraction, htake, hdrop]
    · rw [hpoint, hfraction]
      exact splitFraction_of_readExponent? h.exponent_eq
  obtain ⟨htake, hdrop⟩ := span_digits h.whole_digits hbehind
  have hne : ¬ (whole = [] ∧ fraction = []) := fun hnil => h.ne_nil (List.append_eq_nil_iff.2 hnil)
  unfold Numeral.readDecimal?
  dsimp only
  rw [h.eq, htake, hdrop, hsplit]
  dsimp only
  rw [if_neg hne, h.exponent_eq, Option.map_some, Int.add_sub_cancel, ← h.coefficient_eq]

theorem Spelled.exists_cons (h : Spelled cs d whole point fraction exponent) :
    ∃ c rest, cs = c :: rest ∧ (c.isDigit ∨ c = '.') := by
  cases hwhole : whole with
  | cons c rest =>
    refine ⟨c, rest ++ (point ++ (fraction ++ exponent)), ?_, .inl ?_⟩
    · rw [h.eq, hwhole, List.cons_append]
    · exact h.whole_digits c (hwhole ▸ List.mem_cons_self)
  | nil =>
    have hpoint : point = ['.'] := by
      refine h.point_eq.resolve_right fun hnil => h.ne_nil ?_
      rw [hwhole, hnil.2]
      rfl
    refine ⟨'.', fraction ++ exponent, ?_, .inr rfl⟩
    rw [h.eq, hwhole, hpoint]
    rfl

theorem Grammar.Sign.eq_of_mem (h : Sign s negative) (hc : c ∈ s) : c = '+' ∨ c = '-' := by
  cases h with
  | missing => cases hc
  | plus => exact .inl (List.mem_singleton.1 hc)
  | minus => exact .inr (List.mem_singleton.1 hc)

theorem Grammar.Sign.ungrouped_eq (h : Sign s negative) : ungrouped s = s := by
  cases h <;> rfl

theorem Grammar.Sign.separates (h : Sign s negative) (rest : List Char) :
    underscoresSeparate none (s ++ rest) = underscoresSeparate none rest := by
  cases h with
  | missing => rfl
  | plus => exact underscoresSeparate_cons_of_not_isDigit (by decide) rfl rest
  | minus => exact underscoresSeparate_cons_of_not_isDigit (by decide) rfl rest

theorem Grammar.Sign.splitSign_eq (h : Sign s negative) (hminus : c ≠ '-') (hplus : c ≠ '+')
    (rest : List Char) : Numeral.splitSign (s ++ c :: rest) = (negative, c :: rest) := by
  cases h with
  | missing =>
    show Numeral.splitSign (c :: rest) = (false, c :: rest)
    unfold Numeral.splitSign
    split
    · next heq => exact absurd (List.cons.inj heq).1 hminus
    · next heq => exact absurd (List.cons.inj heq).1 hplus
    · rfl
  | plus => rfl
  | minus => rfl

theorem exists_sign (cs : List Char) :
    ∃ s, Sign s (Numeral.splitSign cs).1 ∧ cs = s ++ (Numeral.splitSign cs).2 := by
  unfold Numeral.splitSign
  split
  · exact ⟨['-'], .minus, rfl⟩
  · exact ⟨['+'], .plus, rfl⟩
  · exact ⟨[], .missing, rfl⟩

theorem ne_sign_of_isDigit (h : c.isDigit) : c ≠ '-' ∧ c ≠ '+' := by
  constructor <;> rintro rfl <;> cases h

/-! ## What the grammar has is read -/

theorem Grammar.Digits.readDigits?_eq (h : Digits ds v n) :
    Numeral.readDigits? (ungrouped ds) = some v := by
  obtain ⟨hdigits, hne, hv, -⟩ := h.spec
  unfold Numeral.readDigits?
  rw [if_pos ⟨hne, List.all_eq_true.2 hdigits⟩, ← hv]

theorem Grammar.Exponent.readExponent?_eq (h : Exponent e k) :
    underscoresSeparate none e ∧ Numeral.readExponent? (ungrouped e) = some k := by
  cases h with
  | missing => exact ⟨rfl, rfl⟩
  | @mark c s ds negative v n hc hs hds =>
    have hmark : c ≠ '_' ∧ c.isDigit = false := by
      rcases hc with rfl | rfl <;> decide
    have hseparate := hds.separates (rfl : underscoresSeparate none [] = true) none
    rw [List.append_nil] at hseparate
    constructor
    · rw [underscoresSeparate_cons_of_not_isDigit hmark.1 hmark.2, hs.separates]
      exact hseparate
    · obtain ⟨hdigits, hne, -⟩ := hds.spec
      have hread := hds.readDigits?_eq
      rw [ungrouped_cons hmark.1, ungrouped_append, hs.ungrouped_eq, Numeral.readExponent?,
        if_pos hc]
      cases hcs : ungrouped ds with
      | nil => exact absurd hcs hne
      | cons d rest =>
        rw [hcs] at hdigits hread
        obtain ⟨hminus, hplus⟩ := ne_sign_of_isDigit (hdigits d List.mem_cons_self)
        rw [hs.splitSign_eq hminus hplus]
        dsimp only
        rw [hread]
        rfl

theorem Grammar.Mantissa.spec (h : Mantissa m q) :
    (∀ rest, underscoresSeparate none rest → underscoresSeparate none (m ++ rest)) ∧
      ∃ whole point fraction, ungrouped m = whole ++ (point ++ fraction) ∧
        (∀ c ∈ whole, c.isDigit) ∧ (point = ['.'] ∨ point = [] ∧ fraction = []) ∧
        (∀ c ∈ fraction, c.isDigit) ∧ whole ++ fraction ≠ [] ∧
        q = Nat.ofDigitChars 10 (whole ++ fraction) 0 / 10 ^ fraction.length := by
  have hpoint (cs : List Char) : ungrouped ('.' :: cs) = ['.'] ++ ungrouped cs :=
    ungrouped_cons (by decide) cs
  have hbehind {rest : List Char} (h : underscoresSeparate none rest) :
      underscoresSeparate none ('.' :: rest) := by
    rwa [underscoresSeparate_cons_of_not_isDigit (by decide) rfl]
  cases h with
  | @whole w v n hw =>
    obtain ⟨hdigits, hne, hv, -⟩ := hw.spec
    refine ⟨fun rest hrest => hw.separates hrest none, ungrouped m, [], [], ?_, hdigits,
      .inr ⟨rfl, rfl⟩, nofun, ?_, ?_⟩
    · rw [List.append_nil, List.append_nil]
    · rwa [List.append_nil]
    · rw [List.append_nil, hv, List.length_nil, pow_zero, div_one]
  | @pointed w v n hw =>
    obtain ⟨hdigits, hne, hv, -⟩ := hw.spec
    refine ⟨fun rest hrest => ?_, ungrouped w, ['.'], [], ?_, hdigits, .inl rfl, nofun, ?_, ?_⟩
    · rw [List.append_assoc, List.singleton_append]
      exact hw.separates (hbehind hrest) none
    · rw [ungrouped_append, hpoint]
      rfl
    · rwa [List.append_nil]
    · rw [List.append_nil, hv, List.length_nil, pow_zero, div_one]
  | @both w f v n v' n' hw hf =>
    obtain ⟨hdigits, hne, hv, -⟩ := hw.spec
    obtain ⟨hdigits', -, hv', hn'⟩ := hf.spec
    refine ⟨fun rest hrest => ?_, ungrouped w, ['.'], ungrouped f, ?_, hdigits, .inl rfl, hdigits',
      List.append_ne_nil_of_left_ne_nil hne _, ?_⟩
    · rw [List.append_assoc, List.cons_append]
      exact hw.separates (hbehind (hf.separates hrest none)) none
    · rw [ungrouped_append, hpoint]
    · have hpos : (10 : ℚ) ^ n' ≠ 0 := pow_ne_zero _ (by norm_num)
      rw [Nat.ofDigitChars_append, Nat.ofDigitChars_eq_ofDigitChars_zero, ← hv, ← hv', ← hn']
      push_cast
      field_simp
  | @fraction f v n hf =>
    obtain ⟨hdigits, hne, hv, hn⟩ := hf.spec
    refine ⟨fun rest hrest => hbehind (hf.separates hrest none), [], ['.'], ungrouped f,
      hpoint f, nofun, .inl rfl, hdigits, hne, ?_⟩
    rw [List.nil_append, ← hv, ← hn]

/-- A spelling is read as the number that it stands for. -/
theorem Grammar.Finite.exists_read? (h : Finite cs negative q) :
    underscoresSeparate none cs ∧
      ∃ d : Decimal, Numeral.read? (ungrouped cs) = some (.finite negative d) ∧ d.value = q := by
  obtain ⟨hs, hm, he⟩ := h
  rename_i s m e q k
  obtain ⟨hseparate, hexponent⟩ := he.readExponent?_eq
  obtain ⟨hmantissa, whole, point, fraction, hparts, hwhole, hpoint, hfraction, hne, rfl⟩ := hm.spec
  let d : Decimal := ⟨Nat.ofDigitChars 10 (whole ++ fraction) 0, k - fraction.length⟩
  have hspelled : Spelled (ungrouped m ++ ungrouped e) d whole point fraction (ungrouped e) := by
    refine ⟨?_, hwhole, hpoint, hfraction, hne, rfl, ?_⟩
    · rw [hparts, List.append_assoc, List.append_assoc]
    · show _ = some (k - fraction.length + fraction.length)
      rw [hexponent, Int.sub_add_cancel]
  refine ⟨?_, d, ?_, ?_⟩
  · rw [hs.separates]
    exact hmantissa e hseparate
  · rw [ungrouped_append, ungrouped_append, hs.ungrouped_eq]
    have hread := hspelled.readDecimal?_eq
    obtain ⟨c, rest, hcs, hc⟩ := hspelled.exists_cons
    rw [hcs] at hread ⊢
    have hsign : c ≠ '-' ∧ c ≠ '+' := by
      rcases hc with hc | rfl
      · exact ne_sign_of_isDigit hc
      · decide
    rw [read?_of_splitSign (hs.splitSign_eq hsign.1 hsign.2 rest) hc, hread]
    rfl
  · show (_ : ℚ) * 10 ^ (k - (fraction.length : ℤ)) = _
    rw [zpow_sub₀ (by norm_num), zpow_natCast]
    ring

/-! ## What is read the grammar has -/

/-- What is no digit is found again with nothing but underscores between digits behind it. -/
theorem exists_cons_of_not_isDigit (h : underscoresSeparate none cs) (hc : c.isDigit = false)
    (hcs : ungrouped cs = c :: rest) :
    ∃ rest', cs = c :: rest' ∧ ungrouped rest' = rest ∧ underscoresSeparate none rest' := by
  obtain ⟨rest', rfl, hrest⟩ := exists_cons h hcs
  have hne : c ≠ '_' := fun hc => head?_ne_underscore h (congrArg some hc)
  rw [underscoresSeparate_cons_of_not_isDigit hne hc] at h
  exact ⟨rest', rfl, hrest, h⟩

theorem Grammar.Sign.exists_append (hs : Sign s negative) (h : underscoresSeparate none cs)
    (hcs : ungrouped cs = s ++ rest) :
    ∃ rest', cs = s ++ rest' ∧ ungrouped rest' = rest ∧ underscoresSeparate none rest' := by
  cases hs with
  | missing => exact ⟨cs, rfl, hcs, h⟩
  | plus => exact exists_cons_of_not_isDigit h rfl hcs
  | minus => exact exists_cons_of_not_isDigit h rfl hcs

theorem digits_of_readDigits? (h : Numeral.readDigits? ds = some v) :
    ds ≠ [] ∧ (∀ c ∈ ds, c.isDigit) ∧ v = Nat.ofDigitChars 10 ds 0 := by
  unfold Numeral.readDigits? at h
  split at h
  · next hds => exact ⟨hds.1, List.all_eq_true.1 hds.2, (Option.some.inj h).symm⟩
  · cases h

theorem exponent_of_readExponent? (h : underscoresSeparate none cs)
    (hread : Numeral.readExponent? (ungrouped cs) = some k) : Exponent cs k := by
  obtain hcs | ⟨c, rest, hcs, hc⟩ := exponent_cases hread
  · rw [hcs] at hread
    obtain rfl := eq_nil_of_ungrouped h hcs
    obtain rfl : 0 = k := Option.some.inj hread
    exact .missing
  · have hdigit : c.isDigit = false := by rcases hc with rfl | rfl <;> rfl
    obtain ⟨cs, rfl, htail, h⟩ := exists_cons_of_not_isDigit h hdigit hcs
    rw [hcs, Numeral.readExponent?, if_pos hc] at hread
    dsimp only at hread
    obtain ⟨s, hs, hrest⟩ := exists_sign rest
    obtain ⟨cs, rfl, htail, h⟩ := hs.exists_append h (htail.trans hrest)
    cases hv : Numeral.readDigits? (Numeral.splitSign rest).2 with
    | none =>
      rw [hv] at hread
      cases hread
    | some v =>
      rw [hv] at hread
      obtain rfl := Option.some.inj hread
      obtain ⟨hne, hdigits, rfl⟩ := digits_of_readDigits? hv
      have hall := htail.trans (List.append_nil _).symm
      obtain ⟨ds, back, rfl, hds, hback, h⟩ := exists_digits h hdigits hne endsDigits_nil hall
      obtain rfl := eq_nil_of_ungrouped h hback
      rw [List.append_nil]
      exact .mark hc hs hds

theorem Spelled.exists_mantissa (h : Spelled rest d whole point fraction exponent)
    (hcs : underscoresSeparate none cs) (heq : ungrouped cs = rest) :
    ∃ m e q, cs = m ++ e ∧ Mantissa m q ∧ ungrouped e = exponent ∧
      underscoresSeparate none e := by
  have hexponent := endsDigits_of_readExponent? h.exponent_eq
  have hspelled := heq.trans h.eq
  obtain hpoint | ⟨hpoint, hnil⟩ := h.point_eq
  · rw [hpoint, List.singleton_append] at hspelled
    have hbehind : EndsDigits ('.' :: (fraction ++ exponent)) := endsDigits_cons rfl _
    by_cases hwhole : whole = []
    · have hfraction : fraction ≠ [] := by
        intro hfraction
        exact h.ne_nil (by rw [hwhole, hfraction, List.nil_append])
      rw [hwhole, List.nil_append] at hspelled
      obtain ⟨cs, rfl, hspelled, hcs⟩ := exists_cons_of_not_isDigit hcs rfl hspelled
      obtain ⟨f, e, rfl, hf, he, hcs⟩ :=
        exists_digits hcs h.fraction_digits hfraction hexponent hspelled
      exact ⟨'.' :: f, e, _, rfl, .fraction hf, he, hcs⟩
    · obtain ⟨w, cs, rfl, hw, hspelled, hcs⟩ :=
        exists_digits hcs h.whole_digits hwhole hbehind hspelled
      obtain ⟨cs, rfl, hspelled, hcs⟩ := exists_cons_of_not_isDigit hcs rfl hspelled
      by_cases hfraction : fraction = []
      · rw [hfraction, List.nil_append] at hspelled
        refine ⟨w ++ ['.'], cs, _, ?_, .pointed hw, hspelled, hcs⟩
        rw [List.append_assoc, List.singleton_append]
      · obtain ⟨f, e, rfl, hf, he, hcs⟩ :=
          exists_digits hcs h.fraction_digits hfraction hexponent hspelled
        refine ⟨w ++ '.' :: f, e, _, ?_, .both hw hf, he, hcs⟩
        rw [List.append_assoc, List.cons_append]
  · have hwhole : whole ≠ [] := by
      intro hwhole
      exact h.ne_nil (by rw [hwhole, hnil, List.nil_append])
    rw [hpoint, hnil, List.nil_append, List.nil_append] at hspelled
    obtain ⟨w, e, rfl, hw, he, hcs⟩ :=
      exists_digits hcs h.whole_digits hwhole hexponent hspelled
    exact ⟨w, e, _, rfl, .whole hw, he, hcs⟩

/-- A number is read from a spelling of it. -/
theorem finite_of_read? (h : underscoresSeparate none cs)
    (hread : Numeral.read? (ungrouped cs) = some (.finite negative d)) :
    Finite cs negative d.value := by
  obtain ⟨rfl, hdecimal⟩ := read?_eq_finite hread
  obtain ⟨s, hs, hcs⟩ := exists_sign (ungrouped cs)
  obtain ⟨whole, point, fraction, exponent, hspelled⟩ := exists_spelled hdecimal
  obtain ⟨cs, rfl, hbody, hseparate⟩ := hs.exists_append h hcs
  obtain ⟨m, e, q, rfl, hm, he, hseparate⟩ := hspelled.exists_mantissa hseparate hbody
  have hexponent := exponent_of_readExponent? hseparate (he ▸ hspelled.exponent_eq)
  have hfinite : Finite (s ++ (m ++ e)) _ _ := .mk hs hm hexponent
  -- The number spelled is the one read, as there is only one.
  obtain ⟨-, d', hread', hvalue⟩ := hfinite.exists_read?
  obtain ⟨-, rfl⟩ := Numeral.finite.inj (Option.some.inj (hread'.symm.trans hread))
  rw [hvalue]
  exact hfinite

/-! ## Names -/

def nameLetters : List Char := ['a', 'f', 'i', 'n', 't', 'y']

theorem mem_nameLetters (h : String.ofList (cs.map Char.toLower) ∈ ["inf", "infinity", "nan"])
    (hc : c ∈ cs) : c.toLower ∈ nameLetters := by
  have hall : ["inf", "infinity", "nan"].all fun name => name.toList.all (nameLetters.contains ·) := by
    decide
  have hname := List.all_eq_true.1 (List.all_eq_true.1 hall _ h) c.toLower
  rw [String.toList_ofList, List.contains_iff_mem] at hname
  exact hname (List.mem_map_of_mem hc)

theorem not_isDigit_of_mem_nameLetters (h : c.toLower ∈ nameLetters) : c.isDigit = false := by
  rw [← Bool.not_eq_true]
  intro hc
  rw [toLower_of_isDigit hc] at h
  have hnone : nameLetters.all fun c => c.isDigit = false := by decide
  have hfalse := List.all_eq_true.1 hnone c h
  rw [hc] at hfalse
  cases hfalse

theorem Grammar.Name.isSome_read? (h : Name cs) : '_' ∉ cs ∧ (Numeral.read? cs).isSome := by
  obtain ⟨hs, hname⟩ := h
  rename_i s cs negative
  have hletters {c : Char} (hc : c ∈ cs) := mem_nameLetters hname hc
  constructor
  · intro hmem
    rcases List.mem_append.1 hmem with hmem | hmem
    · rcases hs.eq_of_mem hmem with h | h <;> cases h
    · exact absurd (hletters hmem) (by decide)
  · cases cs with
    | nil => exact absurd hname (by decide)
    | cons c rest =>
      have hc := hletters List.mem_cons_self
      have hminus : c ≠ '-' := by
        rintro rfl
        exact absurd hc (by decide)
      have hplus : c ≠ '+' := by
        rintro rfl
        exact absurd hc (by decide)
      rw [List.mem_cons, List.mem_cons, List.mem_singleton] at hname
      unfold Numeral.read?
      rw [hs.splitSign_eq hminus hplus]
      dsimp only
      split
      · rfl
      · next hnan =>
        split
        · rfl
        · next hinf =>
          obtain ⟨hshort, hlong⟩ := not_or.1 hinf
          rcases hname with h | h | h
          · exact absurd h hshort
          · exact absurd h hlong
          · exact absurd h hnan

theorem name_of_read? (h : underscoresSeparate none cs)
    (hname : String.ofList ((Numeral.splitSign (ungrouped cs)).2.map Char.toLower) ∈
      ["inf", "infinity", "nan"]) : Name cs := by
  obtain ⟨s, hs, hcs⟩ := exists_sign (ungrouped cs)
  have hnone : '_' ∉ cs := by
    refine not_mem_of_not_isDigit h fun c hc => ?_
    rw [hcs] at hc
    rcases List.mem_append.1 hc with hc | hc
    · rcases hs.eq_of_mem hc with rfl | rfl <;> rfl
    · exact not_isDigit_of_mem_nameLetters (mem_nameLetters hname hc)
  rw [ungrouped_of_not_mem hnone] at hcs hname
  rw [hcs]
  exact .mk hs hname

/-! ## Numerals -/

theorem ofWord?_eq_some_iff {word : String} {x : Float} :
    ofWord? word = some x ↔ underscoresSeparate none word.toList ∧
      ∃ numeral, Numeral.read? (ungrouped word.toList) = some numeral ∧ numeral.toFloat = x := by
  unfold ofWord?
  dsimp only
  split
  · next h =>
    rw [Option.map_eq_some_iff]
    exact (and_iff_right h).symm
  · next h => exact ⟨nofun, fun hword => absurd hword.1 h⟩

/-- The numerals are the words of the grammar. -/
theorem isSome_ofWord?_iff {word : String} :
    (ofWord? word).isSome ↔ IsNumeral word.toList := by
  rw [Option.isSome_iff_exists]
  constructor
  · rintro ⟨x, hx⟩
    obtain ⟨h, numeral, hread, -⟩ := ofWord?_eq_some_iff.1 hx
    obtain ⟨hname, -⟩ | ⟨d, rfl, -⟩ := read?_cases hread
    · exact .inl (name_of_read? h hname)
    · exact .inr ⟨_, _, finite_of_read? h hread⟩
  · rintro (hname | ⟨negative, q, hfinite⟩)
    · obtain ⟨hnone, hread⟩ := hname.isSome_read?
      obtain ⟨numeral, hread⟩ := Option.isSome_iff_exists.1 hread
      rw [← ungrouped_of_not_mem hnone] at hread
      exact ⟨_, ofWord?_eq_some_iff.2 ⟨underscoresSeparate_of_not_mem hnone none, _, hread, rfl⟩⟩
    · obtain ⟨h, d, hread, -⟩ := hfinite.exists_read?
      exact ⟨_, ofWord?_eq_some_iff.2 ⟨h, _, hread, rfl⟩⟩

/-- Underscores count for nothing. -/
theorem ofWord?_ungrouped {word : String} {x : Float} (h : ofWord? word = some x) :
    ofWord? (String.ofList (ungrouped word.toList)) = some x := by
  obtain ⟨-, numeral, hread, rfl⟩ := ofWord?_eq_some_iff.1 h
  have hnone : '_' ∉ ungrouped word.toList := fun hmem => by
    simpa using (List.mem_filter.1 hmem).2
  rw [ofWord?_of_not_mem hnone, hread]
  rfl

/-! ## The characters of numerals -/

theorem toNat_lt_of_isDigit (h : c.isDigit) : c.toNat < 128 := by
  have hle := (Char.isDigit_iff_toNat.1 h).2
  have hnine : '9'.toNat = 57 := rfl
  omega

theorem toNat_lt_of_isAlpha (h : c.isAlpha) : c.toNat < 128 := by
  have hle : c.val ≤ 122 := by
    unfold Char.isAlpha Char.isUpper Char.isLower at h
    rw [Bool.or_eq_true, Bool.and_eq_true, decide_eq_true_eq, decide_eq_true_eq,
      decide_eq_true_eq] at h
    rcases h with h | h
    · exact UInt32.le_trans h.2 (by decide)
    · exact h.2
  exact Nat.lt_of_le_of_lt (UInt32.le_iff_toNat_le.1 hle) (by decide)

theorem Grammar.Sign.toNat_lt (h : Sign s negative) (hc : c ∈ s) : c.toNat < 128 := by
  rcases h.eq_of_mem hc with rfl | rfl <;> decide

theorem Grammar.Digits.toNat_lt (h : Digits ds v n) (hc : c ∈ ds) : c.toNat < 128 := by
  by_cases hne : c = '_'
  · rw [hne]
    decide
  · exact toNat_lt_of_isDigit (h.spec.1 c (List.mem_filter.2 ⟨hc, bne_iff_ne.2 hne⟩))

theorem Grammar.Mantissa.toNat_lt (h : Mantissa m q) (hc : c ∈ m) : c.toNat < 128 := by
  have hpoint : '.'.toNat < 128 := by decide
  cases h with
  | whole hw => exact hw.toNat_lt hc
  | pointed hw =>
    rcases List.mem_append.1 hc with hc | hc
    · exact hw.toNat_lt hc
    · rwa [List.mem_singleton.1 hc]
  | both hw hf =>
    rcases List.mem_append.1 hc with hc | hc
    · exact hw.toNat_lt hc
    · rcases List.mem_cons.1 hc with rfl | hc
      · exact hpoint
      · exact hf.toNat_lt hc
  | fraction hf =>
    rcases List.mem_cons.1 hc with rfl | hc
    · exact hpoint
    · exact hf.toNat_lt hc

theorem Grammar.Exponent.toNat_lt (h : Exponent e k) (hc : c ∈ e) : c.toNat < 128 := by
  cases h with
  | missing => cases hc
  | mark hmark hs hds =>
    rcases List.mem_cons.1 hc with rfl | hc
    · rcases hmark with rfl | rfl <;> decide
    · exact (List.mem_append.1 hc).elim hs.toNat_lt hds.toNat_lt

theorem Grammar.IsNumeral.toNat_lt (h : IsNumeral cs) (hc : c ∈ cs) : c.toNat < 128 := by
  rcases h with ⟨hs, hname⟩ | ⟨negative, q, hs, hm, he⟩
  · rcases List.mem_append.1 hc with hc | hc
    · exact hs.toNat_lt hc
    · have hletters : nameLetters.all (·.isAlpha) := by decide
      have halpha := List.all_eq_true.1 hletters _ (mem_nameLetters hname hc)
      rw [Char.isAlpha_toLower_eq_isAlpha] at halpha
      exact toNat_lt_of_isAlpha halpha
  · rcases List.mem_append.1 hc with hc | hc
    · exact hs.toNat_lt hc
    · exact (List.mem_append.1 hc).elim hm.toNat_lt he.toNat_lt

end Reading

/-- **The numerals are just the words of the grammar**, and they are read as if without their
underscores. In particular an underscore that does not stand between two digits, or a character
beyond ASCII, makes a word no numeral; then it is the name of a register. -/
theorem ofWord?_grammar (word : String) :
    ((ofWord? word).isSome ↔ IsNumeral word.toList) ∧
      (∀ x, ofWord? word = some x →
        ofWord? (String.ofList (word.toList.filter (· != '_'))) = some x) ∧
      (∀ front back, word.toList = front ++ '_' :: back →
        ¬ (front.getLast?.any Char.isDigit ∧ back.head?.any Char.isDigit) →
          ¬ IsNumeral word.toList) ∧
      (∀ c ∈ word.toList, 128 ≤ c.toNat → ¬ IsNumeral word.toList) ∧
      (¬ IsNumeral word.toList → Operand.ofWord word = .register word) := by
  refine ⟨isSome_ofWord?_iff, fun x => ofWord?_ungrouped, ?_, ?_, ?_⟩
  · intro front back hword hdigits h
    obtain ⟨x, hx⟩ := Option.isSome_iff_exists.1 (isSome_ofWord?_iff.2 h)
    have hseparate := (ofWord?_eq_some_iff.1 hx).1
    rw [hword] at hseparate
    have haround := isDigit_around hseparate
    rw [Option.or_none] at haround
    exact hdigits haround
  · intro c hc hge h
    exact absurd (h.toNat_lt hc) (Nat.not_lt_of_le hge)
  · intro h
    cases hword : ofWord? word with
    | none => rw [Operand.ofWord, hword]
    | some x => exact absurd (isSome_ofWord?_iff.1 (Option.isSome_of_eq_some hword)) h

/-- A grouped word is a numeral with its underscores and without; an underscore before the point
makes a register. -/
theorem ofWord?_grammar_grouped :
    IsNumeral "-1_000.5e+0_1".toList ∧
      ofWord? "-1000.5e+01" = ofWord? "-1_000.5e+0_1" ∧
      Operand.ofWord "1_.5" = .register "1_.5" ∧ Operand.ofWord "٣" = .register "٣" := by
  have hsome : (ofWord? "-1_000.5e+0_1").isSome := by decide
  obtain ⟨x, hx⟩ := Option.isSome_iff_exists.1 hsome
  refine ⟨(ofWord?_grammar _).1.1 hsome, ?_, ?_, ?_⟩
  · rw [hx]
    exact (ofWord?_grammar "-1_000.5e+0_1").2.1 x hx
  · refine (ofWord?_grammar "1_.5").2.2.2.2 ?_
    exact (ofWord?_grammar "1_.5").2.2.1 ['1'] ['.', '5'] rfl (by decide)
  · refine (ofWord?_grammar "٣").2.2.2.2 ?_
    exact (ofWord?_grammar "٣").2.2.2.1 '٣' (by decide) (by decide)

end LazyRegisters.Number
