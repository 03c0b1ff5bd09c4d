import LazyRegisters.Proofs.Numeral

/-!
# The grammar of numerals

A numeral is a sign that may be missing, and then a name in any case or a mantissa with an exponent
that may be missing. Digits may be grouped by single underscores. The grammar is given by relations
between a text and what it stands for: `Grammar.Finite cs negative q` says that `cs` spells the
number of absolute value `q` exactly.

Underscores are looked at before all else, and each of them has to stand between two digits
(`isDigit_around`). That leaves just the groupings that the grammar has: digits separated in this
way are digits of the grammar (`exists_digits`), and the underscores of the grammar separate digits
(`Grammar.Digits.separates`).
-/

namespace LazyRegisters.Number

namespace Grammar

/-- A sign, which may be missing, and whether it is a minus. -/
inductive Sign : List Char → Bool → Prop where
  | missing : Sign [] false
  | plus : Sign ['+'] false
  | minus : Sign ['-'] true

/-- One or more digits with at most one underscore between two of them, the number that they stand
for, and how many they are. -/
inductive Digits : List Char → Nat → Nat → Prop where
  | last {c : Char} (h : c.isDigit) : Digits [c] (c.toNat - '0'.toNat) 1
  | cons {c : Char} {cs : List Char} {v n : Nat} (h : c.isDigit) (hcs : Digits cs v n) :
      Digits (c :: cs) ((c.toNat - '0'.toNat) * 10 ^ n + v) (n + 1)
  | grouped {c : Char} {cs : List Char} {v n : Nat} (h : c.isDigit) (hcs : Digits cs v n) :
      Digits (c :: '_' :: cs) ((c.toNat - '0'.toNat) * 10 ^ n + v) (n + 1)

/-- Digits with a point that may be missing and with digits on one side of it at least. -/
inductive Mantissa : List Char → ℚ → Prop where
  | whole {w : List Char} {v n : Nat} (hw : Digits w v n) : Mantissa w v
  | pointed {w : List Char} {v n : Nat} (hw : Digits w v n) : Mantissa (w ++ ['.']) v
  | both {w f : List Char} {v n v' n' : Nat} (hw : Digits w v n) (hf : Digits f v' n') :
      Mantissa (w ++ '.' :: f) (v + v' / 10 ^ n')
  | fraction {f : List Char} {v n : Nat} (hf : Digits f v n) : Mantissa ('.' :: f) (v / 10 ^ n)

inductive Exponent : List Char → Int → Prop where
  | missing : Exponent [] 0
  | mark {c : Char} {s ds : List Char} {negative : Bool} {v n : Nat} (hc : c = 'e' ∨ c = 'E')
      (hs : Sign s negative) (hds : Digits ds v n) :
      Exponent (c :: (s ++ ds)) (if negative then -v else v)

/-- The spelling of a finite number by its sign and its absolute value. -/
inductive Finite : List Char → Bool → ℚ → Prop where
  | mk {s m e : List Char} {negative : Bool} {q : ℚ} {k : Int} (hs : Sign s negative)
      (hm : Mantissa m q) (he : Exponent e k) : Finite (s ++ (m ++ e)) negative (q * 10 ^ k)

/-- The name of an infinity or of what is not a number, in any case, with a sign or without. -/
inductive Name : List Char → Prop where
  | mk {s name : List Char} {negative : Bool} (hs : Sign s negative)
      (hname : String.ofList (name.map Char.toLower) ∈ ["inf", "infinity", "nan"]) :
      Name (s ++ name)

def IsNumeral (cs : List Char) : Prop := Name cs ∨ ∃ negative q, Finite cs negative q

end Grammar

open Grammar

def ungrouped (cs : List Char) : List Char := cs.filter (· != '_')

section Underscores

variable {cs ds rest front back : List Char} {c : Char} {v n : Nat} {previous : Option Char}

theorem ungrouped_append (cs ds : List Char) :
    ungrouped (cs ++ ds) = ungrouped cs ++ ungrouped ds := List.filter_append ..

theorem ungrouped_cons (h : c ≠ '_') (cs : List Char) : ungrouped (c :: cs) = c :: ungrouped cs :=
  List.filter_cons_of_pos (bne_iff_ne.2 h)

theorem ungrouped_of_not_mem (h : '_' ∉ cs) : ungrouped cs = cs := by
  refine List.filter_eq_self.2 fun c hc => bne_iff_ne.2 ?_
  rintro rfl
  exact h hc

theorem ne_underscore_of_isDigit (h : c.isDigit) : c ≠ '_' := by
  rintro rfl
  cases h

/-! ## Underscores between digits -/

theorem underscoresSeparate_cons (h : c ≠ '_') (cs : List Char) :
    underscoresSeparate previous (c :: cs) = underscoresSeparate (some c) cs := by
  rw [underscoresSeparate, bne_iff_ne.2 h, Bool.true_or, Bool.true_and]

/-- Of the character before, only whether it is a digit matters. -/
theorem underscoresSeparate_congr {previous' : Option Char}
    (h : previous.any Char.isDigit = previous'.any Char.isDigit) (cs : List Char) :
    underscoresSeparate previous cs = underscoresSeparate previous' cs := by
  cases cs with
  | nil => rfl
  | cons c cs => rw [underscoresSeparate, underscoresSeparate, h]

theorem underscoresSeparate_cons_of_not_isDigit (hc : c ≠ '_') (h : c.isDigit = false)
    (cs : List Char) :
    underscoresSeparate previous (c :: cs) = underscoresSeparate none cs := by
  have hdigit : (some c).any Char.isDigit = (none : Option Char).any Char.isDigit := h
  rw [underscoresSeparate_cons hc, underscoresSeparate_congr hdigit]

theorem head?_ne_underscore (h : underscoresSeparate none cs) : cs.head? ≠ some '_' := by
  cases cs with
  | nil => nofun
  | cons c cs =>
    intro hc
    obtain rfl : c = '_' := Option.some.inj hc
    cases h

/-- What may start a text may also stand behind any character. -/
theorem underscoresSeparate_of_none (h : underscoresSeparate none cs) (previous : Option Char) :
    underscoresSeparate previous cs := by
  cases cs with
  | nil => rfl
  | cons c cs =>
    have hc : c ≠ '_' := fun hc => head?_ne_underscore h (congrArg some hc)
    rwa [underscoresSeparate_cons hc] at h ⊢

theorem isDigit_around (h : underscoresSeparate previous (front ++ '_' :: back)) :
    (front.getLast?.or previous).any Char.isDigit ∧ back.head?.any Char.isDigit := by
  induction front generalizing previous with
  | nil =>
    rw [List.nil_append, underscoresSeparate, Bool.and_eq_true, Bool.or_eq_true,
      Bool.and_eq_true] at h
    obtain hne | hdigits := h.1
    · cases hne
    · exact hdigits
  | cons c front ih =>
    rw [List.cons_append, underscoresSeparate, Bool.and_eq_true] at h
    have hback := ih h.2
    rw [List.getLast?_cons, Option.some_or]
    cases hlast : front.getLast? with
    | none =>
      rw [hlast] at hback
      exact hback
    | some d =>
      rw [hlast] at hback
      exact hback

theorem not_mem_of_not_isDigit (h : underscoresSeparate none cs)
    (hcs : ∀ c ∈ ungrouped cs, c.isDigit = false) : '_' ∉ cs := by
  intro hmem
  obtain ⟨front, back, rfl⟩ := List.append_of_mem hmem
  have hlast := (isDigit_around h).1
  rw [Option.or_none, Option.any_eq_true] at hlast
  obtain ⟨c, hc, hdigit⟩ := hlast
  have hin : c ∈ ungrouped (front ++ '_' :: back) := by
    refine List.mem_filter.2 ⟨List.mem_append_left _ (List.mem_of_getLast? hc), ?_⟩
    exact bne_iff_ne.2 (ne_underscore_of_isDigit hdigit)
  rw [hcs c hin] at hdigit
  cases hdigit

theorem exists_cons (h : underscoresSeparate none cs) (hcs : ungrouped cs = c :: rest) :
    ∃ rest', cs = c :: rest' ∧ ungrouped rest' = rest := by
  cases cs with
  | nil => cases hcs
  | cons d cs =>
    have hd : d ≠ '_' := fun hd => head?_ne_underscore h (congrArg some hd)
    rw [ungrouped_cons hd] at hcs
    obtain ⟨rfl, rfl⟩ := List.cons.inj hcs
    exact ⟨cs, rfl, rfl⟩

theorem eq_nil_of_ungrouped (h : underscoresSeparate none cs) (hcs : ungrouped cs = []) :
    cs = [] := by
  cases cs with
  | nil => rfl
  | cons d cs =>
    have hd : d ≠ '_' := fun hd => head?_ne_underscore h (congrArg some hd)
    rw [ungrouped_cons hd] at hcs
    cases hcs

/-! ## Digits with underscores -/

theorem Grammar.Digits.exists_cons (h : Digits cs v n) : ∃ c rest, cs = c :: rest ∧ c.isDigit := by
  cases h with
  | last h => exact ⟨_, _, rfl, h⟩
  | cons h _ => exact ⟨_, _, rfl, h⟩
  | grouped h _ => exact ⟨_, _, rfl, h⟩

theorem Grammar.Digits.separates (h : Digits ds v n)
    (hrest : underscoresSeparate none rest) (previous : Option Char) :
    underscoresSeparate previous (ds ++ rest) := by
  induction h generalizing previous with
  | @last c hc =>
    rw [List.singleton_append, underscoresSeparate_cons (ne_underscore_of_isDigit hc)]
    exact underscoresSeparate_of_none hrest (some c)
  | @cons c cs v n hc _ ih =>
    rw [List.cons_append, underscoresSeparate_cons (ne_underscore_of_isDigit hc)]
    exact ih (some c)
  | @grouped c cs v n hc hcs ih =>
    obtain ⟨d, ds, rfl, hd⟩ := hcs.exists_cons
    rw [List.cons_append, List.cons_append, underscoresSeparate_cons (ne_underscore_of_isDigit hc),
      underscoresSeparate, Bool.and_eq_true]
    refine ⟨?_, ih (some '_')⟩
    rw [Bool.or_eq_true, Bool.and_eq_true]
    exact .inr ⟨hc, hd⟩

theorem ofDigitChars_cons_zero (c : Char) (ds : List Char) :
    Nat.ofDigitChars 10 (c :: ds) 0 =
      (c.toNat - '0'.toNat) * 10 ^ ds.length + Nat.ofDigitChars 10 ds 0 := by
  rw [Nat.ofDigitChars_cons, Nat.mul_zero, Nat.zero_add,
    @Nat.ofDigitChars_eq_ofDigitChars_zero ds (c.toNat - '0'.toNat), Nat.mul_comm]

/-- Without underscores there are digits left, which stand for the number. -/
theorem Grammar.Digits.spec (h : Digits ds v n) :
    (∀ c ∈ ungrouped ds, c.isDigit) ∧ ungrouped ds ≠ [] ∧
      v = Nat.ofDigitChars 10 (ungrouped ds) 0 ∧ n = (ungrouped ds).length := by
  have hstep {c : Char} {cs : List Char} {v n : Nat} (hc : c.isDigit)
      (ih : (∀ c ∈ ungrouped cs, c.isDigit) ∧ ungrouped cs ≠ [] ∧
        v = Nat.ofDigitChars 10 (ungrouped cs) 0 ∧ n = (ungrouped cs).length) :
      (∀ d ∈ c :: ungrouped cs, d.isDigit) ∧ c :: ungrouped cs ≠ [] ∧
        (c.toNat - '0'.toNat) * 10 ^ n + v = Nat.ofDigitChars 10 (c :: ungrouped cs) 0 ∧
        n + 1 = (c :: ungrouped cs).length := by
    obtain ⟨hdigits, -, rfl, rfl⟩ := ih
    exact ⟨List.forall_mem_cons.2 ⟨hc, hdigits⟩, List.cons_ne_nil _ _,
      (ofDigitChars_cons_zero c _).symm, rfl⟩
  induction h with
  | @last c hc =>
    rw [ungrouped_cons (ne_underscore_of_isDigit hc)]
    refine ⟨List.forall_mem_singleton.2 hc, List.cons_ne_nil _ _, ?_, rfl⟩
    show c.toNat - '0'.toNat = Nat.ofDigitChars 10 [c] 0
    rw [Nat.ofDigitChars_cons, Nat.mul_zero, Nat.zero_add]
    rfl
  | @cons c cs v n hc hcs ih =>
    rw [ungrouped_cons (ne_underscore_of_isDigit hc)]
    exact hstep hc ih
  | @grouped c cs v n hc hcs ih =>
    rw [ungrouped_cons (ne_underscore_of_isDigit hc)]
    exact hstep hc ih

/-- Digits do not go on with this text. -/
def EndsDigits (rest : List Char) : Prop := ∀ c, rest.head? = some c → c.isDigit = false

/-- Behind a digit a text goes on as it may start, or with an underscore and another digit. -/
theorem underscoresSeparate_cases (h : underscoresSeparate previous cs) :
    underscoresSeparate none cs ∨
      ∃ d rest, cs = '_' :: d :: rest ∧ d.isDigit ∧ underscoresSeparate none (d :: rest) := by
  cases cs with
  | nil => exact .inl rfl
  | cons c cs =>
    by_cases hc : c = '_'
    · subst hc
      have hfront : underscoresSeparate previous ([] ++ '_' :: cs) := h
      have hback := (isDigit_around hfront).2
      rw [Option.any_eq_true] at hback
      obtain ⟨d, hd, hdigit⟩ := hback
      obtain ⟨rest, rfl⟩ := List.head?_eq_some_iff.1 hd
      have hd : d ≠ '_' := ne_underscore_of_isDigit hdigit
      rw [underscoresSeparate, Bool.and_eq_true, underscoresSeparate_cons hd] at h
      refine .inr ⟨d, rest, rfl, hdigit, ?_⟩
      rw [underscoresSeparate_cons hd]
      exact h.2
    · rw [underscoresSeparate_cons hc] at h ⊢
      exact .inl h

/-- Digits are found again in a text with underscores, grouped as the grammar has it. -/
theorem exists_digits (h : underscoresSeparate none cs) (hds : ∀ c ∈ ds, c.isDigit)
    (hne : ds ≠ []) (hrest : EndsDigits rest) (hcs : ungrouped cs = ds ++ rest) :
    ∃ ds' rest', cs = ds' ++ rest' ∧ Digits ds' (Nat.ofDigitChars 10 ds 0) ds.length ∧
      ungrouped rest' = rest ∧ underscoresSeparate none rest' := by
  induction ds generalizing cs with
  | nil => exact absurd rfl hne
  | cons c ds ih =>
    obtain ⟨hc, hds⟩ := List.forall_mem_cons.1 hds
    obtain ⟨cs, rfl, htail⟩ := exists_cons h hcs
    rw [underscoresSeparate_cons (ne_underscore_of_isDigit hc)] at h
    have hcases := underscoresSeparate_cases h
    cases ds with
    | nil =>
      obtain h | ⟨d, back, rfl, hd, -⟩ := hcases
      · have hvalue := (Digits.last hc).spec.2.2.1
        rw [ungrouped_cons (ne_underscore_of_isDigit hc)] at hvalue
        have hlast := Digits.last hc
        rw [hvalue] at hlast
        exact ⟨[c], cs, rfl, hlast, htail, h⟩
      · -- The digit behind the underscore would be the first of `rest`.
        have hback : ungrouped ('_' :: d :: back) = d :: ungrouped back :=
          ungrouped_cons (ne_underscore_of_isDigit hd) back
        have hfirst : rest = d :: ungrouped back := htail.symm.trans hback
        have hnot := hrest d (congrArg List.head? hfirst)
        rw [hd] at hnot
        cases hnot
    | cons d ds =>
      have hds' : d :: ds ≠ [] := List.cons_ne_nil d ds
      rw [ofDigitChars_cons_zero c]
      obtain h | ⟨e, back, rfl, -, h⟩ := hcases
      · obtain ⟨ds', rest', rfl, hdigits, hrest'⟩ := ih h hds hds' htail
        exact ⟨c :: ds', rest', rfl, .cons hc hdigits, hrest'⟩
      · obtain ⟨ds', rest', heq, hdigits, hrest'⟩ := ih h hds hds' htail
        rw [heq]
        exact ⟨c :: '_' :: ds', rest', rfl, .grouped hc hdigits, hrest'⟩

end Underscores

end LazyRegisters.Number
