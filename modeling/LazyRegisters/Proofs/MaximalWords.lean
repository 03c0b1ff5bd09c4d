import LazyRegisters.Proofs.Words
import Mathlib.Data.List.Basic

/-!
# Maximal words

A line can be taken apart into words and the gaps before, between and behind them in one way only,
for words do not touch (`Splits`). These are its words, whatever the gaps are made of
(`Splits.words_eq`, `exists_splits`).

The words are also what a lexer finds that takes the longest run of separators, which it skips, or
of the characters of words (`tokens`). No character is in neither class, so the lexer never gets
stuck.
-/

namespace LazyRegisters.Text

/-- What can stand around words. -/
def IsGap (s : String) : Prop := ∀ c ∈ s.toList, isSeparator c

/-- Words, each with a gap behind it. -/
def spaced (parts : List (String × String)) : String := String.join (parts.map fun p => p.1 ++ p.2)

/-- A line is taken apart into a gap and words with a gap behind each. Only the gaps at the two ends
of the line may be empty. -/
structure Splits (line lead : String) (parts : List (String × String)) : Prop where
  line_eq : line = lead ++ spaced parts
  isGap_lead : IsGap lead
  isWord : ∀ p ∈ parts, IsWord p.1
  isGap : ∀ p ∈ parts, IsGap p.2
  gap_ne_empty : ∀ p ∈ parts.dropLast, p.2 ≠ ""

variable {line lead rest s w : String} {parts : List (String × String)}

/-! ## Gaps and words in front -/

theorem isGap_empty : IsGap "" := by simp [IsGap]

theorem isGap_singleton_append {c : Char} (hc : isSeparator c) (h : IsGap s) :
    IsGap (String.singleton c ++ s) := by
  intro d hd
  rw [String.toList_append, String.toList_singleton, List.singleton_append] at hd
  rcases List.mem_cons.1 hd with rfl | hd
  · exact hc
  · exact h d hd

theorem isWord_singleton_append {c : Char} (hc : isSeparator c = false)
    (h : ∀ d ∈ s.toList, isSeparator d = false) : IsWord (String.singleton c ++ s) := by
  rw [← String.ofList_toList (s := s), ← String.ofList_cons]
  exact isWord_ofList (List.cons_ne_nil _ _) (List.forall_mem_cons.2 ⟨hc, h⟩)

theorem words_gap_append (h : IsGap s) (rest : String) : words (s ++ rest) = words rest := by
  rw [words, String.toList_append, fields_append_of_isBlank h, words]

theorem words_word_append (h : IsWord w) (hrest : ∀ c, rest.toList.head? = some c → isSeparator c) :
    words (w ++ rest) = w :: words rest := by
  rw [words, String.toList_append,
    fields_append h.unseparated h.toList_ne_nil hrest, List.map_cons,
    String.ofList_toList, words]

/-! ## Lines taken apart -/

theorem spaced_cons (p : String × String) (parts : List (String × String)) :
    spaced (p :: parts) = p.1 ++ (p.2 ++ spaced parts) := by
  rw [spaced, List.map_cons, String.join_cons, String.append_assoc, spaced]

theorem Splits.cons (h : Splits line lead parts) (hword : IsWord w)
    (hapart : lead = "" → parts = []) : Splits (w ++ line) "" ((w, lead) :: parts) where
  line_eq := by rw [h.line_eq, String.empty_append, spaced_cons]
  isGap_lead := isGap_empty
  isWord := List.forall_mem_cons.2 ⟨hword, h.isWord⟩
  isGap := List.forall_mem_cons.2 ⟨h.isGap_lead, h.isGap⟩
  gap_ne_empty := by
    by_cases hparts : parts = []
    · simp [hparts]
    · rw [List.dropLast_cons_of_ne_nil hparts]
      exact List.forall_mem_cons.2 ⟨fun hempty => hparts (hapart hempty), h.gap_ne_empty⟩

/-- What is behind the first word does not start with a word. -/
theorem Splits.tail {p : String × String} (h : Splits line lead (p :: parts)) :
    Splits (p.2 ++ spaced parts) p.2 parts ∧ (p.2 = "" → parts = []) := by
  obtain ⟨-, -, hword, hgap, hne⟩ := h
  have hgap' := List.forall_mem_cons.1 hgap
  by_cases hparts : parts = []
  · subst hparts
    exact ⟨⟨rfl, hgap'.1, by simp, by simp, by simp⟩, fun _ => rfl⟩
  · rw [List.dropLast_cons_of_ne_nil hparts] at hne
    have hne' := List.forall_mem_cons.1 hne
    exact ⟨⟨rfl, hgap'.1, (List.forall_mem_cons.1 hword).2, hgap'.2, hne'.2⟩,
      fun hempty => absurd hempty hne'.1⟩

theorem Splits.isSeparator_of_head? (h : Splits line lead parts) (hapart : lead = "" → parts = [])
    {c : Char} (hc : line.toList.head? = some c) : isSeparator c := by
  rw [h.line_eq, String.toList_append] at hc
  by_cases hempty : lead = ""
  · rw [hempty, hapart hempty] at hc
    cases hc
  · rw [List.head?_append_of_ne_nil _ (by simpa using hempty)] at hc
    exact h.isGap_lead c (List.mem_of_head? hc)

/-- However a line is taken apart, its words come out. -/
theorem Splits.words_eq (h : Splits line lead parts) : words line = parts.map Prod.fst := by
  induction parts generalizing line lead with
  | nil =>
    rw [h.line_eq, words_gap_append h.isGap_lead]
    decide
  | cons p parts ih =>
    obtain ⟨htail, hapart⟩ := h.tail
    rw [h.line_eq, words_gap_append h.isGap_lead, spaced_cons,
      words_word_append (h.isWord p List.mem_cons_self) fun _ => htail.isSeparator_of_head? hapart,
      ih htail, List.map_cons]

/-- A character in front makes the first gap longer, or the first word, or is a word by itself. -/
theorem Splits.exists_singleton_append (h : Splits line lead parts) (c : Char) :
    ∃ lead parts, Splits (String.singleton c ++ line) lead parts := by
  cases hc : isSeparator c with
  | true =>
    obtain ⟨rfl, hlead, hword, hgap, hne⟩ := h
    exact ⟨String.singleton c ++ lead, parts, String.append_assoc.symm,
      isGap_singleton_append hc hlead, hword, hgap, hne⟩
  | false =>
    by_cases hapart : lead = "" → parts = []
    · have hword : IsWord (String.singleton c ++ "") := isWord_singleton_append hc (by simp)
      rw [String.append_empty] at hword
      exact ⟨_, _, h.cons hword hapart⟩
    · obtain ⟨rfl, hparts⟩ := Classical.not_imp.1 hapart
      obtain ⟨p, parts, rfl⟩ := List.exists_cons_of_ne_nil hparts
      obtain ⟨htail, hapart⟩ := h.tail
      have hword := isWord_singleton_append hc (h.isWord p List.mem_cons_self).unseparated
      rw [h.line_eq, String.empty_append, spaced_cons, ← String.append_assoc]
      exact ⟨_, _, htail.cons hword hapart⟩

theorem exists_splits (line : String) : ∃ lead parts, Splits line lead parts := by
  obtain ⟨cs, rfl⟩ : ∃ cs, line = String.ofList cs := ⟨line.toList, String.ofList_toList.symm⟩
  induction cs with
  | nil => exact ⟨"", [], rfl, isGap_empty, by simp, by simp, by simp⟩
  | cons c cs ih =>
    obtain ⟨lead, parts, h⟩ := ih
    rw [String.ofList_cons]
    exact h.exists_singleton_append c

/-! ## Longest runs -/

/-- The characters of words, one by one what `isSeparator` leaves out. -/
def isWordChar (c : Char) : Bool :=
  c != ' ' && c != '\t' && c != '\n' && c != '\r' && c != '\x0c'

inductive Token where
  | word (text : String)
  /-- A character that starts neither a gap nor a word. -/
  | error
  deriving DecidableEq

def Token.word? : Token → Option String
  | word text => some text
  | error => none

/-- The tokens of a line, by longest runs. Separators are skipped. -/
def tokens : List Char → List Token
  | [] => []
  | c :: cs =>
    if isSeparator c then tokens (cs.dropWhile isSeparator)
    else if isWordChar c then
      .word (String.ofList (c :: cs.takeWhile isWordChar)) :: tokens (cs.dropWhile isWordChar)
    else .error :: tokens cs
termination_by cs => cs.length
decreasing_by
  all_goals
    simp only [List.length_cons]
    have := (List.dropWhile_suffix isSeparator (l := cs)).length_le
    have := (List.dropWhile_suffix isWordChar (l := cs)).length_le
    omega

theorem isWordChar_iff {c : Char} : isWordChar c ↔ isSeparator c = false := by
  simp [isWordChar, isSeparator, and_assoc]

theorem error_notMem_tokens (cs : List Char) : Token.error ∉ tokens cs := by
  induction cs using tokens.induct with
  | case1 => simp [tokens]
  | case2 c cs hc ih => rwa [tokens, if_pos hc]
  | case3 c cs hc hword ih =>
    rw [tokens, if_neg hc, if_pos hword]
    simpa using ih
  | case4 c cs hc hword ih => exact absurd (isWordChar_iff.2 (Bool.eq_false_iff.2 hc)) hword

/-- The lexer finds the words. -/
theorem filterMap_tokens (cs : List Char) :
    (tokens cs).filterMap Token.word? = (fields isSeparator cs).map String.ofList := by
  induction cs using tokens.induct with
  | case1 => simp [tokens, fields, fieldsFrom]
  | case2 c cs hc ih =>
    have hgap : ∀ d ∈ cs.takeWhile isSeparator, isSeparator d :=
      List.all_eq_true.1 List.all_takeWhile
    rw [tokens, if_pos hc, ih, fields_cons_of_isBlank hc, ← fields_append_of_isBlank hgap,
      List.takeWhile_append_dropWhile]
  | case3 c cs hc hword ih =>
    have hrun : ∀ d ∈ c :: cs.takeWhile isWordChar, isSeparator d = false :=
      List.forall_mem_cons.2 ⟨isWordChar_iff.1 hword,
        fun d hd => isWordChar_iff.1 (List.all_eq_true.1 List.all_takeWhile d hd)⟩
    -- The run is a field because it ends at a separator or with the line.
    have hbehind : ∀ d, (cs.dropWhile isWordChar).head? = some d → isSeparator d := by
      intro d hd
      have hstop := List.head?_dropWhile_not isWordChar cs
      rw [hd] at hstop
      by_contra hsep
      exact absurd (isWordChar_iff.2 (Bool.eq_false_iff.2 hsep)) (Bool.eq_false_iff.1 hstop)
    have hfields := fields_append hrun (List.cons_ne_nil _ _) hbehind
    rw [List.cons_append, List.takeWhile_append_dropWhile] at hfields
    rw [tokens, if_neg hc, if_pos hword, List.filterMap_cons, Token.word?, ih, hfields,
      List.map_cons]
  | case4 c cs hc hword ih => exact absurd (isWordChar_iff.2 (Bool.eq_false_iff.2 hc)) hword

/-! ## The words of a line -/

theorem splits_spaced_append (hparts : ∀ p ∈ parts, IsWord p.1 ∧ IsGap p.2 ∧ p.2 ≠ "")
    (hw : IsWord w) : Splits (spaced parts ++ w) "" (parts ++ [(w, "")]) where
  line_eq := by
    rw [String.empty_append, spaced, spaced, List.map_append, String.join_append, List.map_singleton,
      String.join_cons, String.join_nil, String.append_empty, String.append_empty]
  isGap_lead := isGap_empty
  isWord := List.forall_mem_append.2 ⟨fun p hp => (hparts p hp).1, List.forall_mem_singleton.2 hw⟩
  isGap := List.forall_mem_append.2
    ⟨fun p hp => (hparts p hp).2.1, List.forall_mem_singleton.2 isGap_empty⟩
  gap_ne_empty := by
    rw [List.dropLast_concat]
    exact fun p hp => (hparts p hp).2.2

/-- **The words of a line are its maximal words.** However the line is taken apart into words and
gaps, the same words come out, and a lexer that takes the longest runs finds them without getting
stuck. So words with gaps between them that are not empty are the words of the line they make up. -/
theorem words_maximal (line : String) :
    (∀ ws, words line = ws ↔ ∃ lead parts, Splits line lead parts ∧ ws = parts.map Prod.fst) ∧
      (tokens line.toList).filterMap Token.word? = words line ∧
      Token.error ∉ tokens line.toList ∧
      ∀ parts w, (∀ p ∈ parts, IsWord p.1 ∧ IsGap p.2 ∧ p.2 ≠ "") → IsWord w →
        line = spaced parts ++ w → words line = parts.map Prod.fst ++ [w] := by
  refine ⟨fun ws => ⟨?_, ?_⟩, filterMap_tokens _, error_notMem_tokens _, ?_⟩
  · rintro rfl
    obtain ⟨lead, parts, h⟩ := exists_splits line
    exact ⟨lead, parts, h, h.words_eq⟩
  · rintro ⟨lead, parts, h, rfl⟩
    exact h.words_eq
  · rintro parts w hparts hw rfl
    rw [(splits_spaced_append hparts hw).words_eq, List.map_append, List.map_singleton]

/-- White space that is no separator stays inside a word, and a gap may be made of several
separators. -/
theorem words_maximal_mixed_gap :
    let line := "x\u00a0y\t \x0cadd\r\u3000"
    words line = ["x\u00a0y", "add", "\u3000"] ∧
      (tokens line.toList).filterMap Token.word? = ["x\u00a0y", "add", "\u3000"] ∧
      Token.error ∉ tokens line.toList := by
  intro line
  have hparts : ∀ p ∈ [("x\u00a0y", "\t \x0c"), ("add", "\r")],
      IsWord p.1 ∧ IsGap p.2 ∧ p.2 ≠ "" :=
    List.forall_mem_cons.2
      ⟨⟨isWord_of_all (by decide) (by decide), List.all_eq_true.1 (by decide), by decide⟩,
        List.forall_mem_singleton.2
          ⟨isWord_of_all (by decide) (by decide), List.all_eq_true.1 (by decide), by decide⟩⟩
  obtain ⟨-, htokens, herror, hjoined⟩ := words_maximal line
  have hwords := hjoined _ "\u3000" hparts (isWord_of_all (by decide) (by decide)) (by decide)
  exact ⟨hwords, htokens.trans hwords, herror⟩

end LazyRegisters.Text
