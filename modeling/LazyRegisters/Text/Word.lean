import LazyRegisters.Text.Blank

/-!
# Words

The words of a line are its maximal runs of characters that are not separators. `fields` splits by
any class of blanks; `words` splits by the separators, and `joinWords` puts single spaces between.
-/

namespace LazyRegisters.Text

/-- The fields of a text whose first field has been started with the given characters, last
character first. -/
def fieldsFrom (isBlank : Char → Bool) (started : List Char) : List Char → List (List Char)
  | [] => if started = [] then [] else [started.reverse]
  | c :: cs =>
    if isBlank c then
      if started = [] then fieldsFrom isBlank [] cs
      else started.reverse :: fieldsFrom isBlank [] cs
    else fieldsFrom isBlank (c :: started) cs

/-- The maximal runs of characters that are not blank. -/
def fields (isBlank : Char → Bool) (cs : List Char) : List (List Char) := fieldsFrom isBlank [] cs

theorem ne_nil_of_mem_fieldsFrom {isBlank : Char → Bool} {started cs w : List Char}
    (h : w ∈ fieldsFrom isBlank started cs) : w ≠ [] := by
  induction cs generalizing started with
  | nil => simp only [fieldsFrom] at h; split at h <;> simp_all
  | cons c cs ih =>
    simp only [fieldsFrom] at h
    split at h
    · split at h
      · exact ih h
      · rcases List.mem_cons.1 h with rfl | h
        · simpa
        · exact ih h
    · exact ih h

theorem ne_nil_of_mem_fields {isBlank : Char → Bool} {cs w : List Char}
    (h : w ∈ fields isBlank cs) : w ≠ [] := ne_nil_of_mem_fieldsFrom h

theorem not_isBlank_of_mem_fieldsFrom {isBlank : Char → Bool} {started cs w : List Char}
    (hs : ∀ c ∈ started, isBlank c = false) (h : w ∈ fieldsFrom isBlank started cs) :
    ∀ c ∈ w, isBlank c = false := by
  induction cs generalizing started with
  | nil =>
    simp only [fieldsFrom] at h
    split at h
    · simp at h
    · rw [List.mem_singleton.1 h]; simpa using hs
  | cons c cs ih =>
    simp only [fieldsFrom] at h
    split at h
    · split at h
      · exact ih (by simp) h
      · rcases List.mem_cons.1 h with rfl | h
        · simpa using hs
        · exact ih (by simp) h
    · exact ih (by simpa [*] using hs) h

theorem not_isBlank_of_mem_fields {isBlank : Char → Bool} {cs w : List Char}
    (h : w ∈ fields isBlank cs) : ∀ c ∈ w, isBlank c = false :=
  not_isBlank_of_mem_fieldsFrom (by simp) h

theorem mem_of_mem_fieldsFrom {isBlank : Char → Bool} {started cs w : List Char} {c : Char}
    (h : w ∈ fieldsFrom isBlank started cs) (hc : c ∈ w) : c ∈ started ∨ c ∈ cs := by
  induction cs generalizing started with
  | nil =>
    simp only [fieldsFrom] at h
    split at h
    · simp at h
    · rw [List.mem_singleton.1 h] at hc
      exact .inl (by simpa using hc)
  | cons d cs ih =>
    simp only [fieldsFrom] at h
    split at h
    · split at h
      · exact .inr (List.mem_cons_of_mem d ((ih h).resolve_left (by simp)))
      · rcases List.mem_cons.1 h with rfl | h
        · exact .inl (by simpa using hc)
        · exact .inr (List.mem_cons_of_mem d ((ih h).resolve_left (by simp)))
    · rcases ih h with hs | hcs
      · exact (List.mem_cons.1 hs).elim (fun hd => .inr (by simp [hd])) .inl
      · exact .inr (List.mem_cons_of_mem d hcs)

theorem mem_of_mem_fields {isBlank : Char → Bool} {cs w : List Char} {c : Char}
    (h : w ∈ fields isBlank cs) (hc : c ∈ w) : c ∈ cs :=
  (mem_of_mem_fieldsFrom h hc).resolve_left (by simp)

/-! ## Taking a text apart at a blank -/

section Fields

variable {isBlank : Char → Bool} {w cs : List Char} {b : Char}

theorem fieldsFrom_append (hw : ∀ c ∈ w, isBlank c = false) (started cs : List Char) :
    fieldsFrom isBlank started (w ++ cs) = fieldsFrom isBlank (w.reverse ++ started) cs := by
  induction w generalizing started with
  | nil => rfl
  | cons c w ih =>
    rw [List.cons_append, fieldsFrom, if_neg (by simp [hw c List.mem_cons_self]),
      ih fun c hc => hw c (List.mem_cons_of_mem _ hc)]
    simp

theorem fields_cons_of_isBlank (hb : isBlank b) : fields isBlank (b :: cs) = fields isBlank cs := by
  rw [fields, fieldsFrom, if_pos hb, if_pos rfl]
  rfl

theorem fields_append_of_isBlank {blanks : List Char} (h : ∀ b ∈ blanks, isBlank b)
    (cs : List Char) : fields isBlank (blanks ++ cs) = fields isBlank cs := by
  induction blanks with
  | nil => rfl
  | cons b blanks ih =>
    rw [List.cons_append, fields_cons_of_isBlank (h b List.mem_cons_self),
      ih fun b' hb' => h b' (List.mem_cons_of_mem b hb')]

theorem fields_of_not_isBlank (hw : ∀ c ∈ w, isBlank c = false) (hne : w ≠ []) :
    fields isBlank w = [w] := by
  have hfrom := fieldsFrom_append hw [] []
  rw [List.append_nil, List.append_nil] at hfrom
  rw [fields, hfrom, fieldsFrom, if_neg (by simpa using hne), List.reverse_reverse]

/-- A field ends at the first blank behind it. -/
theorem fields_append_cons (hw : ∀ c ∈ w, isBlank c = false) (hne : w ≠ []) (hb : isBlank b)
    (cs : List Char) : fields isBlank (w ++ b :: cs) = w :: fields isBlank cs := by
  rw [fields, fieldsFrom_append hw, List.append_nil, fieldsFrom, if_pos hb,
    if_neg (by simpa using hne), List.reverse_reverse]
  rfl

/-- A field ends where a blank or nothing is behind it. -/
theorem fields_append (hw : ∀ c ∈ w, isBlank c = false) (hne : w ≠ [])
    (hcs : ∀ c, cs.head? = some c → isBlank c) :
    fields isBlank (w ++ cs) = w :: fields isBlank cs := by
  cases cs with
  | nil =>
    rw [List.append_nil, fields_of_not_isBlank hw hne]
    rfl
  | cons c cs => rw [fields_append_cons hw hne (hcs c rfl), fields_cons_of_isBlank (hcs c rfl)]

theorem fields_append_blanks {blanks : List Char} (h : ∀ b ∈ blanks, isBlank b) (cs : List Char) :
    fields isBlank (cs ++ blanks) = fields isBlank cs := by
  have hnone : fields isBlank blanks = [] := by
    have hfields := fields_append_of_isBlank h []
    rwa [List.append_nil] at hfields
  have key (started : List Char) :
      fieldsFrom isBlank started (cs ++ blanks) = fieldsFrom isBlank started cs := by
    induction cs generalizing started with
    | nil =>
      -- The field that has been started ends at the first of the blanks.
      cases blanks with
      | nil => rfl
      | cons b blanks =>
        rw [fields_cons_of_isBlank (h b List.mem_cons_self), fields] at hnone
        rw [List.nil_append, fieldsFrom, fieldsFrom, if_pos (h b List.mem_cons_self), hnone]
    | cons c cs ih => rw [List.cons_append, fieldsFrom, fieldsFrom, ih, ih]
  exact key []

/-- Where a text starts with a field, the field ends at the next blank or with the text. -/
theorem fields_cases {c : Char} (hc : isBlank c = false) (cs : List Char) :
    ∃ w, w ≠ [] ∧ (∀ d ∈ w, isBlank d = false) ∧
      ((c :: cs = w ∧ fields isBlank (c :: cs) = [w]) ∨
        ∃ b rest, isBlank b ∧ c :: cs = w ++ b :: rest ∧
          fields isBlank (c :: cs) = w :: fields isBlank rest) := by
  have hsplit := List.takeWhile_append_dropWhile (p := (!isBlank ·)) (l := c :: cs)
  have hw : ∀ d ∈ (c :: cs).takeWhile (!isBlank ·), isBlank d = false := fun d hd => by
    simpa using List.all_eq_true.1 List.all_takeWhile d hd
  have hne : (c :: cs).takeWhile (!isBlank ·) ≠ [] := by simp [hc]
  have hrest := List.head?_dropWhile_not (!isBlank ·) (c :: cs)
  generalize (c :: cs).takeWhile (!isBlank ·) = w, (c :: cs).dropWhile (!isBlank ·) = rest
    at hsplit hw hne hrest
  refine ⟨w, hne, hw, ?_⟩
  rw [← hsplit]
  cases rest with
  | nil =>
    rw [List.append_nil]
    exact .inl ⟨rfl, fields_of_not_isBlank hw hne⟩
  | cons b rest =>
    have hb : isBlank b := by simpa using hrest
    exact .inr ⟨b, rest, hb, rfl, fields_append_cons hw hne hb rest⟩

theorem isBlank_of_fields_eq_nil (h : fields isBlank cs = []) : ∀ c ∈ cs, isBlank c := by
  induction cs with
  | nil => simp
  | cons c cs ih =>
    cases hc : isBlank c with
    | true =>
      rw [fields_cons_of_isBlank hc] at h
      simpa [hc] using ih h
    | false =>
      obtain ⟨w, -, -, ⟨-, hfields⟩ | ⟨b, rest, -, -, hfields⟩⟩ := fields_cases hc cs <;>
        rw [hfields] at h <;> cases h

/-- A text that neither starts nor ends with a blank and has one field is that field. -/
theorem eq_of_fields_eq_singleton (hhead : ∀ c, cs.head? = some c → isBlank c = false)
    (hlast : ∀ c, cs.getLast? = some c → isBlank c = false) (h : fields isBlank cs = [w]) :
    cs = w := by
  cases cs with
  | nil => cases h
  | cons c cs =>
    obtain ⟨w', -, -, ⟨hw', hfields⟩ | ⟨b, rest, hb, hsplit, hfields⟩⟩ :=
      fields_cases (hhead c rfl) cs <;> rw [hfields] at h
    · rw [hw', (List.cons.inj h).1]
    · -- Nothing but blanks is behind the field, and the text ends with one of them.
      exfalso
      have hblank := isBlank_of_fields_eq_nil (List.cons.inj h).2
      rw [hsplit, List.getLast?_append, List.getLast?_cons, Option.some_or] at hlast
      have hend := hlast _ rfl
      cases hrest : rest.getLast? with
      | none => simp [hrest, hb] at hend
      | some d => simp [hrest, hblank d (List.mem_of_getLast? hrest)] at hend

end Fields

def words (line : String) : List String := (fields isSeparator line.toList).map String.ofList

/-- The words with single spaces between them. -/
def joinWords (ws : List String) : String := " ".intercalate ws

end LazyRegisters.Text
