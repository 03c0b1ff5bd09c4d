import LazyRegisters.Proofs.ByName
import LazyRegisters.Proofs.CleanLines
import LazyRegisters.Proofs.Projection
import LazyRegisters.Proofs.Representation

/-!
# Asking for a register by its name

Words are separated by five characters, but a line is trimmed of all white space. So a name may end
in white space that belongs to it wherever a register is mentioned, and that is trimmed off where
the name ends a line. The text `print` and a name asks for what is left of the name (`shown`): all
registers can be printed but those whose names end in white space (`canPrint_iff`).
-/

namespace LazyRegisters

/-- What is left of a name at the end of a line. -/
def shown (name : String) : String := String.ofList (name.toList.rdropWhile Text.isWhiteSpace)

/-- The text that asks for the register of a name. -/
def printText (name : String) : String := "print " ++ name

/-- A name as a cleaned line can hold it. -/
structure IsCleanName (name : String) : Prop where
  ne_empty : name ≠ ""
  unseparated : ∀ c ∈ name.toList, Text.isSeparator c = false
  lowered : ∀ c ∈ name.toList, Text.lowerChar c = [c]

variable {name : String}

theorem IsCleanName.isWord (h : IsCleanName name) : Text.IsWord name := ⟨h.ne_empty, h.unseparated⟩

/-! ## Names in lines -/

theorem exists_toList_eq_shown (name : String) :
    ∃ blanks : List Char, (∀ c ∈ blanks, Text.isWhiteSpace c) ∧
      name.toList = (shown name).toList ++ blanks := by
  refine ⟨name.toList.rtakeWhile Text.isWhiteSpace, fun c => List.mem_rtakeWhile_imp, ?_⟩
  rw [shown, String.toList_ofList, List.rdropWhile_append_rtakeWhile]

theorem shown_eq_self_iff :
    shown name = name ↔ name.toList.getLast?.any Text.isWhiteSpace = false := by
  rw [shown, ← String.toList_inj, String.toList_ofList, List.rdropWhile_eq_self_iff]
  by_cases hne : name.toList = []
  · simp [hne]
  · simp [List.getLast?_eq_some_getLast hne, hne]

theorem getLast?_shown {c : Char} (h : (shown name).toList.getLast? = some c) :
    Text.isWhiteSpace c = false := by
  rw [shown, String.toList_ofList] at h
  have hne : name.toList.rdropWhile Text.isWhiteSpace ≠ [] := by
    rintro hnil
    rw [hnil] at h
    cases h
  rw [List.getLast?_eq_some_getLast hne] at h
  cases h
  simpa using List.rdropWhile_last_not Text.isWhiteSpace name.toList hne

theorem IsCleanName.shown (h : IsCleanName name) (hne : shown name ≠ "") :
    IsCleanName (shown name) := by
  obtain ⟨blanks, -, hname⟩ := exists_toList_eq_shown name
  have hmem {c : Char} (hc : c ∈ (LazyRegisters.shown name).toList) : c ∈ name.toList := by
    rw [hname]
    exact List.mem_append_left blanks hc
  exact ⟨hne, fun c hc => h.unseparated c (hmem hc), fun c hc => h.lowered c (hmem hc)⟩

theorem Script.isCleanName_of_mem_words {cs : List Char} (h : name ∈ Text.words (clean cs)) :
    IsCleanName name := by
  have hword := Text.isWord_of_mem_words h
  refine ⟨hword.ne_empty, hword.unseparated, fun c hc => ?_⟩
  obtain ⟨w, hw, rfl⟩ := List.mem_map.1 h
  rw [String.toList_ofList] at hc
  exact lowerChar_of_mem_clean (Text.mem_of_mem_fields hw hc)

theorem mem_words_of_recording? {line : String} {x : Recording} (h : recording? line = some x)
    (hname : name ∈ x.mentions) : name ∈ Text.words line := by
  obtain ⟨command, hcommand, hx⟩ := Option.bind_eq_some_iff.1 h
  cases command with
  | operate target op operand =>
    cases hx
    have hparse : Command.parse line = .ok (.operate target op operand) := by
      cases hparse : Command.parse line <;> rw [hparse] at hcommand <;> cases hcommand
      rfl
    obtain ⟨opName, word, hline, -, hword⟩ :=
      Command.ofWords_eq_operate (Command.parse_eq_ok_iff.1 hparse)
    rw [hline]
    rcases List.mem_cons.1 hname with rfl | hname
    · simp
    · cases operand with
      | number v => cases hname
      | register name' =>
        rw [List.mem_singleton.1 hname, (Operand.ofWord_eq_register hword).1]
        simp
  | print register => cases hx
  | quit => cases hx

/-- The names of the registers of a program are words of its lines, so they are clean if the lines
are. -/
theorem isCleanName_of_mem_names_run {lines : List String}
    (hlines : ∀ line ∈ lines, ∃ cs, line = Script.clean cs)
    (h : name ∈ (Calculator.fresh.run lines).store.names) : IsCleanName name := by
  obtain ⟨hprojects, -⟩ := Calculator.projects_run (Calculator.heeded lines)
    fun _ => Calculator.ends_eq_false
  rw [← Calculator.store_run_heeded rfl, hprojects.names_eq, List.mem_eraseDups] at h
  obtain ⟨x, hx, hname⟩ := List.mem_flatMap.1 h
  obtain ⟨line, hline, hx⟩ := List.mem_filterMap.1 hx
  obtain ⟨cs, rfl⟩ := hlines line ((List.takeWhile_prefix _).subset hline)
  exact Script.isCleanName_of_mem_words (mem_words_of_recording? hx hname)

theorem isCleanName_of_mem_names {text : String}
    (h : name ∈ (Calculator.fresh.run (Script.ofText text)).store.names) : IsCleanName name :=
  isCleanName_of_mem_names_run (fun _ => Script.exists_clean_of_mem_ofText) h

/-! ## The line that asks for a name -/

theorem toList_printText (name : String) :
    (printText name).toList = "print ".toList ++ name.toList :=
  String.toList_append

theorem printText_inj {name' : String} : printText name = printText name' ↔ name = name' := by
  rw [← String.toList_inj, toList_printText, toList_printText, List.append_cancel_left_eq,
    String.toList_inj]

theorem printText_ne_quit (name : String) : printText name ≠ Command.quitKeyword := by
  intro h
  have hlist := congrArg String.toList h
  rw [toList_printText] at hlist
  have hhead : some 'p' = some 'q' := congrArg List.head? hlist
  exact absurd hhead (by decide)

namespace Script

/-- White space at the end of the name is lost, and the space before it if nothing is left. -/
theorem clean_printText (h : IsCleanName name) :
    clean (printText name).toList =
      if shown name = "" then Command.printKeyword else printText (shown name) := by
  obtain ⟨blanks, hblanks, hname⟩ := exists_toList_eq_shown name
  have hclean : clean (printText name).toList = clean (printText (shown name)).toList := by
    rw [toList_printText, toList_printText, hname, ← List.append_assoc, clean_append hblanks]
  rw [hclean]
  split
  · next hempty =>
    rw [hempty]
    decide
  · next hne =>
    have hlist : (shown name).toList ≠ [] := by simpa using hne
    -- What is left needs no more cleaning: it starts with `p` and ends like the name.
    refine (clean_eq_ofList ?_ ?_ ?_).trans String.ofList_toList <;> rw [toList_printText]
    · intro c hc
      cases hc
      decide
    · intro c hc
      rw [List.getLast?_append_of_ne_nil _ hlist] at hc
      exact getLast?_shown hc
    · intro c hc
      rcases List.mem_append.1 hc with hprint | hmem
      · have hall : "print ".toList.all fun c => Text.lowerChar c = [c] := by decide
        exact of_decide_eq_true (List.all_eq_true.1 hall c hprint)
      · exact (h.shown hne).lowered c hmem

theorem ofText_printText (h : IsCleanName name) :
    ofText (printText name) = [clean (printText name).toList] := by
  have hfeed : '\n' ∉ (printText name).toList := by
    rw [toList_printText, List.mem_append]
    rintro (hprint | hmem)
    · exact absurd hprint (by decide)
    · exact absurd (h.unseparated '\n' hmem) (by decide)
  have hlines : Text.splitLines '\n' (printText name).toList = [(printText name).toList] :=
    Text.splitLines_of_notMem hfeed (by simp [toList_printText])
  rw [ofText_eq_map, hlines, List.map_singleton]
  intro cs hcs
  rw [hlines] at hcs
  rw [List.mem_singleton.1 hcs, clean_printText h]
  split
  · decide
  · exact printText_ne_quit _

end Script

theorem Command.parse_printText (h : IsCleanName name) :
    parse (printText name) = .ok (.print name) := by
  have hkeyword : Text.IsWord printKeyword := Text.isWord_of_all (by decide) (by decide)
  have htext : printText name = printKeyword ++ " " ++ name := rfl
  have hwords : Text.words (printText name) = [printKeyword, name] := by
    rw [htext, Text.words_append_space hkeyword, Text.words_singleton h.isWord]
  rw [parse_eq_ok_iff, hwords]
  rfl

/-! ## The answer -/

namespace Calculator

variable {c : Calculator} {o : Outcome}

/-- What the text that asks for a register is answered with if it does ask for that register: the
value of the register, or the rejection for a cycle in its way. -/
inductive Shows (c : Calculator) (name : String) : Outcome → Prop where
  | value {v : Float} (h : (c.valueOf name).1 = .ok v) : Shows c name (.printed name v)
  | cycle {register : String} {cycle : List String}
    (h : (c.valueOf name).1 = .error (.cyclic register cycle)) :
    Shows c name (.rejected (.ofLine (printText name) (.cyclic register cycle)))

theorem Shows.name_eq {name' : String} {v : Float} (h : c.Shows name (.printed name' v)) :
    name' = name := by
  cases h
  rfl

/-- Whether the text that asks for a register gets an answer for that register. -/
def CanPrint (c : Calculator) (name : String) : Prop :=
  ∃ o, c.Shows name o ∧
    (c.run (Script.ofText (printText name))).outcomes.toList = c.outcomes.toList ++ [o]

theorem canPrint_iff_answer (hhalted : c.halted = false) (h : IsCleanName name) :
    c.CanPrint name ↔ ∃ o, c.Shows name o ∧
      answer (fun name => (c.valueOf name).1) (Script.clean (printText name).toList) = [o] := by
  have hrun (line : String) : c.run [line] = c.step line := rfl
  unfold CanPrint
  rw [Script.ofText_printText h, hrun, outcomes_step hhalted]
  simp only [List.append_cancel_left_eq]

theorem exists_shows (hs : c.store.Coherent) (hname : name ∈ c.store.names)
    (hparse : Command.parse (printText name) = .ok (.print name)) :
    ∃ o, c.Shows name o ∧ answer (fun name => (c.valueOf name).1) (printText name) = [o] := by
  obtain ⟨root, hroot⟩ := hs.mem_names_iff.1 hname
  simp only [answer, hparse]
  obtain ⟨g, -, ⟨-, hvalue⟩ | ⟨p, path, d, -, -, -, hvalue⟩⟩ := valueOf_spec hs hroot
  · have hok := congrArg Prod.fst hvalue
    exact ⟨_, .value hok, by rw [hok]⟩
  · have hcyclic := congrArg Prod.fst hvalue
    exact ⟨_, .cycle hcyclic, by rw [hcyclic]; rfl⟩

/-- The answer tells which name was asked for. -/
theorem eq_of_shows {name' : String} (hparse : Command.parse (printText name') = .ok (.print name'))
    (h : c.Shows name o)
    (hanswer : answer (fun name => (c.valueOf name).1) (printText name') = [o]) : name' = name := by
  simp only [answer, hparse] at hanswer
  split at hanswer
  · exact (List.singleton_inj.1 hanswer ▸ h).name_eq
  · next reason hreason =>
    have ho := List.singleton_inj.1 hanswer
    cases h with
    | value hv => cases ho
    | @cycle register cycle hcyclic =>
      -- A rejection for a cycle quotes the line, and the line holds the name.
      have hrejection := Outcome.rejected.inj ho
      have hreason' : reason = .cyclic register cycle := by
        simpa using congrArg Rejection.reason hrejection
      subst hreason'
      exact printText_inj.1 (congrArg Rejection.line hrejection)

/-- `print` alone asks for nothing. -/
theorem not_shows_of_printKeyword (h : c.Shows name o)
    (hanswer : answer (fun name => (c.valueOf name).1) Command.printKeyword = [o]) : False := by
  have hparse : Command.parse Command.printKeyword = .error (.ofLine Command.printKeyword .arity) :=
    rfl
  simp only [answer, hparse] at hanswer
  have ho := List.singleton_inj.1 hanswer
  cases h with
  | value hv => cases ho
  | cycle hcyclic => simpa using congrArg Rejection.reason (Outcome.rejected.inj ho)

/-- **A program can go on by printing any register it has created**, unless the name of the register
ends in white space. Then what is left of the name is asked for instead. -/
theorem canPrint_iff {text : String} (hhalted : (fresh.run (Script.ofText text)).halted = false)
    (hname : name ∈ (fresh.run (Script.ofText text)).store.names) :
    (fresh.run (Script.ofText text)).CanPrint name ↔
      name.toList.getLast?.any Text.isWhiteSpace = false := by
  have hclean := isCleanName_of_mem_names hname
  rw [canPrint_iff_answer hhalted hclean, Script.clean_printText hclean, ← shown_eq_self_iff]
  constructor
  · rintro ⟨o, hshows, hanswer⟩
    split at hanswer
    · exact (not_shows_of_printKeyword hshows hanswer).elim
    · next hne => exact eq_of_shows (Command.parse_printText (hclean.shown hne)) hshows hanswer
  · intro hshown
    rw [hshown, if_neg hclean.ne_empty]
    exact exists_shows (coherent_run _) hname (Command.parse_printText hclean)

/-- White space inside a name does no harm. -/
theorem canPrint_iff_inside :
    let c := fresh.run (Script.ofText "X\u00a0ΣΑΣ add 2\ny\u3000 add 3\n")
    c.halted = false ∧ c.store.names = ["x\u00a0σας", "y\u3000"] ∧ c.CanPrint "x\u00a0σας" ∧
      ¬ c.CanPrint "y\u3000" := by
  intro c
  have hhalted : c.halted = false := by decide +kernel
  exact ⟨hhalted, by decide +kernel,
    (canPrint_iff hhalted (by decide +kernel)).2 (by decide +kernel),
    (canPrint_iff hhalted (by decide +kernel)).not.2 (by decide +kernel)⟩

/-- A register is created beside one whose name lacks the white space at the end, and `print` and
its name give the value of the other one. -/
theorem print_shown_instead :
    let c := fresh.run (Script.ofText "a add 1\na\u00a0 add 5\n")
    c.halted = false ∧ "a\u00a0" ∈ c.store.names ∧ (c.valueOf "a\u00a0").1 = .ok 5 ∧
      (c.run (Script.ofText (printText "a\u00a0"))).outcomes.toList = [.printed "a" 1] ∧
      ¬ c.CanPrint "a\u00a0" := by
  intro c
  have houtcomes :
      (c.run (Script.ofText (printText "a\u00a0"))).outcomes.toList = [.printed "a" 1] := by
    decide +kernel
  refine ⟨by decide +kernel, by decide +kernel, by decide +kernel, houtcomes, ?_⟩
  rintro ⟨o, hshows, ho⟩
  have hnone : c.outcomes.toList = [] := by decide +kernel
  rw [houtcomes, hnone, List.nil_append, List.singleton_inj] at ho
  exact absurd (ho ▸ hshows).name_eq (by decide)

end Calculator

end LazyRegisters
