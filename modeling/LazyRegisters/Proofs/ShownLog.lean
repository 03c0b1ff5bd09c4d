import LazyRegisters.Proofs.Conversation
import LazyRegisters.Proofs.Printable

/-!
# Asking for a log by the name of its register

In a dialogue the text `.log` and a name asks for the log of a register. Words are separated by five
characters, but the text after a dot is split at all white space. So a name that holds white space
is taken for several words, or for a word that lacks the white space at the ends of the name
(`respond_logText`). All logs can be shown but those of registers with such names (`showsLog_iff`).
-/

namespace LazyRegisters

namespace Text

theorem fields_rdropWhile {isBlank : Char → Bool} (cs : List Char) :
    fields isBlank (cs.rdropWhile isBlank) = fields isBlank cs := by
  rw [← fields_append_blanks (fun _ => List.mem_rtakeWhile_imp) (cs.rdropWhile isBlank),
    List.rdropWhile_append_rtakeWhile]

end Text

namespace Console.Dialogue

open Calculator

/-- The text that asks for the log of a register. -/
def logText (name : String) : String := ".log " ++ name

/-- The words that stand for the name in the text that asks for a log. -/
def nameWords (name : String) : List String :=
  (Text.fields Text.isWhiteSpace name.toList).map String.ofList

/-- The state of a dialogue after the given lines. -/
def after (lines : List String) : Calculator := (replies fresh (encodeLines lines)).2

/-- The reply to a line that is typed after the given lines. There is none once the dialogue has
ended. -/
def replyTo (lines : List String) (line : String) : Option Transcript :=
  (replies fresh (encodeLines (lines ++ [line]))).1[lines.length]?

/-- Whether the text that asks for the log of a register is answered with it. -/
def ShowsLog (lines : List String) (name : String) : Prop :=
  ∃ r, (after lines).store.find? name = some r ∧
    replyTo lines (logText name) = some (.outputLines (logLines (after lines).store r))

variable {c : Calculator} {lines : List String} {name : String} {r : Register}

/-! ## The line that asks for a log -/

theorem lowercase_of_mem_nameWords (h : IsCleanName name) {w : String} (hw : w ∈ nameWords name) :
    Text.lowercase w = w := by
  obtain ⟨cs, hcs, rfl⟩ := List.mem_map.1 hw
  have hlower : Text.lower cs = cs :=
    Text.lowerAfter_eq_self fun d hd => h.lowered d (Text.mem_of_mem_fields hcs hd)
  rw [Text.lowercase, String.toList_ofList, hlower]

/-- The reply to a text that asks for a log, by the words that stand for the name. -/
def logReply (s : Store) : List String → Transcript
  | [w] =>
    match s.find? w with
    | some r => .outputLines (logLines s r)
    | none => .errorLine ("Error: unknown register: " ++ w)
  | _ => .errorLine "Error: invalid format"

theorem exists_dotText?_logText (name : String) :
    ∃ text, dotText? (logText name) = some text ∧
      (Text.fields Text.isWhiteSpace text).map String.ofList = "log" :: nameWords name := by
  have htext : (logText name).toList = '.' :: (['l', 'o', 'g'] ++ ' ' :: name.toList) := by
    rw [logText, String.toList_append]
    rfl
  have hdot : dotText? (logText name) =
      some ((['l', 'o', 'g'] ++ ' ' :: name.toList).rdropWhile Text.isWhiteSpace) := by
    rw [dotText?, htext, Text.trim_cons (by decide)]
    rfl
  have hlog : ∀ ch ∈ ['l', 'o', 'g'], Text.isWhiteSpace ch = false := by
    simp [Text.isWhiteSpace, Text.inRanges, Text.whiteSpaceRanges]
  refine ⟨_, hdot, ?_⟩
  rw [Text.fields_rdropWhile, Text.fields_append_cons hlog (by simp) (by decide)]
  rfl

/-- The words after the dot are looked up as a name, if it is one word. -/
theorem respond_logText (h : IsCleanName name) (c : Calculator) :
    respond (logText name) c = (logReply c.store (nameWords name), c) := by
  obtain ⟨text, hdot, hwords⟩ := exists_dotText?_logText name
  rw [respond_of_dotText? hdot, respondDot, hwords]
  rcases hname : nameWords name with _ | ⟨w, _ | ⟨w', ws⟩⟩
  · rfl
  · have hlower := lowercase_of_mem_nameWords h (hname ▸ List.mem_singleton_self w)
    have hcommand : DotCommand.ofWords ["log", w] = .ok (.log w) := rfl
    rw [hcommand, logReply]
    dsimp only
    rw [hlower]
    cases c.store.find? w with
    | some r => rfl
    | none => rfl
  · rfl

/-! ## The name in a log -/

theorem words_outputLines_logLines (s : Store) (hname : Text.IsWord r.name) :
    ∃ rest, Text.words (Transcript.outputLines (logLines s r)).out = "Register" :: r.name :: rest := by
  obtain ⟨tail, htail⟩ : ∃ tail, r.text = r.name ++ " " ++ tail := by
    have hequals : " = " = " " ++ "= " := by decide
    simp only [Register.text, hequals, String.append_assoc]
    exact ⟨_, rfl⟩
  have hregister : Text.IsWord "Register" := Text.isWord_of_all (by decide) (by decide)
  have hheader : "Register " = "Register" ++ " " := by decide
  rw [Transcript.outputLines, logLines, List.map_cons, String.join_cons, htail, hheader,
    String.append_assoc, String.append_assoc, Text.words_append_space hregister, String.append_assoc,
    Text.words_append_space hname]
  exact ⟨_, rfl⟩

theorem name_eq_of_logLines {s : Store} {r' : Register} (hname : Text.IsWord r.name)
    (hname' : Text.IsWord r'.name)
    (h : Transcript.outputLines (logLines s r) = .outputLines (logLines s r')) :
    r.name = r'.name := by
  obtain ⟨rest, hrest⟩ := words_outputLines_logLines s hname
  obtain ⟨rest', hrest'⟩ := words_outputLines_logLines s hname'
  rw [h, hrest'] at hrest
  exact (List.cons.inj (List.cons.inj hrest).2).1.symm

theorem errorLine_ne_outputLines (line : String) (lines : List String) :
    Transcript.errorLine line ≠ .outputLines lines := by
  intro h
  have herr : line ++ "\n" = "" := congrArg Transcript.err h
  exact absurd (String.append_eq_empty_iff.1 herr).2 (by decide)

/-! ## The answer -/

theorem nameWords_eq_self_iff (h : IsCleanName name) :
    nameWords name = [name] ↔ name.toList.any Text.isWhiteSpace = false := by
  rw [List.any_eq_false]
  simp only [Bool.not_eq_true]
  constructor
  · intro hwords ch hch
    obtain ⟨cs, hcs, rfl⟩ := List.mem_map.1 (hwords ▸ List.mem_singleton_self name)
    rw [String.toList_ofList] at hch hcs
    exact Text.not_isBlank_of_mem_fields hcs ch hch
  · intro hspace
    rw [nameWords, Text.fields_of_not_isBlank hspace h.isWord.toList_ne_nil, List.map_singleton, String.ofList_toList]

theorem isWord_of_mem_nameWords (h : IsCleanName name) {w : String} (hw : w ∈ nameWords name) :
    Text.IsWord w := by
  obtain ⟨cs, hcs, rfl⟩ := List.mem_map.1 hw
  exact Text.isWord_ofList (Text.ne_nil_of_mem_fields hcs)
    fun ch hch => h.unseparated ch (Text.mem_of_mem_fields hcs hch)

theorem respond_logText_eq_iff (hs : c.store.Coherent) (h : IsCleanName name)
    (hr : c.store.find? name = some r) :
    (respond (logText name) c).1 = .outputLines (logLines c.store r) ↔ nameWords name = [name] := by
  rw [respond_logText h]
  dsimp only
  constructor
  · intro heq
    unfold logReply at heq
    split at heq
    · next w hwords =>
      split at heq
      · next r' hr' =>
        -- Some log is shown, and it tells whose it is.
        have hw : r'.name = w := hs.name_of_find? hr'
        have hname : r.name = name := hs.name_of_find? hr
        have hword : Text.IsWord w := isWord_of_mem_nameWords h (hwords ▸ List.mem_singleton_self w)
        have hsame := name_eq_of_logLines (hw ▸ hword) (hname ▸ h.isWord) heq
        rw [hwords, ← hw, hsame, hname]
      · exact (errorLine_ne_outputLines _ _ heq).elim
    · exact (errorLine_ne_outputLines _ _ heq).elim
  · intro hwords
    rw [hwords, logReply, hr]

/-! ## Dialogues -/

theorem getElem?_replies_concat (lines : List String) (line : String) (c : Calculator) :
    (replies c (encodeLines (lines ++ [line]))).1[lines.length]? =
      if (replies c (encodeLines lines)).2.halted then none
      else some (respond line (replies c (encodeLines lines)).2).1 := by
  induction lines generalizing c with
  | nil =>
    have hnil : (replies c (encodeLines [])).2 = c := rfl
    rw [hnil, List.nil_append, encodeLines, List.map_singleton]
    cases h : c.halted with
    | true => rw [replies_of_halted h]; rfl
    | false => rw [replies_cons h]; rfl
  | cons first lines ih =>
    rw [List.cons_append, encodeLines, encodeLines, List.map_cons, List.map_cons, ← encodeLines,
      ← encodeLines]
    cases h : c.halted with
    | true =>
      rw [replies_of_halted h, replies_of_halted h]
      exact (if_pos h).symm
    | false =>
      rw [replies_cons h, replies_cons h]
      exact ih _

theorem replyTo_eq (lines : List String) (line : String) :
    replyTo lines line =
      if (after lines).halted then none else some (respond line (after lines)).1 :=
  getElem?_replies_concat lines line fresh

theorem store_after (lines : List String) :
    (after lines).store = (fresh.run (program lines)).store :=
  (replies_inStep ⟨rfl, rfl⟩ lines).1

theorem isCleanName_of_mem_names_after (h : name ∈ (after lines).store.names) :
    IsCleanName name := by
  rw [store_after] at h
  refine isCleanName_of_mem_names_run (fun line hline => ?_) h
  obtain ⟨typed, -, rfl⟩ := List.mem_map.1 hline
  exact ⟨typed.toList, rfl⟩

/-- **A dialogue that has not ended can show the log of any register**, unless the name of the
register holds white space. Then the name is taken for other words. -/
theorem showsLog_iff (hname : name ∈ (after lines).store.names) :
    ShowsLog lines name ↔
      (after lines).halted = false ∧ name.toList.any Text.isWhiteSpace = false := by
  have hclean := isCleanName_of_mem_names_after hname
  have hs : (after lines).store.Coherent := store_after lines ▸ coherent_run (program lines)
  obtain ⟨p, hp⟩ := hs.mem_names_iff.1 hname
  obtain ⟨r, hr, rfl⟩ := hs.position?_iff.1 hp
  have hfind := hs.find?_name hr
  rw [← nameWords_eq_self_iff hclean, ← respond_logText_eq_iff hs hclean hfind, ShowsLog,
    replyTo_eq]
  cases (after lines).halted with
  | true => simp
  | false => simp [hfind]

/-- Case does not matter, and white space at the end of one name does no harm to another. -/
theorem showsLog_iff_sigma :
    let lines := ["Y\u3000 add xΣ'", "print x", "XΣ' add nan", "print XΣ'"]
    (after lines).store.names = ["y\u3000", "xς'"] ∧ ShowsLog lines "xς'" ∧
      ¬ ShowsLog lines "y\u3000" := by
  intro lines
  have hnames : (after lines).store.names = ["y\u3000", "xς'"] := by decide +kernel
  have hx : "xς'" ∈ (after lines).store.names := by simp [hnames]
  have hy : "y\u3000" ∈ (after lines).store.names := by simp [hnames]
  exact ⟨hnames, (showsLog_iff hx).2 (by decide +kernel),
    (showsLog_iff hy).not.2 (by decide +kernel)⟩

/-- A name with white space inside is taken for two arguments, and one with white space at its end
for the name of another register. -/
theorem replyTo_logText_split :
    let lines := ["a\u00a0b add 5", "a add 1", "a\u00a0 add 2"]
    (after lines).halted = false ∧ (after lines).store.names = ["a\u00a0b", "a", "a\u00a0"] ∧
      replyTo lines (logText "a\u00a0b") = some (.errorLine "Error: invalid format") ∧
      replyTo lines (logText "a\u00a0") =
        some (.outputLines ["Register a = 0 (1 pending)", "    0 [ ] add 1"]) ∧
      ¬ ShowsLog lines "a\u00a0b" := by
  intro lines
  have hsplit : replyTo lines (logText "a\u00a0b") = some (.errorLine "Error: invalid format") := by
    decide
  refine ⟨by decide, by decide, hsplit, by decide +kernel, ?_⟩
  rintro ⟨r, -, hr⟩
  rw [hsplit] at hr
  exact errorLine_ne_outputLines _ _ (Option.some.inj hr)

end Console.Dialogue

end LazyRegisters
