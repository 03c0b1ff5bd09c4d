import LazyRegisters.Console.Dialogue
import LazyRegisters.Proofs.ByteLines
import LazyRegisters.Proofs.Observation

/-!
# Dialogues as batch runs

A dialogue obeys the register commands among its lines as a batch run obeys the program of them
(`program`): the registers are the same in the end, and a command is answered with the outcomes of
its line, each with the path of the cycle below it if it is rejected for one. The lines that start
with a dot can be left out of the dialogue, all but the one that ends it.

The dialogue and the batch run are kept in step line by line. What one line does to the dialogue is
said by `Responds`.
-/

namespace LazyRegisters

def Outcome.dialogueLines (o : Outcome) : List String :=
  o.text ::
    match o with
    | .rejected ⟨_, .cyclic _ cycle⟩ => ["  cycle: " ++ pathText cycle]
    | _ => []

/-- What the lines of a program are answered with, one by one, until it is ended. -/
def Calculator.answers (c : Calculator) : List String → List (List Outcome)
  | [] => []
  | line :: lines =>
    if c.halted then []
    else answer (fun name => (c.valueOf name).1) line :: (c.step line).answers lines

theorem Calculator.outcomes_run (c : Calculator) (lines : List String) :
    (c.run lines).outcomes.toList = c.outcomes.toList ++ (c.answers lines).flatten := by
  induction lines generalizing c with
  | nil => exact (List.append_nil _).symm
  | cons line lines ih =>
    cases h : c.halted with
    | true =>
      rw [run_of_halted h, answers, if_pos h]
      exact (List.append_nil _).symm
    | false =>
      rw [run_cons, ih, outcomes_step h, answers, if_neg (by simp [h]), List.flatten_cons,
        List.append_assoc]

theorem Calculator.answers_of_halted {c : Calculator} (h : c.halted) (lines : List String) :
    c.answers lines = [] := by
  cases lines with
  | nil => rfl
  | cons line lines => rw [answers, if_pos h]

namespace Console.Dialogue

open Calculator

/-! ## The lines of a dialogue -/

/-- The text after the dot of a line that starts with one. -/
def dotText? (line : String) : Option (List Char) :=
  match Text.trim line.toList with
  | '.' :: text => some text
  | _ => none

/-- Whether a line is a register command, well-formed or not. -/
def isCommand (line : String) : Bool := (dotText? line).isNone

/-- The first word of the text after a dot. -/
def firstWord? (text : List Char) : Option String :=
  ((Text.fields Text.isWhiteSpace text).map String.ofList).head?

def isDotQuit (line : String) : Bool :=
  (dotText? line).any fun text => firstWord? text = some "quit"

def finishes (line : String) : Bool :=
  isDotQuit line || isCommand line && ends (Script.clean line.toList)

/-- The register commands before the dot command that ends the dialogue, as the lines of a
program. -/
def program (lines : List String) : List String :=
  ((lines.takeWhile (!isDotQuit ·)).filter isCommand).map fun line => Script.clean line.toList

/-- The lines up to the first one that ends the dialogue. -/
def linesRead (lines : List String) : List String :=
  lines.take ((lines.takeWhile (!finishes ·)).length + 1)

def commandReplies (lines : List String) (replies : List Transcript) : List Transcript :=
  ((lines.zip replies).filter (isCommand ·.1)).map Prod.snd

/-! ## What a line does -/

variable {c d : Calculator} {line : String}

/-- Any arguments may stand behind `quit`. -/
theorem DotCommand.ofWords_eq_quit_iff {ws : List String} :
    ofWords ws = .ok .quit ↔ ws.head? = some "quit" := by
  cases ws with
  | nil => simp [ofWords]
  | cons word arguments =>
    rw [List.head?_cons, Option.some_inj]
    constructor
    · intro h
      by_contra hword
      simp only [ofWords, if_neg hword] at h
      split_ifs at h with hhelp hregisters hlog
      · cases h
      · cases h
      · split at h <;> cases h
    · rintro rfl
      rfl

/-- A dot command changes nothing, unless it ends the dialogue. -/
theorem respondDot_snd (text : List Char) (c : Calculator) :
    (respondDot text c).2 =
      if firstWord? text = some "quit" then { c with halted := true } else c := by
  by_cases hquit : firstWord? text = some "quit"
  · rw [if_pos hquit, respondDot, DotCommand.ofWords_eq_quit_iff.2 hquit]
  · have hcommand := DotCommand.ofWords_eq_quit_iff.not.2 hquit
    rw [if_neg hquit, respondDot]
    -- A refusal, then the commands in the order of their declaration.
    split
    · rfl
    · rfl
    · rfl
    · split <;> rfl
    · next h => exact absurd h hcommand

theorem rejectionLines_eq (r : Rejection) :
    rejectionLines r = (Outcome.rejected r).dialogueLines := by
  obtain ⟨line, reason⟩ := r
  cases reason <;> rfl

/-- A command is answered with the outcomes of its line. -/
theorem respondCommand_eq (line : String) (c : Calculator) :
    respondCommand line c =
      (.outputLines ((answer (fun name => (c.valueOf name).1) line).flatMap Outcome.dialogueLines),
        (c.executeLine line).2) := by
  have hold : (c.outcomes.extract c.outcomes.size).toList = [] := by simp
  rw [respondCommand, answer]
  cases hparse : Command.parse line with
  | error rejection =>
    rw [executeLine_of_parse_error hparse]
    dsimp only
    rw [hold, rejectionLines_eq]
    simp
  | ok command =>
    cases command with
    | operate target op operand =>
      rw [executeLine_of_operate hparse]
      have houtcomes : (c.operate target op operand).outcomes = c.outcomes := rfl
      dsimp only
      rw [houtcomes, hold]
      rfl
    | print name =>
      have houtcomes := c.outcomes_valueOf name
      rcases hv : c.valueOf name with ⟨reason | v, c'⟩ <;> rw [hv] at houtcomes
      · rw [executeLine_of_print_error hparse hv]
        dsimp only at houtcomes ⊢
        rw [houtcomes, hold, rejectionLines_eq, hv]
        simp
      · rw [executeLine_of_print_ok hparse hv]
        dsimp only at houtcomes ⊢
        have hnew : ((c'.report (.printed name v)).outcomes.extract c.outcomes.size).toList =
            [.printed name v] := by
          simp [report, houtcomes]
        rw [hnew, hv]
        rfl
    | quit =>
      rw [executeLine_of_quit hparse]
      dsimp only [note]
      rw [hold]
      rfl

/-- What is written of the result of a dot command. -/
def dotReply : Except DotError Transcript → Transcript
  | .ok t => t
  | .error e => .errorLine ("Error: " ++ e.message)

theorem respond_of_dotText? {text : List Char} (h : dotText? line = some text) (c : Calculator) :
    respond line c = (dotReply (respondDot text c).1, (respondDot text c).2) := by
  unfold respond
  split
  · next text' htext =>
    rw [dotText?, htext] at h
    cases h
    rcases respondDot text c with ⟨e | t, c'⟩ <;> rfl
  · next hdot =>
    unfold dotText? at h
    split at h
    · next htext => exact (hdot _ htext).elim
    · cases h

theorem respond_of_isCommand (h : isCommand line) (c : Calculator) :
    respond line c = respondCommand (Script.clean line.toList) c := by
  unfold respond
  split
  · next text htext =>
    rw [isCommand, dotText?, htext] at h
    cases h
  · rfl

/-- What a line does: it ends the dialogue by a dot, it changes nothing, or it is obeyed. -/
inductive Responds (line : String) (c : Calculator) (response : Transcript × Calculator) : Prop where
  | quits (hquit : isDotQuit line) (hcommand : isCommand line = false)
    (h : response.2 = { c with halted := true })
  | inspects (hquit : isDotQuit line = false) (hcommand : isCommand line = false)
    (h : response.2 = c)
  | obeys (hquit : isDotQuit line = false) (hcommand : isCommand line)
    (h : response = respondCommand (Script.clean line.toList) c)

theorem responds (line : String) (c : Calculator) : Responds line c (respond line c) := by
  cases hdot : dotText? line with
  | none =>
    have hcommand : isCommand line := by rw [isCommand, hdot]; rfl
    exact .obeys (by rw [isDotQuit, hdot]; rfl) hcommand (respond_of_isCommand hcommand c)
  | some text =>
    have hcommand : isCommand line = false := by rw [isCommand, hdot]; rfl
    have hrespond : (respond line c).2 = (respondDot text c).2 := by rw [respond_of_dotText? hdot]
    rw [respondDot_snd] at hrespond
    by_cases hquit : firstWord? text = some "quit"
    · rw [if_pos hquit] at hrespond
      exact .quits (by simp [isDotQuit, hdot, hquit]) hcommand hrespond
    · rw [if_neg hquit] at hrespond
      exact .inspects (by simp [isDotQuit, hdot, hquit]) hcommand hrespond

/-! ## Dialogues -/

theorem replies_of_halted (h : c.halted) (lines : List (List UInt8)) :
    replies c lines = ([], c) := by
  cases lines with
  | nil => rw [replies, if_pos h]
  | cons bytes lines => rw [replies, if_pos h]

theorem replies_cons (h : c.halted = false) (line : String) (rest : List (List UInt8)) :
    replies c (Text.encode line.toList :: rest) =
      ((respond line c).1 :: (replies (respond line c).2 rest).1,
        (replies (respond line c).2 rest).2) := by
  rw [replies, if_neg (by simp [h]), Script.decodeLine?_encode, String.ofList_toList]

theorem halted_respond (line : String) (c : Calculator) :
    (respond line c).2.halted = (c.halted || finishes line) := by
  rw [finishes]
  cases responds line c with
  | quits hquit hcommand h => rw [h, hquit, Bool.true_or, Bool.or_true]
  | inspects hquit hcommand h =>
    rw [h, hquit, hcommand, Bool.false_and, Bool.or_false, Bool.or_false]
  | obeys hquit hcommand h =>
    rw [h, hquit, hcommand, Bool.true_and, Bool.false_or, respondCommand_eq]
    cases hends : ends (Script.clean line.toList) with
    | true =>
      rw [executeLine_of_ends hends, Bool.or_true]
      rfl
    | false => rw [halted_executeLine hends, Bool.or_false]

def encodeLines (lines : List String) : List (List UInt8) :=
  lines.map fun line => Text.encode line.toList

theorem halted_replies (lines : List String) (c : Calculator) :
    (replies c (encodeLines lines)).2.halted = (c.halted || lines.any finishes) := by
  induction lines generalizing c with
  | nil => exact (Bool.or_false _).symm
  | cons line lines ih =>
    cases h : c.halted with
    | true => rw [replies_of_halted h, h, Bool.true_or]
    | false =>
      rw [encodeLines, List.map_cons, replies_cons h, List.any_cons]
      exact (ih _).trans (by rw [halted_respond, h, Bool.or_assoc])

/-- There is a reply for each line up to the one that ends the dialogue, or for the end of the
input. -/
theorem length_replies (h : c.halted = false) (lines : List String) :
    (replies c (encodeLines lines)).1.length = (lines.takeWhile (!finishes ·)).length + 1 := by
  induction lines generalizing c with
  | nil =>
    rw [encodeLines, List.map_nil, replies, if_neg (by simp [h])]
    rfl
  | cons line lines ih =>
    have hhalted := halted_respond line c
    rw [h, Bool.false_or] at hhalted
    rw [encodeLines, List.map_cons, replies_cons h, ← encodeLines, List.length_cons]
    cases hline : finishes line with
    | true =>
      rw [replies_of_halted (hhalted.trans hline), List.takeWhile_cons_of_neg (by simp [hline])]
      rfl
    | false =>
      rw [ih (hhalted.trans hline), List.takeWhile_cons_of_pos (by simp [hline]), List.length_cons]

theorem length_linesRead (lines : List String) :
    (linesRead lines).length + (if lines.any finishes then 0 else 1) =
      (lines.takeWhile (!finishes ·)).length + 1 := by
  induction lines with
  | nil => rfl
  | cons line lines ih =>
    rw [linesRead, List.any_cons]
    cases hline : finishes line with
    | true =>
      rw [List.takeWhile_cons_of_neg (by simp [hline])]
      rfl
    | false =>
      rw [List.takeWhile_cons_of_pos (by simp [hline]), List.length_cons, List.take_succ_cons,
        List.length_cons, ← linesRead, Bool.false_or, ← ih]
      omega

/-! ## The batch run of a dialogue -/

theorem program_cons_of_isDotQuit (h : isDotQuit line) (lines : List String) :
    program (line :: lines) = [] := by
  rw [program, List.takeWhile_cons_of_neg (by simp [h])]
  rfl

theorem program_cons_of_dot (hquit : isDotQuit line = false) (hcommand : isCommand line = false)
    (lines : List String) : program (line :: lines) = program lines := by
  rw [program, List.takeWhile_cons_of_pos (by simp [hquit]),
    List.filter_cons_of_neg (by simp [hcommand]), ← program]

theorem program_cons_of_isCommand (hquit : isDotQuit line = false) (hcommand : isCommand line)
    (lines : List String) :
    program (line :: lines) = Script.clean line.toList :: program lines := by
  rw [program, List.takeWhile_cons_of_pos (by simp [hquit]), List.filter_cons_of_pos hcommand,
    List.map_cons, ← program]

theorem commandReplies_cons (line : String) (lines : List String) (reply : Transcript)
    (replies : List Transcript) :
    commandReplies (line :: lines) (reply :: replies) =
      if isCommand line then reply :: commandReplies lines replies
      else commandReplies lines replies := by
  rw [commandReplies, List.zip_cons_cons, List.filter_cons]
  split <;> rfl

/-- A dialogue in step with a batch run leaves the same registers behind, and a register command is
answered with the outcomes of its line in the batch run. -/
theorem replies_inStep (h : c.InStep d) (lines : List String) :
    (replies d (encodeLines lines)).2.store = (c.run (program lines)).store ∧
      commandReplies lines (replies d (encodeLines lines)).1 =
        (c.answers (program lines)).map fun os =>
          .outputLines (os.flatMap Outcome.dialogueLines) := by
  induction lines generalizing c d with
  | nil => exact ⟨h.store_eq, rfl⟩
  | cons line lines ih =>
    cases hhalted : c.halted with
    | true =>
      rw [replies_of_halted (h.halted_eq.trans hhalted), run_of_halted hhalted,
        answers_of_halted hhalted]
      exact ⟨h.store_eq, rfl⟩
    | false =>
      rw [encodeLines, List.map_cons, replies_cons (h.halted_eq.trans hhalted), ← encodeLines,
        commandReplies_cons]
      cases responds line d with
      | quits hquit hcommand hrespond =>
        -- The batch run has no more lines, but it is not halted.
        rw [hrespond, replies_of_halted rfl, program_cons_of_isDotQuit hquit, hcommand,
          if_neg Bool.false_ne_true, commandReplies, List.zip_nil_right]
        exact ⟨h.store_eq, rfl⟩
      | inspects hquit hcommand hrespond =>
        rw [hrespond, program_cons_of_dot hquit hcommand, hcommand, if_neg Bool.false_ne_true]
        exact ih h
      | obeys hquit hcommand hrespond =>
        have hvalues : (fun name => (d.valueOf name).1) = fun name => (c.valueOf name).1 :=
          funext fun name => (valueOf_congr h.store_eq name).1
        obtain ⟨hstore, hreplies⟩ := ih (h.step hhalted (Script.clean line.toList))
        rw [hrespond, respondCommand_eq, if_pos hcommand, program_cons_of_isCommand hquit hcommand,
          run_cons, answers, if_neg (by simp [hhalted])]
        dsimp only
        rw [hstore, hreplies, hvalues]
        exact ⟨rfl, rfl⟩

/-- A dot command can be left out, and the reply to it is all that is missing. -/
theorem replies_eraseIdx (hquit : isDotQuit line = false) (hcommand : isCommand line = false)
    (before after : List String) (c : Calculator) :
    replies c (encodeLines (before ++ after)) =
      ((replies c (encodeLines (before ++ line :: after))).1.eraseIdx before.length,
        (replies c (encodeLines (before ++ line :: after))).2) := by
  induction before generalizing c with
  | nil =>
    cases h : c.halted with
    | true => rw [replies_of_halted h, replies_of_halted h]; rfl
    | false =>
      have hrespond : (respond line c).2 = c := by
        cases responds line c with
        | quits hquit' => rw [hquit] at hquit'; cases hquit'
        | inspects _ _ hrespond => exact hrespond
        | obeys _ hcommand' => rw [hcommand] at hcommand'; cases hcommand'
      rw [List.nil_append, List.nil_append, encodeLines, encodeLines, List.map_cons, replies_cons h,
        hrespond]
      rfl
  | cons first before ih =>
    cases h : c.halted with
    | true => rw [replies_of_halted h, replies_of_halted h, List.eraseIdx_nil]
    | false =>
      rw [List.cons_append, List.cons_append, encodeLines, encodeLines, List.map_cons,
        List.map_cons, replies_cons h, replies_cons h, ← encodeLines, ← encodeLines, ih]
      rfl

/-! ## Transcripts -/

/-- The transcript of a dialogue: the banner, and each reply behind a prompt. -/
theorem converse_eq (bytes : ByteArray) :
    converse bytes =
      { out := banner ++ String.join
          ((replies fresh (Script.byteLines bytes)).1.map fun reply => prompt ++ reply.out)
        err := String.join ((replies fresh (Script.byteLines bytes)).1.map Transcript.err) } := by
  have hfold (out : List Transcript) (t : Transcript) :
      out.foldl (fun t reply => t ++ .output prompt ++ reply) t =
        { out := t.out ++ String.join (out.map fun reply => prompt ++ reply.out)
          err := t.err ++ String.join (out.map Transcript.err) } := by
    induction out generalizing t with
    | nil =>
      rw [List.map_nil, List.map_nil, String.join_nil, String.append_empty, String.append_empty]
      rfl
    | cons reply out ih =>
      have hout : (t ++ .output prompt ++ reply).out = t.out ++ (prompt ++ reply.out) :=
        String.append_assoc
      have herr : (t ++ .output prompt ++ reply).err = t.err ++ reply.err :=
        congrArg (· ++ reply.err) String.append_empty
      rw [List.foldl_cons, ih, hout, herr, List.map_cons, List.map_cons, String.join_cons,
        String.join_cons]
      simp only [String.append_assoc]
  rw [converse, hfold]
  exact congrArg (Transcript.mk _) String.empty_append

/-- A dialogue computes what the batch run of its program computes. -/
structure Computes (lines : List String) (replies : List Transcript) (c : Calculator) : Prop where
  store_eq : c.store = (fresh.run (program lines)).store
  /-- A register command is answered with the outcomes of its line. -/
  commandReplies_eq : commandReplies lines replies =
    (fresh.answers (program lines)).map fun os => .outputLines (os.flatMap Outcome.dialogueLines)
  outcomes_eq :
    (fresh.run (program lines)).outcomes.toList = (fresh.answers (program lines)).flatten
  halted_eq : c.halted = lines.any finishes
  /-- There is one prompt more than lines if the input ends before the dialogue. -/
  length_eq : replies.length = (linesRead lines).length + if c.halted then 0 else 1

/-- **A dialogue computes what a batch run computes.** The replies to its register commands are the
outcomes of the batch run, and the registers in the end are those of the batch run. Any other line
can be left out together with the reply to it, unless it ends the dialogue. -/
theorem converse_computes {bytes : ByteArray} {text : String}
    (h : String.fromUTF8? bytes = some text) :
    let lines := (Text.splitLines '\n' text.toList).map String.ofList
    let out := replies fresh (Script.byteLines bytes)
    Computes lines out.1 out.2 ∧
      converse bytes =
        { out := banner ++ String.join (out.1.map fun reply => prompt ++ reply.out)
          err := String.join (out.1.map Transcript.err) } ∧
      ∀ before line after, lines = before ++ line :: after → isCommand line = false →
        isDotQuit line = false →
        replies fresh (encodeLines (before ++ after)) = (out.1.eraseIdx before.length, out.2) := by
  intro lines out
  have hbytes : Script.byteLines bytes = encodeLines lines := by
    rw [Script.byteLines_of_fromUTF8? h, encodeLines, List.map_map]
    exact List.map_congr_left fun cs _ => congrArg Text.encode String.toList_ofList.symm
  have hout : out = replies fresh (encodeLines lines) := congrArg (replies fresh) hbytes
  have hstep : fresh.InStep fresh := ⟨rfl, rfl⟩
  have hhalted : out.2.halted = lines.any finishes := by
    rw [hout, halted_replies]
    rfl
  refine ⟨⟨?_, ?_, fresh.outcomes_run _, hhalted, ?_⟩, converse_eq bytes, ?_⟩
  · rw [hout, (replies_inStep hstep lines).1]
  · rw [hout, (replies_inStep hstep lines).2]
  · rw [hhalted, length_linesRead, hout, length_replies rfl]
  · intro before line after hlines hcommand hquit
    rw [hout, hlines]
    exact replies_eraseIdx hquit hcommand before after fresh

/-- A cycle is met behind a dot command, and a line is typed after the end of the dialogue. -/
theorem converse_computes_cycle :
    let text := "A add a\n.log A\n print a\r\n. quit it\nx"
    let lines := (Text.splitLines '\n' text.toList).map String.ofList
    let out := replies fresh (Script.byteLines text.toByteArray)
    Computes lines out.1 out.2 ∧
      replies fresh (encodeLines (["A add a"] ++ [" print a\r", ". quit it", "x"])) =
        (out.1.eraseIdx 1, out.2) ∧
      program lines = ["a add a", "print a"] ∧ out.1.length = 4 ∧
      commandReplies lines out.1 = [{}, .outputLines ["Invalid command \"print a\" was ignored. " ++
        "Register \"a\" is dependent on itself.", "  cycle: a -> a"]] := by
  intro text lines out
  have htext : String.fromUTF8? text.toByteArray = some text := by decide
  have hlines : lines = ["A add a"] ++ ".log A" :: [" print a\r", ". quit it", "x"] := by
    decide
  obtain ⟨hcomputes, -, herase⟩ := converse_computes htext
  exact ⟨hcomputes, herase _ _ _ hlines (by decide) (by decide +kernel), by decide +kernel,
    by decide +kernel, by decide +kernel⟩

end Console.Dialogue

end LazyRegisters
