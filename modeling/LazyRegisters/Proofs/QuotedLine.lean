import LazyRegisters.Proofs.Calls
import LazyRegisters.Proofs.Words

/-!
# The quoted line

A rejection quotes its line as it was given, or the words of it joined by single spaces. Either way
the quoted line has the words of the line (`Rejection.words_line_ofLine`). The words decide what a
line does and the reason for which it is rejected (`Calculator.executeLine_eq`). So the quoted line
is rejected as the line was, with the same quotation (`Calculator.executeLine_quoted`).
-/

namespace LazyRegisters

theorem Reason.quotesLine_iff {reason : Reason} :
    reason.quotesLine ↔ reason = .arity ∨ ∃ register cycle, reason = .cyclic register cycle := by
  cases reason <;> simp [quotesLine]

namespace Rejection

theorem ofLine_eq (line : String) (reason : Reason) :
    ofLine line reason =
      ⟨if reason.quotesLine then line else Text.joinWords (Text.words line), reason⟩ := by
  cases reason <;> rfl

theorem words_line_ofLine (line : String) (reason : Reason) :
    Text.words (ofLine line reason).line = Text.words line := by
  rw [ofLine_eq]
  show Text.words (if reason.quotesLine then line else _) = Text.words line
  split
  · rfl
  · exact Text.words_joinWords fun _ => Text.isWord_of_mem_words

theorem ofLine_line_ofLine (line : String) (reason : Reason) :
    ofLine (ofLine line reason).line reason = ofLine line reason := by
  rw [ofLine_eq (ofLine line reason).line, words_line_ofLine, ofLine_eq line]
  show Rejection.mk (if reason.quotesLine then (if reason.quotesLine then line else _) else _) _ = _
  split <;> rfl

end Rejection

namespace Calculator

variable {c : Calculator} {line : String} {rejection : Rejection}

def obeyWords (ws : List String) (c : Calculator) : Except Reason Unit × Calculator :=
  match Command.ofWords ws with
  | .error reason => (.error reason, c)
  | .ok command => c.execute command

/-- A line is obeyed by its words; only quoting it takes the line itself. -/
theorem executeLine_eq (line : String) (c : Calculator) :
    c.executeLine line = ((c.obeyWords (Text.words line)).1.mapError (Rejection.ofLine line),
      (c.obeyWords (Text.words line)).2) := by
  unfold executeLine Command.parse obeyWords
  cases Command.ofWords (Text.words line) <;> rfl

theorem exists_reason_of_executeLine (h : (c.executeLine line).1 = .error rejection) :
    ∃ reason, (c.obeyWords (Text.words line)).1 = .error reason ∧
      rejection = .ofLine line reason := by
  rw [executeLine_eq] at h
  cases hresult : (c.obeyWords (Text.words line)).1 with
  | ok done =>
    rw [hresult] at h
    cases h
  | error reason =>
    rw [hresult] at h
    exact ⟨reason, rfl, (Except.error.inj h).symm⟩

/-- **The quoted line reproduces the rejection.** Obeyed in the same state, it is rejected with the
same rejection, and leaves behind what the line leaves behind. It is the line itself if the line has
a wrong number of words or meets a cycle, and otherwise its words joined by single spaces, which are
the words of the quoted line. A line that is no command is rejected as parsing it is. -/
theorem executeLine_quoted (h : (c.executeLine line).1 = .error rejection) :
    c.executeLine rejection.line = (.error rejection, (c.executeLine line).2) ∧
      (rejection.reason = .arity ∨ (∃ register cycle, rejection.reason = .cyclic register cycle) →
        rejection.line = line) ∧
      (¬ (rejection.reason = .arity ∨
          ∃ register cycle, rejection.reason = .cyclic register cycle) →
        rejection.line = Text.joinWords (Text.words line)) ∧
      Text.words rejection.line = Text.words line ∧
      ∀ rejection', Command.parse line = .error rejection' → rejection' = rejection := by
  obtain ⟨reason, hreason, rfl⟩ := exists_reason_of_executeLine h
  have hwords := Rejection.words_line_ofLine line reason
  refine ⟨?_, fun hquotes => ?_, fun hquotes => ?_, hwords, fun rejection' hparse => ?_⟩
  · rw [executeLine_eq, hwords, hreason, executeLine_eq]
    show (Except.error (Rejection.ofLine _ reason), _) = _
    rw [Rejection.ofLine_line_ofLine]
  · rw [Rejection.reason_ofLine, ← Reason.quotesLine_iff] at hquotes
    rw [Rejection.ofLine_eq]
    exact if_pos hquotes
  · rw [Rejection.reason_ofLine, ← Reason.quotesLine_iff] at hquotes
    rw [Rejection.ofLine_eq]
    exact if_neg hquotes
  · rw [executeLine_of_parse_error hparse] at h
    exact Except.error.inj h

/-- Spaces go from the quotation of a register that was never mentioned, and stay where a cycle is
met. -/
theorem executeLine_quoted_spaces :
    let c := fresh.performAll [.run ["a add b", "b add a"]]
    (∃ c', c.executeLine "print   y" = (.error ⟨"print y", .undeclared "y"⟩, c') ∧
      c.executeLine "print y" = (.error ⟨"print y", .undeclared "y"⟩, c')) ∧
    (c.executeLine " print  a").1 = .error ⟨" print  a", .cyclic "a" ["a", "b", "a"]⟩ ∧
    ∃ rejection, (c.executeLine "a\t divide  2").1 = .error rejection ∧
      rejection.line = "a divide 2" ∧ Command.parse "a divide 2" = .error rejection := by
  intro c
  have hunknown : (c.executeLine "print   y").1 = .error ⟨"print y", .undeclared "y"⟩ := by
    decide +kernel
  have hcyclic : (c.executeLine " print  a").1 =
      .error ⟨" print  a", .cyclic "a" ["a", "b", "a"]⟩ := by
    decide +kernel
  have hdivide : (c.executeLine "a\t divide  2").1 =
      .error ⟨"a divide 2", .unknownOperation "divide" none⟩ := by
    decide +kernel
  refine ⟨⟨(c.executeLine "print   y").2, Prod.ext hunknown rfl,
    (executeLine_quoted hunknown).1⟩, hcyclic, _, hdivide, rfl, ?_⟩
  decide +kernel

end Calculator

end LazyRegisters
