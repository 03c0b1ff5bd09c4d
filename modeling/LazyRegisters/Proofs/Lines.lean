import LazyRegisters.Calculator
import Mathlib.Data.List.Basic

/-!
# What a line does

A line that parses to an operate command records it, one that parses to a print command forces a
register, and any other line leaves the registers and the events alone. The outcomes are those
before, with what the line answers behind them. Once a line has ended the program, no other line
matters: a run is a run of the lines before that one (`run_eq`).
-/

namespace LazyRegisters

theorem Command.parse_eq_ok_iff {line : String} {command : Command} :
    parse line = .ok command ↔ ofWords (Text.words line) = .ok command := by
  unfold parse
  cases ofWords (Text.words line) with
  | error reason => simp [Except.mapError]
  | ok command' => simp [Except.mapError]

namespace Calculator

variable {c c' : Calculator} {line name : String}

@[simp] theorem outcomes_valueOf (c : Calculator) (name : String) :
    (c.valueOf name).2.outcomes = c.outcomes := by
  unfold valueOf
  split
  · rfl
  · dsimp only
    split <;> rfl

@[simp] theorem halted_valueOf (c : Calculator) (name : String) :
    (c.valueOf name).2.halted = c.halted := by
  unfold valueOf
  split
  · rfl
  · dsimp only
    split <;> rfl

/-! ## Obeying a line -/

theorem executeLine_of_parse_error {rejection : Rejection}
    (h : Command.parse line = .error rejection) : c.executeLine line = (.error rejection, c) := by
  rw [executeLine, h]

theorem executeLine_of_operate {target : String} {op : Operation} {operand : Operand String}
    (h : Command.parse line = .ok (.operate target op operand)) :
    c.executeLine line = (.ok (), c.operate target op operand) := by
  rw [executeLine, h]
  rfl

theorem executeLine_of_quit (h : Command.parse line = .ok .quit) :
    c.executeLine line = (.ok (), { c.note .quit with halted := true }) := by
  rw [executeLine, h]
  rfl

theorem executeLine_of_print_ok {v : Float} (h : Command.parse line = .ok (.print name))
    (hv : c.valueOf name = (.ok v, c')) :
    c.executeLine line = (.ok (), c'.report (.printed name v)) := by
  rw [executeLine, h]
  simp only [execute, hv]
  rfl

theorem executeLine_of_print_error {reason : Reason} (h : Command.parse line = .ok (.print name))
    (hv : c.valueOf name = (.error reason, c')) :
    c.executeLine line = (.error (.ofLine line reason), c') := by
  rw [executeLine, h]
  simp only [execute, hv]
  rfl

/-! ## Reporting it -/

theorem step_of_halted (h : c.halted) (line : String) : c.step line = c := by
  rw [step, if_pos h]

theorem step_of_ok (h : c.halted = false) (hline : c.executeLine line = (.ok (), c')) :
    c.step line = c' := by
  rw [step, h, hline]
  rfl

theorem step_of_error (h : c.halted = false) {rejection : Rejection}
    (hline : c.executeLine line = (.error rejection, c')) :
    c.step line = (c'.note (.rejected rejection)).report (.rejected rejection) := by
  rw [step, h, hline]
  rfl

/-- What a line is answered with, given what the registers come to. -/
def answer (result : String → Except Reason Float) (line : String) : List Outcome :=
  match Command.parse line with
  | .error rejection => [.rejected rejection]
  | .ok (.print name) =>
    match result name with
    | .ok v => [.printed name v]
    | .error reason => [.rejected (.ofLine line reason)]
  | .ok _ => []

theorem outcomes_step (h : c.halted = false) (line : String) :
    (c.step line).outcomes.toList =
      c.outcomes.toList ++ answer (fun name => (c.valueOf name).1) line := by
  rw [answer]
  cases hparse : Command.parse line with
  | error rejection =>
    rw [step_of_error h (executeLine_of_parse_error hparse)]
    exact Array.toList_push
  | ok command =>
    cases command with
    | operate target op operand =>
      rw [step_of_ok h (executeLine_of_operate hparse)]
      exact (List.append_nil _).symm
    | print name =>
      have hkept := c.outcomes_valueOf name
      rcases hv : c.valueOf name with ⟨reason | v, c'⟩ <;> rw [hv] at hkept
      · rw [step_of_error h (executeLine_of_print_error hparse hv), ← hkept]
        simp [report, note, hv]
      · rw [step_of_ok h (executeLine_of_print_ok hparse hv), ← hkept]
        simp [report, hv]
    | quit =>
      rw [step_of_ok h (executeLine_of_quit hparse)]
      exact (List.append_nil _).symm

theorem run_cons (line : String) (lines : List String) (c : Calculator) :
    c.run (line :: lines) = (c.step line).run lines := rfl

/-! ## Ending the program -/

def ends (line : String) : Bool :=
  match Command.parse line with
  | .ok .quit => true
  | _ => false

/-- The lines before the first one that ends the program. -/
def heeded (lines : List String) : List String := lines.takeWhile (!ends ·)

def ended (c : Calculator) : Calculator := { c.note .quit with halted := true }

theorem ends_iff : ends line ↔ Command.parse line = .ok .quit := by
  unfold ends
  split
  · next h => exact ⟨fun _ => h, fun _ => rfl⟩
  · next hne => exact ⟨fun h => absurd h Bool.false_ne_true, fun h => absurd h hne⟩

theorem ends_eq_false {lines : List String} (h : line ∈ heeded lines) : ends line = false := by
  simpa using List.all_eq_true.1 List.all_takeWhile line h

theorem executeLine_of_ends (h : ends line) : c.executeLine line = (.ok (), c.ended) :=
  executeLine_of_quit (ends_iff.1 h)

theorem halted_executeLine (h : ends line = false) :
    (c.executeLine line).2.halted = c.halted := by
  cases hparse : Command.parse line with
  | error rejection => rw [executeLine_of_parse_error hparse]
  | ok command =>
    cases command with
    | operate target op operand =>
      rw [executeLine_of_operate hparse]
      rfl
    | print name =>
      have hkept := c.halted_valueOf name
      rcases hv : c.valueOf name with ⟨reason | v, c'⟩ <;> rw [hv] at hkept
      · rw [executeLine_of_print_error hparse hv, hkept]
      · rw [executeLine_of_print_ok hparse hv]
        exact hkept
    | quit =>
      rw [ends_iff.2 hparse] at h
      cases h

theorem step_of_ends (h : c.halted = false) (hline : ends line) : c.step line = c.ended :=
  step_of_ok h (executeLine_of_ends hline)

theorem halted_step (h : c.halted = false) (hline : ends line = false) :
    (c.step line).halted = false := by
  have hkept := (halted_executeLine (c := c) hline).trans h
  rcases hexec : c.executeLine line with ⟨rejection | ⟨⟩, c'⟩ <;> rw [hexec] at hkept
  · rw [step_of_error h hexec]
    exact hkept
  · rw [step_of_ok h hexec]
    exact hkept

theorem run_of_halted (h : c.halted) (lines : List String) : c.run lines = c :=
  List.foldl_fixed' (step_of_halted h) lines

/-- A run is one of the lines before the first that ends the program, and the end of it. -/
theorem run_eq (h : c.halted = false) (lines : List String) :
    c.run lines =
      if lines.any ends then (c.run (heeded lines)).ended else c.run (heeded lines) := by
  induction lines generalizing c with
  | nil => rfl
  | cons line lines ih =>
    cases hline : ends line with
    | true =>
      rw [heeded, List.takeWhile_cons_of_neg (by simp [hline]), List.any_cons, hline, Bool.true_or,
        if_pos rfl, run_cons, step_of_ends h hline]
      exact run_of_halted rfl lines
    | false =>
      rw [heeded, List.takeWhile_cons_of_pos (by simp [hline]), List.any_cons, hline, Bool.false_or,
        run_cons, run_cons, ih (halted_step h hline)]
      rfl

theorem store_run_heeded (h : c.halted = false) (lines : List String) :
    (c.run (heeded lines)).store = (c.run lines).store := by
  rw [run_eq h lines]
  split <;> rfl

theorem outcomes_run_heeded (h : c.halted = false) (lines : List String) :
    (c.run (heeded lines)).outcomes = (c.run lines).outcomes := by
  rw [run_eq h lines]
  split <;> rfl

end Calculator

end LazyRegisters
