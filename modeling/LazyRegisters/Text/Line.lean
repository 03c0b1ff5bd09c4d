/-!
# Lines

A line ends at a line feed or where the text ends; nothing after the last line feed is no line.
The same splitting serves characters and bytes.
-/

namespace LazyRegisters.Text

variable {α : Type} [DecidableEq α]

/-- The lines of a text whose first line has been started with the given items, last item first. -/
def linesFrom (feed : α) (started : List α) : List α → List (List α)
  | [] => if started = [] then [] else [started.reverse]
  | c :: cs =>
    if c = feed then started.reverse :: linesFrom feed [] cs else linesFrom feed (c :: started) cs

/-- The lines of a text, without the line feeds. -/
def splitLines (feed : α) (cs : List α) : List (List α) := linesFrom feed [] cs

theorem splitLines_append_cons (feed : α) {l : List α} (cs : List α) (hl : feed ∉ l) :
    splitLines feed (l ++ feed :: cs) = l :: splitLines feed cs := by
  have key : ∀ started, linesFrom feed started (l ++ feed :: cs) =
      (started.reverse ++ l) :: splitLines feed cs := by
    induction l with
    | nil => intro started; simp [linesFrom, splitLines]
    | cons c l ih =>
      intro started
      have hc : c ≠ feed := fun h => hl (by simp [h])
      simp [linesFrom, hc, ih (fun h => hl (by simp [h]))]
  exact key []

/-- Without a line feed there is one line, unless there is nothing at all. -/
theorem splitLines_of_notMem {feed : α} {l : List α} (hl : feed ∉ l) (hne : l ≠ []) :
    splitLines feed l = [l] := by
  have key : ∀ started, started ≠ [] ∨ l ≠ [] →
      linesFrom feed started l = [started.reverse ++ l] := by
    clear hne
    induction l with
    | nil =>
      intro started hstarted
      simp [linesFrom, hstarted.resolve_right (· rfl)]
    | cons c l ih =>
      intro started _
      have hc : c ≠ feed := fun h => hl (by simp [h])
      simp [linesFrom, hc, ih (fun h => hl (by simp [h]))]
  exact key [] (.inr hne)

/-- A property of texts, one line after the other: it holds of what is left without a line feed, and
a line in front keeps it. -/
theorem lines_induction (feed : α) {P : List α → Prop} (hlast : ∀ l, feed ∉ l → P l)
    (hline : ∀ l cs, feed ∉ l → P cs → P (l ++ feed :: cs)) (cs : List α) : P cs := by
  by_cases h : feed ∈ cs
  · obtain ⟨l, rest, rfl, hl⟩ := List.eq_append_cons_of_mem h
    exact hline l rest hl (lines_induction feed hlast hline rest)
  · exact hlast cs h
termination_by cs.length

end LazyRegisters.Text
