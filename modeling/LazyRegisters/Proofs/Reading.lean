import LazyRegisters.Console.Batch
import LazyRegisters.Proofs.ByteLines
import LazyRegisters.Proofs.CleanLines

/-!
# Files and typed programs

A typed program is read up to the first quit command and a file to its end, where a run stops at the
first quit command by itself. So both give the same runs (`ofTyped_eq_heeded`). Bytes that are not
UTF-8 tell the two apart: they make a file unreadable wherever they are, and a typed program only
before that quit command, for it is the program in a file of the bytes before it
(`ofTyped_eq_ofFile`).
-/

namespace LazyRegisters

namespace Script

open Calculator

def quits (line : List UInt8) : Bool :=
  (decodeLine? line).any fun text => clean text.toList = Command.quitKeyword

def linesBeforeQuit (bytes : List UInt8) : List (List UInt8) :=
  (Text.splitLines 10 bytes).takeWhile (!quits ·)

/-- The bytes before the first line that is a quit command. -/
def beforeQuit (bytes : ByteArray) : ByteArray :=
  (bytes.toList.take ((linesBeforeQuit bytes.toList).flatMap (· ++ [10])).length).toByteArray

theorem quits_eq_false {line bytes : List UInt8} (h : line ∈ linesBeforeQuit bytes) :
    quits line = false := by
  simpa using List.all_eq_true.1 List.all_takeWhile line h

theorem quits_encode (cs : List Char) :
    quits (Text.encode cs) = decide (clean cs = Command.quitKeyword) := by
  rw [quits, decodeLine?_encode, Option.any_some, String.toList_ofList]

/-! ## Lines that are read -/

theorem untilQuit_encode (lines : List (List Char)) :
    untilQuit (lines.map Text.encode) =
      .ok ((lines.map clean).takeWhile fun line => line ≠ Command.quitKeyword) := by
  induction lines with
  | nil => rfl
  | cons cs lines ih =>
    rw [List.map_cons, untilQuit, decodeLine?_encode]
    dsimp only
    rw [String.toList_ofList, List.map_cons]
    by_cases hquit : clean cs = Command.quitKeyword
    · rw [if_pos hquit, List.takeWhile_cons_of_neg (by simpa using hquit)]
    · rw [if_neg hquit, List.takeWhile_cons_of_pos (by simpa using hquit), ih]
      rfl

/-- What comes from the first quit command on is not read. -/
theorem untilQuit_takeWhile (lines : List (List UInt8)) :
    untilQuit (lines.takeWhile (!quits ·)) = untilQuit lines := by
  induction lines with
  | nil => rfl
  | cons line lines ih =>
    cases hquits : quits line with
    | true =>
      rw [List.takeWhile_cons_of_neg (by simp [hquits]), untilQuit, untilQuit]
      obtain ⟨text, htext, hquit⟩ := (Option.any_eq_true _ _).1 hquits
      rw [htext]
      exact (if_pos (of_decide_eq_true hquit)).symm
    | false =>
      rw [List.takeWhile_cons_of_pos (by simp [hquits]), untilQuit, untilQuit, ih]

theorem untilQuit_eq_error {lines : List (List UInt8)} (hquits : ∀ line ∈ lines, quits line = false)
    {line : List UInt8} (hline : line ∈ lines) (hnone : decodeLine? line = none) :
    untilQuit lines = .error .notUtf8 := by
  induction lines with
  | nil => cases hline
  | cons first lines ih =>
    have hfirst := hquits first List.mem_cons_self
    rw [untilQuit]
    cases htext : decodeLine? first with
    | none => rfl
    | some text =>
      rw [quits, htext, Option.any_some, decide_eq_false_iff_not] at hfirst
      rcases List.mem_cons.1 hline with rfl | hline
      · rw [hnone] at htext
        cases htext
      · dsimp only
        rw [if_neg hfirst, ih (fun l hl => hquits l (List.mem_cons_of_mem first hl)) hline]
        rfl

/-! ## Texts that are read -/

theorem heeded_map_clean (lines : List (List Char)) :
    heeded (lines.map clean) =
      (lines.map clean).takeWhile fun line => line ≠ Command.quitKeyword := by
  have hends : (fun line => !ends line) ∘ clean =
      (fun line => decide (line ≠ Command.quitKeyword)) ∘ clean := by
    funext cs
    rw [Function.comp_apply, Function.comp_apply, Bool.eq_iff_iff, decide_eq_true_iff, ne_eq,
      ← ends_clean_iff, Bool.not_eq_true', Bool.not_eq_true]
  rw [heeded, List.takeWhile_map, List.takeWhile_map, hends]

/-- A line at the end that ends the program makes no difference. -/
theorem heeded_concat {line : String} (h : ends line) (lines : List String) :
    heeded (lines ++ [line]) = heeded lines := by
  rw [heeded, heeded, List.takeWhile_append]
  split
  · next hlength =>
    rw [List.takeWhile_cons_of_neg (by simp [h]), List.append_nil]
    exact ((List.takeWhile_prefix _).eq_of_length hlength).symm
  · rfl

/-- The quit command that is left out of a text is not heeded anyway. -/
theorem heeded_ofText (text : String) :
    heeded (ofText text) = heeded ((Text.splitLines '\n' text.toList).map clean) := by
  unfold ofText
  dsimp only
  split
  · next hlast =>
    obtain ⟨lines, hlines⟩ := List.getLast?_eq_some_iff.1 hlast
    rw [hlines, List.dropLast_concat, heeded_concat (by decide)]
  · rfl

/-! ## Bytes that are read -/

/-- A typed program is what is heeded of the program in a file. -/
theorem ofTyped_eq_heeded {bytes : ByteArray} {text : String}
    (h : String.fromUTF8? bytes = some text) : ofTyped bytes = .ok (heeded (ofText text)) := by
  rw [ofTyped, byteLines_of_fromUTF8? h, untilQuit_encode, heeded_ofText, heeded_map_clean]

theorem splitLines_take {α : Type} [DecidableEq α] (feed : α) (p : List α → Bool) (cs : List α) :
    Text.splitLines feed
        (cs.take (((Text.splitLines feed cs).takeWhile p).flatMap (· ++ [feed])).length) =
      (Text.splitLines feed cs).takeWhile p := by
  induction cs using Text.lines_induction feed with
  | hlast l hl =>
    by_cases hne : l = []
    · subst hne
      rfl
    · rw [Text.splitLines_of_notMem hl hne]
      cases hp : p l with
      | true =>
        rw [List.takeWhile_cons_of_pos hp, List.takeWhile_nil, List.take_of_length_le (by simp),
          Text.splitLines_of_notMem hl hne]
      | false =>
        rw [List.takeWhile_cons_of_neg (by simp [hp])]
        rfl
  | hline l cs hl ih =>
    rw [Text.splitLines_append_cons feed cs hl]
    cases hp : p l with
    | true =>
      have htake (n : Nat) :
          (l ++ feed :: cs).take ((l ++ [feed]).length + n) = l ++ feed :: cs.take n := by
        rw [List.append_cons l feed cs, List.take_length_add_append, List.append_assoc,
          List.singleton_append]
      rw [List.takeWhile_cons_of_pos hp, List.flatMap_cons, List.length_append, htake,
        Text.splitLines_append_cons feed _ hl, ih]
    | false =>
      rw [List.takeWhile_cons_of_neg (by simp [hp])]
      rfl

theorem byteLines_beforeQuit (bytes : ByteArray) :
    byteLines (beforeQuit bytes) = linesBeforeQuit bytes.toList := by
  rw [byteLines, beforeQuit, toList_toByteArray]
  exact splitLines_take 10 (!quits ·) bytes.toList

theorem fromUTF8?_beforeQuit_eq_none_iff {bytes : ByteArray} :
    String.fromUTF8? (beforeQuit bytes) = none ↔
      ∃ line ∈ linesBeforeQuit bytes.toList, decodeLine? line = none := by
  rw [fromUTF8?_eq_none_iff, Text.exists_encode_iff, ← byteLines, byteLines_beforeQuit]
  simp only [decodeLine?_eq_none_iff, not_forall, exists_prop]

theorem clean_ne_of_beforeQuit {bytes : ByteArray} {text : String}
    (h : String.fromUTF8? (beforeQuit bytes) = some text) {cs : List Char}
    (hcs : cs ∈ Text.splitLines '\n' text.toList) : clean cs ≠ Command.quitKeyword := by
  have hline : Text.encode cs ∈ linesBeforeQuit bytes.toList := by
    rw [← byteLines_beforeQuit, byteLines_of_fromUTF8? h]
    exact List.mem_map_of_mem hcs
  simpa [quits_encode] using quits_eq_false hline

/-- A typed program is the program in a file of the bytes before the first quit command. -/
theorem ofTyped_eq_ofFile (bytes : ByteArray) :
    ofTyped bytes = ofFile (some (beforeQuit bytes)) := by
  rw [ofTyped, byteLines, ← untilQuit_takeWhile, ← linesBeforeQuit, ofFile]
  cases htext : String.fromUTF8? (beforeQuit bytes) with
  | some text =>
    -- Without quit commands both readers keep all lines.
    have hquits (cs : List Char) (hcs : cs ∈ Text.splitLines '\n' text.toList) :=
      clean_ne_of_beforeQuit htext hcs
    dsimp only
    rw [← byteLines_beforeQuit, byteLines_of_fromUTF8? htext, untilQuit_encode,
      ofText_eq_map hquits, List.takeWhile_eq_self_iff.2]
    intro line hline
    obtain ⟨cs, hcs, rfl⟩ := List.mem_map.1 hline
    exact decide_eq_true (hquits cs hcs)
  | none =>
    obtain ⟨line, hline, hnone⟩ := fromUTF8?_beforeQuit_eq_none_iff.1 htext
    exact untilQuit_eq_error (fun _ => quits_eq_false) hline hnone

theorem ofTyped_eq_error_iff {bytes : ByteArray} :
    ofTyped bytes = .error .notUtf8 ↔
      ∃ line ∈ linesBeforeQuit bytes.toList, decodeLine? line = none := by
  rw [ofTyped_eq_ofFile, ← fromUTF8?_beforeQuit_eq_none_iff, ofFile]
  cases String.fromUTF8? (beforeQuit bytes) <;> simp

theorem ofTyped_eq_ok {bytes : ByteArray}
    (h : ∀ line ∈ linesBeforeQuit bytes.toList, decodeLine? line ≠ none) :
    ∃ text, String.fromUTF8? (beforeQuit bytes) = some text ∧
      ofTyped bytes = .ok ((Text.splitLines '\n' text.toList).map clean) := by
  have hread : String.fromUTF8? (beforeQuit bytes) ≠ none := by
    rw [ne_eq, fromUTF8?_beforeQuit_eq_none_iff]
    rintro ⟨line, hline, hnone⟩
    exact h line hline hnone
  obtain ⟨text, htext⟩ := Option.ne_none_iff_exists'.1 hread
  refine ⟨text, htext, ?_⟩
  rw [ofTyped_eq_ofFile, ofFile, htext]
  dsimp only
  rw [ofText_eq_map fun _ => clean_ne_of_beforeQuit htext]

end Script

namespace Console

theorem Transcript.outputLines_append (lines more : List String) :
    outputLines (lines ++ more) = outputLines lines ++ outputLines more := by
  rw [outputLines, List.map_append, String.join_append]
  exact congrArg (Transcript.mk _) (String.append_empty).symm

/-- The end of a typed program is answered with an empty line, and nothing else tells it from the
same program in a file. -/
theorem Batch.ofTyped_eq {bytes : ByteArray} {text : String}
    (h : String.fromUTF8? bytes = some text) :
    ofTyped bytes = .outputLines [""] ++ ofFile (some bytes) := by
  have houtput : outputLines (Calculator.heeded (Script.ofText text)) =
      outputLines (Script.ofText text) := by
    rw [outputLines, outputLines, Calculator.outcomes_run_heeded rfl]
  rw [ofTyped, Script.ofTyped_eq_heeded h, ofFile, Script.ofFile, h]
  dsimp only
  rw [houtput, ← Transcript.outputLines_append, List.singleton_append]

end Console

open Calculator in
/-- **A typed program runs as it runs from a file.** Bytes that are text give the same outcomes and
the same registers either way. Bytes that are not text are no program in a file. As a typed program
they fail at a line before the first quit command that is not text; if there is no such line, the
program is that of the bytes before the quit command. -/
theorem Script.ofTyped_agrees (bytes : ByteArray) :
    (∀ text, String.fromUTF8? bytes = some text →
      ofFile (some bytes) = .ok (ofText text) ∧
      ∃ typed, ofTyped bytes = .ok typed ∧
        (fresh.run typed).outcomes = (fresh.run (ofText text)).outcomes ∧
        (fresh.run typed).store = (fresh.run (ofText text)).store ∧
        Console.Batch.ofTyped bytes = .outputLines [""] ++ Console.Batch.ofFile (some bytes)) ∧
    (String.fromUTF8? bytes = none →
      ofFile (some bytes) = .error .notUtf8 ∧
      (ofTyped bytes = .error .notUtf8 ↔
        ∃ line ∈ linesBeforeQuit bytes.toList, decodeLine? line = none) ∧
      ((∀ line ∈ linesBeforeQuit bytes.toList, decodeLine? line ≠ none) →
        ∃ text, String.fromUTF8? (beforeQuit bytes) = some text ∧
          ofTyped bytes = .ok ((Text.splitLines '\n' text.toList).map clean))) := by
  constructor
  · intro text htext
    refine ⟨by rw [ofFile, htext], heeded (ofText text), ofTyped_eq_heeded htext, ?_, ?_,
      Console.Batch.ofTyped_eq htext⟩
    · exact outcomes_run_heeded rfl _
    · exact store_run_heeded rfl _
  · intro hnone
    exact ⟨by rw [ofFile, hnone], ofTyped_eq_error_iff, ofTyped_eq_ok⟩

/-- A program with quit commands in its middle and at its end, and one that is not text after its
quit command. -/
theorem Script.ofTyped_agrees_quit :
    let text := "\u00a0A add 2\r\nprint a\n\tquIT \r\nprint b\nquit"
    let bytes := "print a\nQuit\n".toByteArray.push 0xff
    Console.Batch.ofTyped text.toByteArray =
        .outputLines [""] ++ Console.Batch.ofFile (some text.toByteArray) ∧
      ofFile (some bytes) = .error .notUtf8 ∧ ofTyped bytes = .ok ["print a"] := by
  intro text bytes
  have htext : String.fromUTF8? text.toByteArray = some text := by decide
  have hread : String.fromUTF8? (beforeQuit bytes) = some "print a\n" := by decide +kernel
  obtain ⟨-, _, -, -, -, hsame⟩ := (ofTyped_agrees text.toByteArray).1 text htext
  obtain ⟨hfile, -, htyped⟩ := (ofTyped_agrees bytes).2 (by decide)
  obtain ⟨before, hbefore, hprogram⟩ := htyped (by decide +kernel)
  obtain rfl : before = "print a\n" := by
    rw [hread, Option.some.injEq] at hbefore
    exact hbefore.symm
  exact ⟨hsame, hfile, hprogram.trans (by decide)⟩

end LazyRegisters
