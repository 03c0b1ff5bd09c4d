/-!
# Edit distance

The edit distance of two texts is the least number of characters to insert, delete or replace that
turns one into the other. It is computed row by row: the row of a text `s` holds the distances of
`s` to all the ends of `t`, longest first.
-/

namespace LazyRegisters.Text

/-- The row of the empty text: the length of every end of `t`. -/
def firstRow : List Char → List Nat
  | [] => [0]
  | _ :: t => (t.length + 1) :: firstRow t

/-- The row of `a :: s` for the row of `s`. -/
def nextRow (a : Char) : List Char → List Nat → List Nat
  | b :: t, x :: row =>
    let rest := nextRow a t row
    let diagonal := row.headD 0
    (if a = b then diagonal else 1 + min x (min (rest.headD 0) diagonal)) :: rest
  | _, row => row.map (· + 1)

/-- The least number of insertions, deletions and replacements between two texts. -/
def distance (s t : List Char) : Nat :=
  (s.foldr (fun a row => nextRow a t row) (firstRow t)).headD 0

end LazyRegisters.Text
