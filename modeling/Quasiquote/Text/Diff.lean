import Quasiquote.Text.Pieces

namespace Quasiquote

/-!
# Line diffs

Two texts are compared line by line.  Lines that both have in common are shown
once; between them stand the lines that were removed, and then those that were
added.

* `Diff.common` — a longest sequence of lines that two lists have in common;
* `Diff.edits` — one list of lines turned into another along common lines;
* `Diff.render` — the diff of two texts.
-/

namespace Diff

/-- What becomes of a line. -/
inductive Change where
  | same
  | removed
  | added
deriving DecidableEq, Repr

/-- The mark in front of a line. -/
def Change.mark : Change → Char
  | .same => ' '
  | .removed => '-'
  | .added => '+'

/-! ### Common lines -/

/-- One more row of the table of lengths: for the line `x` after the lines of the
    row `above`, with one entry for each line of the new text. -/
def row (x : String) : Nat → Nat → List Nat → List String → List Nat
  | diagonal, left, up :: above, y :: ys =>
    let n := if x = y then diagonal + 1 else max left up
    n :: row x up n above ys
  | _, _, _, _ => []

/-- The table of lengths: an entry for each pair of lines tells how many lines the
    texts up to there have in common. -/
def table (new : List String) : List Nat → List String → List (List Nat)
  | _, [] => []
  | above, x :: old =>
    let r := row x 0 0 above new
    r :: table new r old

/-- The common lines among the first `i` and the first `j` lines, the last one
    first.  The table says which way no line is lost. -/
def commonBack (lengths : List (List Nat)) (old new : List String) : Nat → Nat → List String
  | 0, _ => []
  | _, 0 => []
  | i + 1, j + 1 =>
    let entry (a b : Nat) : Nat := (lengths.getD a []).getD b 0
    if old.getD i "" = new.getD j "" then
      old.getD i "" :: commonBack lengths old new i j
    else if i = 0 && j = 0 then []
    else
      let left := if j = 0 then entry (i - 1) (new.length - 1) else entry i (j - 1)
      if i = 0 || left > entry (i - 1) j then commonBack lengths old new (i + 1) j
      else commonBack lengths old new i (j + 1)
termination_by i j => i + j

/-- The lines that two texts have in common. -/
def common (old new : List String) : List String :=
  let lengths := table new (new.map fun _ => 0) old
  (commonBack lengths old new old.length new.length).reverse

/-! ### Changes -/

/-- What becomes of the lines, given the common ones. -/
def edits : List String → List String → List String → List (Change × String)
  | [], old, new => old.map (.removed, ·) ++ new.map (.added, ·)
  | x :: xs, old, new =>
    (old.takeWhile (· != x)).map (.removed, ·) ++ (new.takeWhile (· != x)).map (.added, ·) ++
      (.same, x) :: edits xs ((old.dropWhile (· != x)).drop 1) ((new.dropWhile (· != x)).drop 1)

/-- Lines that share their fate, taken together. -/
def blocks : List (Change × String) → List (Change × List String)
  | [] => []
  | (c, x) :: rest =>
    match blocks rest with
    | (d, xs) :: bs => if c = d then (c, x :: xs) :: bs else (c, [x]) :: (d, xs) :: bs
    | [] => [(c, [x])]

/-- The lines of a block, without an empty line at its end. -/
def shownLines (xs : List String) : List String :=
  if xs.getLast? = some "" then xs.dropLast else xs

/-- The lines of a text.  The empty text has none, and an empty line at the start
    does not count. -/
def linesOf (text : String) : List String :=
  let lines := (Pieces.split '\n' text.toList).map String.ofList
  if lines.head? = some "" then lines.drop 1 else lines

/-- The diff of two texts, a mark in front of each line. -/
def render (old new : String) : String :=
  let split (t : String) := (Pieces.split '\n' t.toList).map String.ofList
  let shared := common (split old) (split new)
  let shared := if shared.head? = some "" then shared.drop 1 else shared
  "".intercalate <| (blocks (edits shared (linesOf old) (linesOf new))).flatMap fun (c, xs) =>
    (shownLines xs).map fun x => String.ofList (c.mark :: (x.toList ++ ['\n']))

end Diff

end Quasiquote
