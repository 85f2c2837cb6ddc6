namespace Quasiquote

/-!
# Pieces of text — text taken apart at a separator

* `Pieces.split` — the pieces of a text between separators; there is always one
  more piece than there are separators;
* `Pieces.join` — pieces put together again.
-/

namespace Pieces

/-- The pieces of a text between separators. -/
def split (sep : Char) : List Char → List (List Char)
  | [] => [[]]
  | c :: cs =>
    if c = sep then [] :: split sep cs
    else match split sep cs with
      | [] => [[c]]
      | p :: ps => (c :: p) :: ps

/-- Pieces with a separator between any two of them. -/
def join (sep : Char) : List (List Char) → List Char
  | [] => []
  | [p] => p
  | p :: ps => p ++ sep :: join sep ps

/-- There is at least one piece. -/
theorem split_ne_nil (sep : Char) (cs : List Char) : split sep cs ≠ [] := by
  cases cs with
  | nil => simp [split]
  | cons c cs =>
    simp only [split]
    split
    · simp
    · split <;> simp

/-- Joining the pieces gives the text back. -/
theorem join_split (sep : Char) (cs : List Char) : join sep (split sep cs) = cs := by
  induction cs with
  | nil => rfl
  | cons c cs ih =>
    by_cases h : c = sep
    · subst h
      cases hs : split c cs with
      | nil => exact absurd hs (split_ne_nil c cs)
      | cons p ps =>
        rw [hs] at ih
        simp [split, hs, join, ih]
    · cases hs : split sep cs with
      | nil => exact absurd hs (split_ne_nil sep cs)
      | cons p ps =>
        rw [hs] at ih
        cases ps with
        | nil => simp_all [split, join]
        | cons q qs => simp_all [split, join]

end Pieces

end Quasiquote
