namespace Quasiquote

/-!
# String literals — how text is written between double quotes

A literal is a double quote, the escaped text and a double quote.  Quotes,
backslashes, newlines and tabs are escaped; every other character stands for
itself.

* `Literal.escape`, `Literal.unescape` — from text to the inside of a literal
  and back;
* `Literal.unescape_escape` — reading what was written gives the text;
* `Literal.quote` — a whole literal.
-/

namespace Literal

/-- The inside of the literal that stands for a text. -/
def escape : List Char → List Char
  | [] => []
  | '"' :: cs => '\\' :: '"' :: escape cs
  | '\\' :: cs => '\\' :: '\\' :: escape cs
  | '\n' :: cs => '\\' :: 'n' :: escape cs
  | '\t' :: cs => '\\' :: 't' :: escape cs
  | c :: cs => c :: escape cs

/-- The character that a backslash and `c` stand for.  Letters without a
    meaning of their own stand for themselves. -/
def escaped : Char → Char
  | 'n' => '\n'
  | 't' => '\t'
  | 'r' => '\r'
  | '0' => '\x00'
  | c => c

/-- The text that the inside of a literal stands for.  A backslash at the very
    end stands for itself. -/
def unescape : List Char → List Char
  | [] => []
  | ['\\'] => ['\\']
  | '\\' :: c :: cs => escaped c :: unescape cs
  | c :: cs => c :: unescape cs

/-- The literal that stands for a text. -/
def quote (s : String) : String :=
  String.ofList ('"' :: (escape s.toList ++ ['"']))

/-- A character other than a backslash stands for itself. -/
theorem unescape_cons {c : Char} (h : c ≠ '\\') (cs : List Char) :
    unescape (c :: cs) = c :: unescape cs := by
  rw [unescape.eq_def]
  split <;> simp_all

@[simp] theorem unescape_backslash (c : Char) (cs : List Char) :
    unescape ('\\' :: c :: cs) = escaped c :: unescape cs := by
  simp [unescape]

/-- Reading what was written gives the text. -/
theorem unescape_escape (cs : List Char) : unescape (escape cs) = cs := by
  fun_induction escape cs with
  | case1 => rfl
  | case2 cs ih => simp [ih, escaped]
  | case3 cs ih => simp [ih, escaped]
  | case4 cs ih => simp [ih, escaped]
  | case5 cs ih => simp [ih, escaped]
  | case6 c cs h₁ h₂ h₃ h₄ ih => rw [unescape_cons (fun h => h₂ h), ih]

end Literal

end Quasiquote
