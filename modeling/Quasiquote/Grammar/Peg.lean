import Quasiquote.Span
import Quasiquote.Text.Utf8

namespace Quasiquote

/-!
# Parsing expressions — grammars that are read by ordered choice

A grammar gives every rule an expression.  An expression is matched at a place
in a text; it fails, or it takes some of the text and leaves phrases.  The first
alternative that matches is the one that counts, and repetition takes all it can.

* `Peg` — expressions, `Phrase` — matched rules, `Grammar` — rules and blanks;
* `Grammar.run` — matches an expression;
* `Grammar.read` — matches a rule against a whole text, or answers how far the
  attempts got.

Between the parts of a sequence and between repetitions blanks are skipped,
except inside a token.  Blanks before a repetition that does not come are given
back.
-/

/-- A place in a text: the bytes before it and the characters after it. -/
structure Place where
  pos : Nat
  rest : List Char

namespace Place

/-- The place after one character. -/
def advance (c : Char) (p : Place) (rest : List Char) : Place := ⟨p.pos + c.utf8Size, rest⟩

/-- The place after a fixed text, if that text comes next. -/
def skipText : List Char → Place → Option Place
  | [], p => some p
  | c :: cs, p => match p.rest with
    | d :: rest => if c = d then skipText cs (p.advance d rest) else none
    | [] => none

/-- The text from one place to a later one. -/
def textTo (p q : Place) : String := String.ofList (Utf8.take (q.pos - p.pos) p.rest)

end Place

/-- A parsing expression over rules `ρ`. -/
inductive Peg (ρ : Type) where
  | text (chars : List Char)
  /-- One character of a class. -/
  | char (accepts : Char → Bool)
  /-- The end of the text. -/
  | stop
  | rule (r : ρ)
  | seq (first second : Peg ρ)
  | alt (first second : Peg ρ)
  | opt (e : Peg ρ)
  | many (e : Peg ρ)
  /-- Succeeds if `e` matches here, and takes nothing. -/
  | ahead (e : Peg ρ)
  /-- Succeeds if `e` does not match here, and takes nothing. -/
  | refuse (e : Peg ρ)

namespace Peg

variable {ρ : Type}

/-- The parts one after the other. -/
def seqs : List (Peg ρ) → Peg ρ
  | [] => .text []
  | [e] => e
  | e :: es => .seq e (seqs es)

/-- The first of the alternatives that matches. -/
def alts : List (Peg ρ) → Peg ρ
  | [] => .refuse (.text [])
  | [e] => e
  | e :: es => .alt e (alts es)

/-- One or more repetitions. -/
def some (e : Peg ρ) : Peg ρ := .seq e (.many e)

/-- A fixed text. -/
def lit (s : String) : Peg ρ := .text s.toList

end Peg

/-- What a rule leaves behind, and how it reads. -/
inductive Mode where
  /-- Leaves a phrase with the phrases of its parts. -/
  | phrase
  /-- Leaves only the phrases of its parts, and no attempt at it is noted. -/
  | inline
  /-- Reads without blanks and leaves a phrase that holds its text. -/
  | token
  /-- Reads without blanks and leaves a phrase with the phrases of its parts. -/
  | tight
  /-- Reads without blanks and leaves nothing. -/
  | keyword
deriving DecidableEq, Repr

/-- A matched rule: where it stands, the text of a token, and its parts. -/
inductive Phrase (ρ : Type) where
  | mk (rule : ρ) (span : Span) (text : String) (parts : List (Phrase ρ))

namespace Phrase

variable {ρ : Type}

/-- The rule that was matched. -/
def rule : Phrase ρ → ρ
  | ⟨r, _, _, _⟩ => r

/-- The place of a phrase. -/
def span : Phrase ρ → Span
  | ⟨_, s, _, _⟩ => s

/-- The text of a token. -/
def text : Phrase ρ → String
  | ⟨_, _, t, _⟩ => t

/-- The phrases inside a phrase. -/
def parts : Phrase ρ → List (Phrase ρ)
  | ⟨_, _, _, ps⟩ => ps

end Phrase

/-- A grammar over rules `ρ`. -/
structure Grammar (ρ : Type) where
  mode : ρ → Mode
  rule : ρ → Peg ρ
  /-- The place after all blanks at a place. -/
  skip : Place → Place
  /-- No match nests deeper than this before it takes a character. -/
  nesting : Nat

/-- The surroundings of a match. -/
structure Context where
  /-- Whether blanks are skipped between parts. -/
  spaced : Bool := true
  /-- Whether the match is part of a token. -/
  inToken : Bool := false
  /-- Whether a match here speaks against the expression around it. -/
  negated : Bool := false

/-- The result of a match: how far attempts got, and what was taken. -/
structure Match (ρ : Type) where
  furthest : Nat
  taken : Option (List (Phrase ρ) × Place)

namespace Context

/-- The surroundings inside a rule. -/
def enter (c : Context) : Mode → Context
  | .phrase | .inline => c
  | .token | .keyword => { c with spaced := false, inToken := true }
  | .tight => { c with spaced := false, inToken := false }

end Context

namespace Grammar

variable {ρ : Type} (g : Grammar ρ)

/-- The place where the next part of a sequence is tried. -/
def next (c : Context) (p : Place) : Place := if c.spaced then g.skip p else p

/-- What a matched rule leaves. -/
def leave (c : Context) (r : ρ) (p q : Place) (parts : List (Phrase ρ)) : List (Phrase ρ) :=
  if c.inToken then []
  else match g.mode r with
    | .inline => parts
    | .keyword => []
    | .token => [⟨r, ⟨p.pos, q.pos⟩, p.textTo q, []⟩]
    | .phrase | .tight => [⟨r, ⟨p.pos, q.pos⟩, "", parts⟩]

/-- Notes an attempt at a rule.  An attempt counts if it failed, or if it was a
    match that speaks against the expression around it. -/
def note (c : Context) (r : ρ) (p : Place) (m : Match ρ) : Nat :=
  if c.inToken || g.mode r == .inline || m.taken.isSome != c.negated then m.furthest
  else max m.furthest p.pos

mutual

/-- Matches an expression at a place, `fuel` levels deep. -/
def run (fuel : Nat) (c : Context) (e : Peg ρ) (p : Place) (furthest : Nat) : Match ρ :=
  match fuel with
  | 0 => ⟨furthest, none⟩
  | fuel + 1 => match e with
    | .text cs => ⟨furthest, (p.skipText cs).map fun q => ([], q)⟩
    | .char accepts => match p.rest with
      | d :: rest => ⟨furthest, if accepts d then some ([], p.advance d rest) else none⟩
      | [] => ⟨furthest, none⟩
    | .stop => ⟨furthest, if p.rest.isEmpty then some ([], p) else none⟩
    | .rule r =>
      let m := run fuel (c.enter (g.mode r)) (g.rule r) p furthest
      ⟨g.note c r p m, m.taken.map fun (parts, q) => (g.leave c r p q parts, q)⟩
    | .seq a b =>
      let m := run fuel c a p furthest
      match m.taken with
      | none => ⟨m.furthest, none⟩
      | some (xs, q) =>
        let n := run fuel c b (g.next c q) m.furthest
        ⟨n.furthest, n.taken.map fun (ys, q) => (xs ++ ys, q)⟩
    | .alt a b =>
      let m := run fuel c a p furthest
      match m.taken with
      | some _ => m
      | none => run fuel c b p m.furthest
    | .opt a =>
      let m := run fuel c a p furthest
      match m.taken with
      | some _ => m
      | none => ⟨m.furthest, some ([], p)⟩
    | .many a =>
      let m := run fuel c a p furthest
      match m.taken with
      | none => ⟨m.furthest, some ([], p)⟩
      | some (xs, q) =>
        if p.pos < q.pos then runMore fuel c a q m.furthest xs.reverse
        else ⟨m.furthest, some (xs, q)⟩
    | .ahead a =>
      let m := run fuel c a p furthest
      ⟨m.furthest, m.taken.map fun _ => ([], p)⟩
    | .refuse a =>
      let m := run fuel { c with negated := !c.negated } a p furthest
      ⟨m.furthest, if m.taken.isSome then none else some ([], p)⟩

/-- Matches further repetitions after a place, given the phrases so far in
    reverse. -/
def runMore (fuel : Nat) (c : Context) (a : Peg ρ) (p : Place) (furthest : Nat)
    (taken : List (Phrase ρ)) : Match ρ :=
  match fuel with
  | 0 => ⟨furthest, some (taken.reverse, p)⟩
  | fuel + 1 =>
    let m := run fuel c a (g.next c p) furthest
    match m.taken with
    | none => ⟨m.furthest, some (taken.reverse, p)⟩
    | some (xs, q) =>
      if p.pos < q.pos then runMore fuel c a q m.furthest (xs.reverse ++ taken)
      else ⟨m.furthest, some (taken.reverse, p)⟩

end

/-- Matches a rule against a text.  On failure the answer is the place of the
    furthest attempt. -/
def read (r : ρ) (text : String) : Except Nat (Phrase ρ) :=
  let cs := text.toList
  let m := g.run (g.nesting * (cs.length + 1)) {} (.rule r) ⟨0, cs⟩ 0
  match m.taken with
  | some (phrase :: _, _) => .ok phrase
  | _ => .error m.furthest

end Grammar

end Quasiquote
