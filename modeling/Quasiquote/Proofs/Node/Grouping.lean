import Quasiquote.Node.Operator

namespace Quasiquote

/-!
# Groupings — the trees that a line of operators may have

A line of operands can be grouped in many ways.  In a proper grouping the operators on the left of
an operator bind at least as tightly as it does, those on its right bind more tightly, and a sign
applies to one operand.  Each line has exactly one proper grouping, and that is its tree.

* `Operator.levels`, `Operator.rank` — the operators from the loosest to the tightest;
* `Grouping`, with `Grouping.line` and `Grouping.node` — a grouping, what it reads from left to
  right, and its tree;
* `Grouping.Proper`, `Grouping.Proper.eq_of_line` — proper groupings, and that a line has no two
  of them;
* `Operand.IsLine`, `Operand.IsLine.exists_grouping` — operands with an operator between each two
  of them, and that the tree of such a line is a proper grouping.
-/

namespace Operator

/-- The operators, those of one level together, from the loosest level to the tightest. -/
def levels : List (List String) :=
  [["||"], ["&&"], ["==", "!="], ["<", "<=", ">", ">="], ["<<"], ["+", "-"], ["*", "/", "%"]]

/-- The place of an operator's level, counted from one.  What is no operator binds looser than all
    operators. -/
def rank (x : String) : Nat := (levels.findIdx? (·.contains x)).elim 0 (· + 1)

/-- Every operator is on a level. -/
theorem flatten_levels : levels.flatten = all := rfl

/-- How tightly a name binds is the place of its level. -/
theorem level_eq_rank (x : String) : level x = rank x := by
  have hoperators : ∀ x ∈ all, level x = rank x := by decide
  by_cases hx : x ∈ all
  · exact hoperators x hx
  · -- a name that is on no level
    have hnone : levels.findIdx? (·.contains x) = none := by
      rw [List.findIdx?_eq_none_iff]
      intro names hnames
      rw [List.contains_eq_mem, decide_eq_false_iff_not]
      intro hmem
      exact hx (flatten_levels ▸ List.mem_flatten.2 ⟨names, hnames, hmem⟩)
    rw [rank, hnone, Option.elim_none]
    unfold level
    split
    case h_15 => rfl
    all_goals exact absurd (by decide) hx

end Operator

/-- A line of operands whose operators are grouped.  What stands in parentheses is a value. -/
inductive Grouping where
  | value (node : Node)
  /-- A sign and what it applies to. -/
  | sign (name : String) (span : Span) (operand : Grouping)
  | operator (left : Grouping) (name : String) (right : Grouping)

namespace Grouping

open Operator (rank)

/-- The parts of a grouping from left to right. -/
def line : Grouping → List Operand
  | .value n => [.value n]
  | .sign x s g => .sign x s :: g.line
  | .operator l x r => l.line ++ .operator x :: r.line

/-- The tree of a grouping, in which signs and operators are calls. -/
def node (place : Span → Span → Span) : Grouping → Node
  | .value n => n
  | .sign x s g => ⟨place s (g.node place).span, .call (g.node place) x [] none⟩
  | .operator l x r => Operand.apply place (l.node place) x (r.node place)

/-- The operator that is applied last, if there is one. -/
def root : Grouping → Option String
  | .operator _ x _ => some x
  | _ => none

/-- Whether operators bind by their levels, equal levels from the left, and signs apply to single
    operands. -/
def Proper : Grouping → Prop
  | .value _ => True
  | .sign _ _ g => g.root = none ∧ g.Proper
  | .operator l x r => (∀ y ∈ l.root, rank x ≤ rank y) ∧ (∀ y ∈ r.root, rank x < rank y) ∧
      l.Proper ∧ r.Proper

/-! ### A line has at most one proper grouping -/

variable {g l l' r r' : Grouping} {x x' y : String}

/-- The operator that is applied last stands in the line. -/
theorem mem_line_of_mem_root (h : x ∈ g.root) : .operator x ∈ g.line := by
  cases g with
  | operator l z r =>
    obtain rfl : z = x := Option.some.inj h
    simp [line]
  | value n => cases h
  | sign z s g => cases h

/-- All operators of a proper grouping bind at least as tightly as the one that is applied last. -/
theorem Proper.le_rank (hg : g.Proper) {k : Nat} (hroot : ∀ y ∈ g.root, k ≤ rank y)
    (hy : .operator y ∈ g.line) : k ≤ rank y := by
  induction g with
  | value n => simp [line] at hy
  | sign x s g ih =>
    obtain ⟨hnone, hg⟩ := hg
    apply ih hg
    · simp [hnone]
    · simpa [line] using hy
  | operator l x r ihl ihr =>
    obtain ⟨hleft, hright, hl, hr⟩ := hg
    have hx : k ≤ rank x := hroot x rfl
    simp only [line, List.mem_append, List.mem_cons, Operand.operator.injEq] at hy
    rcases hy with hy | rfl | hy
    · apply ihl hl _ hy
      intro z hz
      exact Nat.le_trans hx (hleft z hz)
    · exact hx
    · apply ihr hr _ hy
      intro z hz
      exact Nat.le_trans hx (Nat.le_of_lt (hright z hz))

/-- A proper grouping without an operator that is applied last has no operators. -/
theorem Proper.not_mem_line (hg : g.Proper) (hroot : g.root = none) (y : String) :
    .operator y ∉ g.line := by
  intro hy
  have hle : rank y + 1 ≤ rank y := hg.le_rank (by simp [hroot]) hy
  omega

/-- Proper groupings of one line both have an operator that is applied last, or neither has. -/
theorem Proper.root_eq_none (hg : g.Proper) {g' : Grouping} (hline : g.line = g'.line)
    (hroot : g.root = none) : g'.root = none := by
  rw [Option.eq_none_iff_forall_not_mem]
  intro x hx
  exact hg.not_mem_line hroot x (hline ▸ mem_line_of_mem_root hx)

/-- Where two proper groupings divide a line, the one does not do so behind the other. -/
theorem Proper.not_behind (h : (operator l x r).Proper) (h' : (operator l' x' r').Proper)
    {between : List Operand} (hl : l'.line = l.line ++ .operator x :: between)
    (hr : r.line = between ++ .operator x' :: r'.line) : False := by
  obtain ⟨-, hright, -, hproper⟩ := h
  obtain ⟨hleft, -, hproper', -⟩ := h'
  -- the first operator is on the left of the second one, and that on the right of the first
  have hle : rank x' ≤ rank x := hproper'.le_rank hleft (by simp [hl])
  have hlt : rank x + 1 ≤ rank x' := hproper.le_rank hright (by simp [hr])
  omega

/-- Two proper groupings divide a line at the same place. -/
theorem Proper.divide (h : (operator l x r).Proper) (h' : (operator l' x' r').Proper)
    (hline : (operator l x r).line = (operator l' x' r').line) :
    l.line = l'.line ∧ x = x' ∧ r.line = r'.line := by
  have hleft : l.line = l'.line := by
    rcases List.append_eq_append_iff.1 hline with ⟨between, hl, hr⟩ | ⟨between, hl, hr⟩
    · cases between with
      | nil => rw [hl, List.append_nil]
      | cons o between =>
        obtain ⟨rfl, hrest⟩ := List.cons.inj hr
        exact (h.not_behind h' hl hrest).elim
    · cases between with
      | nil => rw [hl, List.append_nil]
      | cons o between =>
        obtain ⟨rfl, hrest⟩ := List.cons.inj hr
        exact (h'.not_behind h hl hrest).elim
  rw [line, line, hleft] at hline
  obtain ⟨hx, hr⟩ := List.cons.inj (List.append_cancel_left hline)
  exact ⟨hleft, Operand.operator.inj hx, hr⟩

/-- A line has no two proper groupings. -/
theorem Proper.eq_of_line (hg : g.Proper) {g' : Grouping} (hg' : g'.Proper)
    (hline : g.line = g'.line) : g = g' := by
  induction g generalizing g' with
  | value n =>
    have hroot := hg.root_eq_none hline rfl
    cases g' with
    | value n' => rw [Operand.value.inj (List.cons.inj hline).1]
    | sign x' s' g' => cases (List.cons.inj hline).1
    | operator l' x' r' => cases hroot
  | sign x s g ih =>
    have hroot := hg.root_eq_none hline rfl
    cases g' with
    | value n' => cases (List.cons.inj hline).1
    | sign x' s' g' =>
      obtain ⟨hsign, hrest⟩ := List.cons.inj hline
      obtain ⟨rfl, rfl⟩ := Operand.sign.inj hsign
      rw [ih hg.2 hg'.2 hrest]
    | operator l' x' r' => cases hroot
  | operator l x r ihl ihr =>
    cases g' with
    | value n' => cases hg'.root_eq_none hline.symm rfl
    | sign x' s' g' => cases hg'.root_eq_none hline.symm rfl
    | operator l' x' r' =>
      obtain ⟨hl, rfl, hr⟩ := hg.divide hg' hline
      rw [ihl hg.2.2.1 hg'.2.2.1 hl, ihr hg.2.2.2 hg'.2.2.2 hr]

/-! ### Open operators

While a line is read, some operators still wait for what is on their right.  They are kept with
what is on their left, the last one first. -/

/-- The grouping in which open operators are closed, the last one first. -/
def closeAll : List (Grouping × String) → Grouping → Grouping
  | [], g => g
  | (l, x) :: pending, g => closeAll pending (.operator l x g)

/-- Whether each open operator binds looser than what comes behind it, and all is proper when they
    are closed. -/
def Fits : List (Grouping × String) → Grouping → Prop
  | [], g => g.Proper
  | (l, x) :: pending, g => (∀ y ∈ g.root, rank x < rank y) ∧ Fits pending (.operator l x g)

/-- The trees of open operators. -/
def nodes (place : Span → Span → Span) (pending : List (Grouping × String)) :
    List (Node × String) :=
  pending.map fun p => (p.1.node place, p.2)

variable {pending : List (Grouping × String)} {place : Span → Span → Span}

theorem Fits.proper (h : Fits pending g) : g.Proper := by
  induction pending generalizing g with
  | nil => exact h
  | cons p pending ih => exact (ih h.2).2.2.2

theorem Fits.head (h : Fits pending g) : ∀ p ∈ pending.head?, ∀ y ∈ g.root, rank p.2 < rank y := by
  intro p hp
  cases pending with
  | nil => cases hp
  | cons q pending =>
    obtain rfl : q = p := Option.some.inj hp
    exact h.1

/-- What is behind open operators may be any other grouping that binds tighter than the last. -/
theorem Fits.replace (h : Fits pending g) {g' : Grouping} (hg' : g'.Proper)
    (hroot : ∀ p ∈ pending.head?, ∀ y ∈ g'.root, rank p.2 < rank y) : Fits pending g' := by
  induction pending generalizing g g' with
  | nil => exact hg'
  | cons p pending ih =>
    have htighter : ∀ y ∈ g'.root, rank p.2 < rank y := hroot p rfl
    obtain ⟨hleft, -, hl, -⟩ := h.2.proper
    -- the operators further to the left have the same operator behind them as before
    exact ⟨htighter, ih h.2 ⟨hleft, htighter, hl, hg'⟩ h.2.head⟩

/-- The line of what is behind open operators ends the line of it all. -/
theorem exists_line_closeAll (pending : List (Grouping × String)) :
    ∃ before, ∀ g, (closeAll pending g).line = before ++ g.line := by
  induction pending with
  | nil => exact ⟨[], fun g => rfl⟩
  | cons p pending ih =>
    obtain ⟨before, hbefore⟩ := ih
    refine ⟨before ++ (p.1.line ++ [.operator p.2]), fun g => ?_⟩
    simp [closeAll, hbefore, line]

/-- Closing the operators from a level on leaves the looser ones open. -/
theorem Fits.reduce (place : Span → Span → Span) (h : Fits pending g) {k : Nat}
    (hroot : ∀ y ∈ g.root, k ≤ rank y) :
    ∃ (waiting : List (Grouping × String)) (g' : Grouping),
      Operand.reduce place k (nodes place pending) (g.node place) =
        (nodes place waiting, g'.node place) ∧
      Fits waiting g' ∧ (∀ p ∈ waiting.head?, rank p.2 < k) ∧ (∀ y ∈ g'.root, k ≤ rank y) ∧
      closeAll waiting g' = closeAll pending g := by
  induction pending generalizing g with
  | nil => exact ⟨[], g, rfl, h, by simp, hroot, rfl⟩
  | cons p pending ih =>
    obtain ⟨l, x⟩ := p
    by_cases hx : k ≤ rank x
    · have hroot' : ∀ y ∈ (operator l x g).root, k ≤ rank y := by
        intro y hy
        rwa [← Option.some.inj hy]
      obtain ⟨waiting, g', hreduce, hrest⟩ := ih h.2 hroot'
      refine ⟨waiting, g', ?_, hrest⟩
      rw [← hreduce]
      simp [nodes, Operand.reduce, Operator.level_eq_rank, hx, node]
    · refine ⟨(l, x) :: pending, g, ?_, h, ?_, hroot, rfl⟩
      · simp [nodes, Operand.reduce, Operator.level_eq_rank, hx]
      · intro p hp
        rw [← Option.some.inj hp]
        exact Nat.lt_of_not_le hx

/-- What operators and operands read from left to right. -/
def following (rest : List (String × Grouping)) : List Operand :=
  rest.flatMap fun p => .operator p.1 :: p.2.line

/-- Whether something is an operand: a value, or signs and a value. -/
def Atomic (g : Grouping) : Prop := g.root = none ∧ g.Proper

/-- A line of operators is grouped in the proper way, whatever operators are open in front. -/
theorem Fits.group (place : Span → Span → Span) (h : Fits pending g) (hg : g.root = none)
    {rest : List (String × Grouping)} (hrest : ∀ p ∈ rest, p.2.Atomic) :
    ∃ g' : Grouping, g'.Proper ∧ g'.line = (closeAll pending g).line ++ following rest ∧
      Operand.group place (nodes place pending) (g.node place)
        (rest.map fun p => (p.1, p.2.node place)) = g'.node place := by
  induction rest generalizing pending g with
  | nil =>
    obtain ⟨waiting, g', hreduce, hfits, hhead, -, hclose⟩ := h.reduce (k := 0) place (by simp [hg])
    -- no operator is so loose that it is left open
    have hnil : waiting = [] := by
      cases waiting with
      | nil => rfl
      | cons p waiting => exact absurd (hhead p rfl) (Nat.not_lt_zero _)
    subst hnil
    refine ⟨g', hfits, ?_, ?_⟩
    · rw [← hclose]
      simp [closeAll, following]
    · rw [List.map_nil, Operand.group, hreduce]
  | cons p rest ih =>
    obtain ⟨x, a⟩ := p
    obtain ⟨⟨ha, hproper⟩, hrest⟩ := List.forall_mem_cons.1 hrest
    obtain ⟨waiting, g', hreduce, hfits, hhead, hroot, hclose⟩ :=
      h.reduce (k := rank x) place (by simp [hg])
    have hnext : Fits ((g', x) :: waiting) a := by
      refine ⟨by simp [ha], hfits.replace ⟨hroot, by simp [ha], hfits.proper, hproper⟩ ?_⟩
      intro p hp y hy
      rw [← Option.some.inj hy]
      exact hhead p hp
    obtain ⟨g'', hproper'', hline, hgroup⟩ := ih hnext ha hrest
    refine ⟨g'', hproper'', ?_, ?_⟩
    · obtain ⟨before, hbefore⟩ := exists_line_closeAll waiting
      rw [hline, closeAll, ← hclose, hbefore, hbefore]
      simp [line, following]
    · rw [← hgroup, List.map_cons, Operand.group, Operator.level_eq_rank, hreduce]
      rfl

end Grouping

/-! ### Lines -/

namespace Operand

/-- One operand: signs and the value that they apply to. -/
inductive IsOperand : List Operand → Prop where
  | value (n : Node) : IsOperand [.value n]
  | sign (x : String) (s : Span) {os : List Operand} : IsOperand os → IsOperand (.sign x s :: os)

/-- A line: operands with an operator between each two of them. -/
inductive IsLine : List Operand → Prop where
  | one {os : List Operand} : IsOperand os → IsLine os
  | more {os os' : List Operand} (x : String) :
    IsOperand os → IsLine os' → IsLine (os ++ .operator x :: os')

variable {os : List Operand}

theorem IsOperand.exists_atomic (h : IsOperand os) : ∃ a : Grouping, a.Atomic ∧ a.line = os := by
  induction h with
  | value n => exact ⟨.value n, ⟨rfl, trivial⟩, rfl⟩
  | sign x s _ ih =>
    obtain ⟨a, ha, rfl⟩ := ih
    exact ⟨.sign x s a, ⟨rfl, ha⟩, rfl⟩

theorem IsLine.exists_atomic (h : IsLine os) : ∃ (a : Grouping) (rest : List (String × Grouping)),
    a.Atomic ∧ (∀ p ∈ rest, p.2.Atomic) ∧ os = a.line ++ Grouping.following rest := by
  induction h with
  | one h =>
    obtain ⟨a, ha, rfl⟩ := h.exists_atomic
    exact ⟨a, [], ha, by simp, by simp [Grouping.following]⟩
  | more x h _ ih =>
    obtain ⟨a, ha, rfl⟩ := h.exists_atomic
    obtain ⟨b, rest, hb, hrest, rfl⟩ := ih
    refine ⟨a, (x, b) :: rest, ha, List.forall_mem_cons.2 ⟨hb, hrest⟩, ?_⟩
    simp [Grouping.following]

/-- Signs are applied to the value behind them. -/
theorem applySigns_line (place : Span → Span → Span) {a : Grouping} (ha : a.Atomic)
    (more : List Operand) :
    applySigns place (a.line ++ more) = .value (a.node place) :: applySigns place more := by
  induction a with
  | value n => rfl
  | sign x s a ih =>
    rw [Grouping.line, List.cons_append, applySigns, ih ha.2]
    rfl
  | operator l x r => cases ha.1

theorem pairs_applySigns (place : Span → Span → Span) {rest : List (String × Grouping)}
    (hrest : ∀ p ∈ rest, p.2.Atomic) :
    pairs (applySigns place (Grouping.following rest)) =
      rest.map fun p => (p.1, p.2.node place) := by
  induction rest with
  | nil => rfl
  | cons p rest ih =>
    obtain ⟨hp, hrest⟩ := List.forall_mem_cons.1 hrest
    have hfirst : applySigns place (Grouping.following (p :: rest)) =
        .operator p.1 :: .value (p.2.node place) :: applySigns place (Grouping.following rest) :=
      congrArg (Operand.operator p.1 :: ·) (applySigns_line place hp _)
    rw [hfirst, pairs, ih hrest, List.map_cons]

/-- A line has a proper grouping, and that is its tree. -/
theorem IsLine.exists_grouping (h : IsLine os) (place : Span → Span → Span) :
    ∃ g : Grouping, g.line = os ∧ g.Proper ∧ tree place os = some (g.node place) := by
  obtain ⟨a, rest, ha, hrest, rfl⟩ := h.exists_atomic
  have hfits : Grouping.Fits [] a := ha.2
  obtain ⟨g, hproper, hline, hgroup⟩ := Grouping.Fits.group place hfits ha.1 hrest
  refine ⟨g, hline, hproper, ?_⟩
  rw [tree, applySigns_line place ha]
  dsimp only
  rw [pairs_applySigns place hrest, ← hgroup]
  rfl

end Operand

end Quasiquote
