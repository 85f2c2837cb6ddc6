import Quasiquote.Node.Equality
import Quasiquote.Program
import Quasiquote.Proofs.Node.Grouping
import Quasiquote.Proofs.Program.Shapes
import Quasiquote.Proofs.State

namespace Quasiquote

/-!
# Lines of operators — grouped by level

The parts of a line are read one by one, in order.  The node of the line is the one proper grouping
of what they are read as.

* `Reading.linePart`, `Reading.operands_eq_mapM` — what one part of a line is read as, and that a
  line is read part by part;
* `Reading.isLine_of_run` — what the grammar leaves for a line is read as a line;
* `Reading.line_grouped` — the tree of a line.
-/

namespace Reading

variable {env : Reading} {p : Phrase Rule} {ps : List (Phrase Rule)} {os : List Operand}
  {st st' : Scopes Node}

/-- What a part of a line is read as: a sign, an operator, or the value of anything else. -/
def linePart (env : Reading) (p : Phrase Rule) : Reader Operand :=
  match p.rule with
  | .notOp => return .sign "!" (env.place p.span)
  | .negOp => return .sign "-@" (env.place p.span)
  | .infixOp => return .operator p.text
  | _ => return .value (← env.node p)

/-- A line is read part by part. -/
theorem operands_eq_mapM (env : Reading) (ps : List (Phrase Rule)) :
    env.operands ps = ps.mapM env.linePart := by
  induction ps with
  | nil => rfl
  | cons p ps ih =>
    obtain ⟨r, s, t, parts⟩ := p
    rw [List.mapM_cons, ← ih]
    cases r
    all_goals simp [operands, linePart, Phrase.rule, Phrase.span, Phrase.text]

/-- The parts of an operand are read as an operand. -/
theorem isOperand_of_run (hp : AreOperand ps)
    (hrun : (ps.mapM env.linePart).run st = (.ok os, st')) : Operand.IsOperand os := by
  induction hp generalizing os st with
  | @value p hp =>
    rw [List.mapM_cons] at hrun
    obtain ⟨o, st₁, ho, hrest⟩ := exists_of_run_bind hrun
    rw [linePart, hp.1] at ho
    obtain ⟨n, st₂, -, hn⟩ := exists_of_run_bind ho
    cases hn
    cases hrest
    exact .value n
  | @sign p ps hp _ ih =>
    rw [List.mapM_cons] at hrun
    obtain ⟨o, st₁, ho, hrest⟩ := exists_of_run_bind hrun
    obtain ⟨os', st₂, hos', hpure⟩ := exists_of_run_bind hrest
    cases hpure
    rw [linePart] at ho
    rcases hp with hp | hp
    all_goals
      rw [hp.1] at ho
      cases ho
      exact .sign _ _ (ih hos')

/-- The parts of a line are read as a line. -/
theorem isLine_of_run (hp : AreLine ps) (hrun : (ps.mapM env.linePart).run st = (.ok os, st')) :
    Operand.IsLine os := by
  induction hp generalizing os st with
  | one hp => exact .one (isOperand_of_run hp hrun)
  | @more o ps qs hp ho _ ih =>
    rw [List.mapM_append, List.mapM_cons] at hrun
    obtain ⟨os₁, st₁, hos₁, hrest⟩ := exists_of_run_bind hrun
    obtain ⟨os₂, st₂, hos₂, hpure⟩ := exists_of_run_bind hrest
    cases hpure
    obtain ⟨x, st₃, hx, hrest⟩ := exists_of_run_bind hos₂
    obtain ⟨os₃, st₄, hos₃, hpure⟩ := exists_of_run_bind hrest
    cases hpure
    rw [linePart, ho.1] at hx
    cases hx
    exact .more _ (isOperand_of_run hp hos₁) (ih hos₃)

/-- The tree of a line.  Its parts are read in order, and the first one that fails ends it.
    Otherwise there is exactly one grouping of what they are read as, nothing left out, repeated or
    moved, in which each operator has operators of its own level or tighter ones on its left and
    tighter ones on its right, and each sign has a single operand; and the line is read as the tree
    of this grouping. -/
theorem line_grouped (env : Reading) {p : Phrase Rule} (hp : Is .binary p) (scopes : Scopes Node) :
    (∀ d left, (p.parts.mapM env.linePart).run scopes = (.error d, left) →
      (env.node p).run scopes = (.error d, left)) ∧
    (∀ line left, (p.parts.mapM env.linePart).run scopes = (.ok line, left) →
      ∃ g : Grouping, (g.line = line ∧ g.Proper) ∧
        (∀ g' : Grouping, g'.line = line → g'.Proper → g' = g) ∧
        (env.node p).run scopes = (.ok (g.node env.cover), left)) := by
  obtain ⟨r, s, t, parts⟩ := p
  obtain ⟨rfl, hf⟩ := hp
  have hnode : (env.node ⟨.binary, s, t, parts⟩).run scopes =
      (parts.mapM env.linePart >>= fun os =>
        (Operand.tree env.cover os).elim (env.malformed s) pure).run scopes := by
    rw [← operands_eq_mapM]
    refine congrArg (fun k => (env.operands parts >>= k).run scopes) (funext fun os => ?_)
    cases Operand.tree env.cover os
    all_goals rfl
  rw [hnode, run_bind_apply]
  -- the parts are read before anything is grouped
  refine ⟨fun d left hrun => ?_, fun line left hrun => ?_⟩
  · have hparts : (parts.mapM env.linePart).run scopes = (.error d, left) := hrun
    rw [hparts]
  · have hparts : (parts.mapM env.linePart).run scopes = (.ok line, left) := hrun
    obtain ⟨g, hline, hproper, htree⟩ :=
      (isLine_of_run (shape_binary hf) hparts).exists_grouping env.cover
    refine ⟨g, ⟨hline, hproper⟩, ?_, ?_⟩
    · intro g' hline' hproper'
      exact hproper'.eq_of_line hproper (hline'.trans hline.symm)
    · rw [hparts]
      dsimp only
      rw [htree]
      rfl

/-- A difference of a difference, in which a sign and a product bind tighter. -/
theorem line_grouped_mixed : let env : Reading := { source := "t" }
    let name (x : String) : Grouping := .value ⟨Span.zero, .ident x⟩
    let expected : Grouping := .operator (.operator (name "a") "-"
      (.operator (.sign "!" Span.zero (name "b")) "*" (name "c"))) "-" (name "d")
    ∃ (p : Phrase Rule) (g : Grouping) (left : Scopes Node),
      language.read .binary "a - !b * c - d" = .ok p ∧ Is .binary p ∧
      (p.parts.mapM env.linePart).run [] = (.ok g.line, left) ∧ g.Proper ∧
      (env.node p).run [] = (.ok (g.node env.cover), left) ∧
      (g.node env.cover).alike (expected.node env.cover) = true := by
  intro env name expected
  have htree : ((language.read .binary "a - !b * c - d").toOption.any fun p =>
      ((env.node p).run []).1.toOption.any (·.alike (expected.node env.cover))) = true := by
    decide +kernel
  cases hread : language.read .binary "a - !b * c - d" with
  | error pos =>
    rw [hread] at htree
    cases htree
  | ok p =>
    have hbinary := Grammar.formed_of_read rfl hread
    obtain ⟨hfails, hgrouped⟩ := line_grouped env hbinary []
    rw [hread] at htree
    rcases hparts : (p.parts.mapM env.linePart).run [] with ⟨d | line, left⟩
    · simp [hfails d left hparts, Except.toOption] at htree
    · obtain ⟨g, ⟨rfl, hproper⟩, -, hrun⟩ := hgrouped line left hparts
      refine ⟨p, g, left, rfl, hbinary, hparts, hproper, hrun, ?_⟩
      simpa [hrun, Except.toOption] using htree

end Reading

end Quasiquote
