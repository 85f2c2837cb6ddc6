import Quasiquote.Macro.Inline
import Quasiquote.Program
import Quasiquote.Unit.Lowering

namespace Quasiquote

/-!
# Template evaluation — from a template text back to a tree

A running unit quotes by handing the text of a template and the values of its
holes to the compiler.

* `Evaluation` — what the result depends on;
* `Evaluation.template` — the tree that a template stands for.
-/

/-- What the evaluation of templates depends on. -/
structure Evaluation where
  /-- The inline macros that are expanded in the result. -/
  inline : InlineEnv
  /-- The call that is being expanded; every new node stands where it stands. -/
  site : Option Span

namespace Evaluation

/-- A failure is reported where the call is. -/
def relocate (env : Evaluation) (d : Diagnostic) : Diagnostic :=
  match env.site with
  | some s => d.reanchor s env.inline.source
  | none => d

/-- The tree that the template `text` with the given values stands for.  A body of
    one statement is that statement. -/
def template (env : Evaluation) (text label : String) (values : List Node) : TemplateM Node := do
  let n ← (Program.fill label text env.site values).adapt env.relocate
  ExceptT.mk (pure (n.collapse.expandInline env.inline))

end Evaluation

end Quasiquote
