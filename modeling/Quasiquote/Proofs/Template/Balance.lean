import Quasiquote.Template.Evaluation
import Quasiquote.Unit.Evaluator
import Quasiquote.Proofs.Unit.Lowering

namespace Quasiquote

/-!
# Balance — template scopes are closed again

Reading a template changes the innermost scope at most.  Whatever opens a scope closes it on
every path, failures included, so lowering a program and running a unit leave all scopes as
they were.

* `Scopes.Level` — scopes that differ in the innermost one only;
* `Reading.level_program` — reading;
* `Artifacts.keeps_ofProgram`, `LoadedUnit.scopes_expand` — lowering and expanding.
-/

namespace Scopes

variable {α : Type}

/-- Whether scopes differ in the innermost one at most. -/
def Level (st st' : Scopes α) : Prop := st'.length = st.length ∧ st'.drop 1 = st.drop 1

namespace Level

theorem refl (st : Scopes α) : Level st st := ⟨rfl, rfl⟩

theorem trans (a b c : Scopes α) (h : Level a b) (h' : Level b c) : Level a c :=
  ⟨h'.1.trans h.1, h'.2.trans h.2⟩

/-- Scopes on one level with a scope that was just opened have another one in its place. -/
theorem exists_cons {f : Frame α} {st st' : Scopes α} (h : Level (f :: st) st') :
    ∃ f', st' = f' :: st := by
  obtain ⟨hlength, hdrop⟩ := h
  cases st' with
  | nil => cases hlength
  | cons f' st' => exact ⟨f', congrArg _ hdrop⟩

end Level

theorem level_resolved (i : Nat) (st : Scopes α) : Level st (resolved i st).2 := by
  cases st with
  | nil => exact .refl _
  | cons f st =>
    cases f with
    | extract vs => exact .refl _
    | inject values used =>
      unfold resolved
      dsimp only
      cases values[i]? with
      | some v => exact ⟨rfl, rfl⟩
      | none => exact .refl _

end Scopes

open Scopes (Level)

/-- A failure that is put in other words. -/
theorem Keeps.adapt {ε ε' σ α : Type} {R : σ → σ → Prop} {x : ExceptT ε (StateM σ) α}
    (h : Keeps R x) (f : ε → ε') : Keeps R (x.adapt f) :=
  fun s => h s

/-! ### Reading -/

namespace Reading

variable (env : Reading)

/-- Reading phrases takes values from the innermost scope only. -/
theorem level_nodes :
    (∀ p, Keeps Level (env.node p)) ∧
    (∀ s name params returns ps, Keeps Level (env.method s name params returns ps)) ∧
    (∀ ps, Keeps Level (env.parameters ps)) ∧
    (∀ s name type block ps, Keeps Level (env.parameter s name type block ps)) ∧
    (∀ ps, Keeps Level (env.otherwise ps)) ∧
    (∀ target ps, Keeps Level (env.chain target ps)) ∧
    (∀ ps, Keeps Level (env.nodes ps)) ∧
    (∀ ps, Keeps Level (env.operands ps)) := by
  have pure {α : Type} (a : α) : Keeps (Level (α := Node)) (Pure.pure a : Reader α) :=
    .pure Level.refl a
  have throws {α : Type} (d : Diagnostic) : Keeps (Level (α := Node)) (throw d : Reader α) :=
    fun st => .refl st
  have hmalformed {α : Type} (s : Span) : Keeps (Level (α := Node)) (env.malformed s : Reader α) :=
    throws _
  have bind {α β : Type} {x : Reader α} {f : α → Reader β} (hx : Keeps Level x)
      (hf : ∀ a, Keeps Level (f a)) : Keeps Level (x >>= f) := .bind Level.trans hx hf
  have hinteger (text : String) (s : Span) : Keeps Level (env.integer text s) := by
    unfold integer
    split
    · exact pure _
    · exact throws _
  have hplaceholder (digits : String) (s : Span) : Keeps Level (env.placeholderValue digits s) := by
    unfold placeholderValue
    dsimp only
    split
    · split
      · exact .adapt (fun st => Scopes.level_resolved _ st) _
      · exact throws _
    · exact throws _
  apply node.mutual_induct env
  all_goals intros
  all_goals first
    | rw [node] | rw [method] | rw [parameters] | rw [parameter] | rw [otherwise] | rw [chain]
    | rw [nodes] | rw [operands]
  all_goals repeat' with_reducible first
    | exact pure _ | exact hinteger _ _ | exact hplaceholder _ _ | exact hmalformed _
    | assumption | refine bind ?_ fun _ => ?_ | split | solve_by_elim only [*]

/-- Reading a text takes values from the innermost scope only. -/
theorem level_program (text : String) : Keeps Level (env.program text) := by
  unfold program
  split
  · exact fun st => .refl st
  · exact (level_nodes env).1 _
  · exact fun st => .refl st

end Reading

/-- What is injected for the text of a template is taken back. -/
theorem Program.keeps_fill (source text : String) (anchor : Option Span) (values : List Node) :
    Keeps Eq (Program.fill source text anchor values) := fun st =>
  (Scopes.inject_scopes values _ _ st
    (Reading.level_program _ text _).exists_cons).symm

theorem Evaluation.keeps_template (env : Evaluation) (text label : String) (values : List Node) :
    Keeps Eq (env.template text label values) :=
  .bind (R := Eq) (fun _ _ _ => Eq.trans)
    (.adapt (Program.keeps_fill label text env.site values) _)
    fun _ => .of_result (fun _ => rfl) _

/-! ### Lowering -/

namespace Node

/-- Lowering leaves the scopes alone. -/
theorem keeps_lower (label : String) (n : Node) : Keeps Eq (lower label n) := by
  obtain ⟨n', h, -⟩ := exists_lowered label n
  rw [h]
  exact .pure (fun _ => rfl) n'

end Node

/-- Compiling the members of a class closes every scope that it opens. -/
theorem UnitImage.keeps_methodsOf (unit : String) (ns : List Node) :
    Keeps Eq (methodsOf unit ns) := by
  fun_induction methodsOf unit ns with
  | case1 => exact .pure (fun _ => rfl) _
  | case2 s name params returns body rest ih =>
    refine .bind (R := Eq) (fun _ _ _ => Eq.trans) (Node.keeps_lower _ body) fun _ => ?_
    exact .bind (R := Eq) (fun _ _ _ => Eq.trans) ih fun _ => .pure (fun _ => rfl) _
  | case3 s rest ih => exact ih
  | case4 n rest _ _ => exact .of_result (fun _ => rfl) _

namespace Artifacts

theorem keeps_addClasses (files : Artifacts) (ns : List Node) : Keeps Eq (addClasses files ns) := by
  fun_induction addClasses files ns with
  | case1 => exact .pure (fun _ => rfl) _
  | case2 files s name superclass body rest ih =>
    refine .bind (R := Eq) (fun _ _ _ => Eq.trans) ?_ fun image => ih image
    exact .bind (R := Eq) (fun _ _ _ => Eq.trans) (UnitImage.keeps_methodsOf name _)
      fun _ => .pure (fun _ => rfl) _
  | case3 files n rest _ ih => exact ih

/-- Compiling a program closes every scope that it opens. -/
theorem keeps_ofProgram (program : Node) : Keeps Eq (ofProgram program) := by
  refine .bind (R := Eq) (fun _ _ _ => Eq.trans) (keeps_addClasses {} _) fun files => ?_
  split
  · exact .of_result (fun _ => rfl) _
  · exact .pure (fun _ => rfl) _

end Artifacts

/-! ### Running units -/

namespace Evaluator

/-- Whether two states of a run have the same scopes. -/
def SameScopes (m m' : Machine) : Prop := m'.scopes = m.scopes

theorem SameScopes.refl (m : Machine) : SameScopes m m := rfl

theorem SameScopes.trans (a b c : Machine) (h : SameScopes a b) (h' : SameScopes b c) :
    SameScopes a c := Eq.trans h' h

variable {env : Evaluator}

theorem keeps_pure {α : Type} (a : α) : Keeps SameScopes (pure a : RunM α) :=
  .pure SameScopes.refl a

theorem keeps_bind {α β : Type} {x : RunM α} {f : α → RunM β} (hx : Keeps SameScopes x)
    (hf : ∀ a, Keeps SameScopes (f a)) : Keeps SameScopes (x >>= f) :=
  .bind SameScopes.trans hx hf

theorem keeps_fail {α : Type} (reason : String) : Keeps SameScopes (env.fail reason : RunM α) :=
  fun m => .refl m

theorem keeps_modify {f : Machine → Machine} (h : ∀ m, (f m).scopes = m.scopes) :
    Keeps SameScopes (modify f : RunM Unit) := fun m => h m

theorem keeps_get : Keeps SameScopes (get : RunM Machine) := .get SameScopes.refl

theorem keeps_toNodes (s : Span) (vs : List Value) : Keeps SameScopes (env.toNodes s vs) := by
  induction vs with
  | nil => exact keeps_pure _
  | cons v vs ih =>
    unfold toNodes
    split
    · exact keeps_fail _
    · exact keeps_bind ih fun _ => keeps_pure _

theorem keeps_exactly (a : Int) (op : String) (b : Int) (result : Option Int) :
    Keeps SameScopes (env.exactly a op b result) := by
  unfold exactly
  split
  · exact keeps_pure _
  · exact keeps_fail _

theorem keeps_intOperator (a : Int) (op : String) (b : Int) :
    Keeps SameScopes (env.intOperator a op b) := by
  unfold intOperator
  split
  all_goals first | exact keeps_exactly _ _ _ _ | exact keeps_pure _ | exact keeps_fail _

theorem keeps_floatOperator (a : Float) (op : String) (b : Float) :
    Keeps SameScopes (env.floatOperator a op b) := by
  unfold floatOperator
  split
  all_goals first | exact keeps_pure _ | exact keeps_fail _

theorem keeps_negate (i : Int) : Keeps SameScopes (env.negate i) := by
  unfold negate
  split
  · exact keeps_pure _
  · exact keeps_fail _

theorem keeps_position (v : Value) : Keeps SameScopes (env.position v) := by
  unfold position
  split
  · exact keeps_pure _
  · exact keeps_fail _

theorem keeps_nodeMethod (n : Node) (name : String) (args : List Value) :
    Keeps SameScopes (env.nodeMethod n name args) := by
  unfold nodeMethod
  split
  case h_1 | h_2 =>
    refine keeps_bind (keeps_position _) fun i => ?_
    split
    · exact keeps_pure _
    · first | exact keeps_fail _ | exact keeps_pure _
  all_goals repeat' with_reducible first | exact keeps_pure _ | exact keeps_fail _ | split

theorem keeps_emit (text : String) : Keeps SameScopes (emit text) :=
  keeps_bind (keeps_modify fun _ => rfl) fun _ => keeps_pure _

theorem keeps_refuseBlock (name : String) : Keeps SameScopes (env.refuseBlock name) :=
  keeps_fail _

theorem keeps_constant (name : String) : Keeps SameScopes (env.constant name) := by
  unfold constant
  split
  · exact keeps_pure _
  · exact keeps_fail _

theorem keeps_methodFor (name : String) (args : List Value) :
    Keeps SameScopes (env.methodFor name args) := by
  unfold methodFor
  split
  · exact keeps_fail _
  · split
    · exact keeps_pure _
    · exact keeps_fail _

/-! A compiler that closes the scopes that it opens. -/

variable (h : ∀ text label values, Keeps Eq (env.compiler text label values))
include h

theorem keeps_quote (args : List Value) : Keeps SameScopes (env.quote args) := by
  unfold quote
  split
  · refine keeps_bind (keeps_toNodes _ _) fun values => keeps_bind ?_ fun _ => keeps_pure _
    exact fun m => (h _ _ values m.scopes).symm
  · exact keeps_fail _

theorem keeps_send (receiver : Value) (name : String) (args : List Value) :
    Keeps SameScopes (env.send receiver name args) := by
  unfold send
  split
  case h_6 =>
    unfold sendTo
    split
    all_goals first
      | exact keeps_negate _ | exact keeps_intOperator _ _ _ | exact keeps_floatOperator _ _ _
      | exact keeps_nodeMethod _ _ _ | exact keeps_quote h _ | exact keeps_emit _
      | exact keeps_pure _ | exact keeps_fail _
  all_goals exact keeps_pure _

theorem keeps_eval {call : String → List Value → RunM Value}
    (hcall : ∀ name args, Keeps SameScopes (call name args)) :
    (∀ n, Keeps SameScopes (env.eval call n)) ∧
    (∀ v ns, Keeps SameScopes (env.evalLast call v ns)) ∧
    (∀ n, Keeps SameScopes (env.evalOpt call n)) ∧
    (∀ ns, Keeps SameScopes (env.evalAll call ns)) := by
  have hlookup (name : String) : Keeps SameScopes (env.lookup call name) := by
    refine keeps_bind keeps_get fun m => ?_
    split
    · exact keeps_pure _
    · split
      · exact hcall _ _
      · exact keeps_fail _
  apply eval.mutual_induct
  case case7 => exact fun _ name => hlookup name
  case case8 | case10 =>
    intro _ _ value ih
    exact keeps_bind ih fun v => keeps_bind (keeps_modify fun _ => rfl) fun _ => keeps_pure _
  case case9 => exact fun _ _ => keeps_bind keeps_get fun _ => keeps_pure _
  case case11 => exact fun _ name => keeps_constant name
  case case12 | case16 => intros; exact keeps_refuseBlock _
  case case13 =>
    intro _ target rhs htarget hrhs
    refine keeps_bind htarget fun v => ?_
    split
    · exact hrhs
    · exact keeps_pure _
  case case14 =>
    intro _ target rhs htarget hrhs
    refine keeps_bind htarget fun v => ?_
    split
    · exact keeps_pure _
    · exact hrhs
  case case15 =>
    intro _ target name args hand hor htarget hargs
    rw [eval]
    · exact keeps_bind htarget fun v => keeps_bind hargs fun vs => keeps_send h _ _ _
    · exact hand
    · exact hor
  case case17 =>
    intro _ name args hargs
    exact keeps_bind hargs fun vs => hcall _ _
  case case18 =>
    intro _ test yes no htest hyes hno
    refine keeps_bind htest fun v => ?_
    split
    · exact hyes
    · exact hno
  case case19 => exact fun _ items hitems => hitems
  case case21 => exact fun _ _ => keeps_fail _
  case case22 =>
    intros
    rw [eval]
    · exact keeps_fail _
    all_goals assumption
  case case24 => exact fun v n ns hn hns => keeps_bind hn hns
  case case26 =>
    exact fun n ns hn hns => keeps_bind hn fun v => keeps_bind hns fun vs => keeps_pure _
  case case28 => exact fun n hn => hn
  -- what is its own value
  all_goals intros; exact keeps_pure _

theorem keeps_invoke (n : Nat) (name : String) (args : List Value) :
    Keeps SameScopes (env.invoke n name args) := by
  induction n generalizing name args with
  | zero => exact keeps_bind (keeps_methodFor _ _) fun _ => keeps_fail _
  | succ n ih =>
    refine keeps_bind (keeps_methodFor _ _) fun m => keeps_bind keeps_get fun _ => ?_
    refine keeps_bind (keeps_modify fun _ => rfl) fun _ => ?_
    refine keeps_bind ((keeps_eval h ih).1 m.body) fun _ => ?_
    exact keeps_bind (keeps_modify fun _ => rfl) fun _ => keeps_pure _

theorem keeps_run (call : Node) : Keeps SameScopes (env.run call) := by
  unfold run
  split
  · refine keeps_bind (keeps_invoke h _ _ _) fun _ => keeps_bind (keeps_invoke h _ _ _) fun v => ?_
    split
    · exact keeps_pure _
    · exact keeps_fail _
  · refine keeps_bind (keeps_invoke h _ _ _) fun v => ?_
    split
    · exact keeps_pure _
    · exact keeps_fail _

end Evaluator

/-- Expanding a call closes every scope that it opens, if the compiler does. -/
theorem LoadedUnit.scopes_expand (u : LoadedUnit) {compiler : TemplateService}
    (h : ∀ text label values, Keeps Eq (compiler text label values)) (call : Node)
    (scopes : Scopes Node) : (u.expand compiler call scopes).scopes = scopes :=
  @Evaluator.keeps_run ⟨u, compiler⟩ h call { scopes }

end Quasiquote
