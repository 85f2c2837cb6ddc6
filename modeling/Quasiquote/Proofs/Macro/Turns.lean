import Quasiquote.Proofs.Macro.Inline
import Quasiquote.Proofs.Node.Descent

namespace Quasiquote

/-!
# Turns — what inline expansion does at a node

At each node the walk leaves what is there, fails, or goes on with the parts.  A call of an inline
macro is replaced first, and the parts are those of what has been put in its place.

* `InlineMacro.replace` — what is put in the place of a call;
* `Node.turn`, `Node.visitM` — what the walk does at a node, and one visit that does it;
* `Node.expandInlineM_eq_visitM` — inline expansion is the walk that makes such visits;
* `Node.turn_induction` — the visits come to an end;
* `Node.expanded`, `Node.failures` — the tree that results and the failures that occur, whatever
  is done about them: `Node.expandInlineM_eq_report`.
-/

/-- What is put in the place of a call of an inline macro, or why nothing can be. -/
def InlineMacro.replace (source name : String) (call : Node) : InlineMacro → Except Diagnostic Node
  | .definition => do
    let m ← MacroSpec.ofCall source name call
    return ⟨call.span, .macroDef m.name m.args m.body none⟩
  | .output method =>
    if call.callBlock.isSome then .error (Node.blockRefused source name call.span)
    else .ok ⟨call.span, .call (Node.outputStream call.span) method call.callArgs none⟩

/-- What the walk does at a node. -/
inductive Turn where
  /-- It puts a node there and goes no further. -/
  | leave (n : Node)
  | refuse (d : Diagnostic)
  /-- It puts a node there and goes on with its parts, as quoted text or as code. -/
  | enter (quoted : Bool) (n : Node)

namespace Node

/-- A bare identifier counts as a call without arguments. -/
def asCall : Node → Node
  | ⟨s, .ident name⟩ => ⟨s, .invoke name [] none⟩
  | n => n

/-- The inline macro that a node of code calls, with its name. -/
def inlineMacro? (env : InlineEnv) (n : Node) : Option (String × InlineMacro) :=
  match n.form with
  | .ident name | .invoke name _ _ => (env.macros.get? name).map fun kind => (name, kind)
  | _ => none

/-- Whether the parts of a node are quoted text. -/
def inside (quoted : Bool) : Node → Bool
  | ⟨_, .quote _⟩ => true
  | ⟨_, .unquote _⟩ => false
  | _ => quoted

/-- What the walk does at a node of code or of quoted text.  A quote in quoted text and a new
    macro definition are left alone. -/
def turn (env : InlineEnv) (quoted : Bool) (n : Node) : Turn :=
  if quoted && n.form.isQuote then .leave n
  else match if quoted then none else n.inlineMacro? env with
    | none => .enter (n.inside quoted) n
    | some (name, kind) => match kind.replace env.source name n.asCall with
      | .error d => .refuse d
      | .ok r => if r.form.isMacroDef then .leave r else .enter false r

section Visits

variable {m : Type → Type} [Monad m]

/-- One visit of the walk, given the visits to the parts.  A failure leaves a marker. -/
def visitM (env : InlineEnv) (fail : Diagnostic → m Unit) (visit : Bool → Node → m Node)
    (quoted : Bool) (n : Node) : m Node :=
  match n.turn env quoted with
  | .leave r => pure r
  | .refuse d => report fail [d] ⟨n.span, .error d.message⟩
  | .enter q r => descendM (visit q) r

variable [LawfulMonad m] (env : InlineEnv) (fail : Diagnostic → m Unit)

theorem expandInlineListM_eq (quoted : Bool) (ns : List Node) :
    expandInlineListM env fail quoted ns = ns.mapM (expandInlineM env fail quoted) := by
  induction ns with
  | nil => rfl
  | cons n ns ih => rw [expandInlineListM, List.mapM_cons, ih]

theorem expandInlineOptM_eq (quoted : Bool) (n : Option Node) :
    expandInlineOptM env fail quoted n = n.mapM (expandInlineM env fail quoted) := by
  cases n with
  | none => rfl
  | some n => simp [expandInlineOptM]

theorem expandInlineParamsM_eq (quoted : Bool) (ps : List Parameter) :
    expandInlineParamsM env fail quoted ps =
      ps.mapM fun p => do
        return p.withDefault (← p.default.mapM (expandInlineM env fail quoted)) := by
  induction ps with
  | nil => rfl
  | cons p ps ih =>
    obtain ⟨name, type, default, block⟩ := p
    rw [expandInlineParamsM, List.mapM_cons, ih, expandInlineOptM_eq]
    simp [Parameter.default, Parameter.withDefault, Parameter.name, Parameter.typeName,
      Parameter.isBlock]

/-- A walk that goes into an output stream finds nothing to do. -/
@[simp] theorem expandInlineM_outputStream (quoted : Bool) (s : Span) :
    expandInlineM env fail quoted (outputStream s) = pure (outputStream s) := by
  simp [outputStream, expandInlineM, expandInlineListM, expandInlineOptM]

/-- A call of an output shorthand is replaced by a call on the stream, whose arguments are gone
    into, unless it has a block. -/
theorem visitM_output (visit : Bool → Node → m Node)
    (hstream : ∀ s, visit false (outputStream s) = pure (outputStream s)) {n : Node}
    {name method : String} (hbound : n.inlineMacro? env = some (name, .output method)) :
    visitM env fail visit false n = match n.asCall.callBlock with
      | some _ => report fail [blockRefused env.source name n.asCall.span]
          ⟨n.span, .error (blockRefused env.source name n.asCall.span).message⟩
      | none => do
        let args ← n.asCall.callArgs.mapM (visit false)
        return ⟨n.asCall.span, .call (outputStream n.asCall.span) method args none⟩ := by
  cases hblock : n.asCall.callBlock <;>
    simp [visitM, turn, hbound, InlineMacro.replace, hblock, Form.isMacroDef, descendM, hstream]

/-- Inline expansion is the walk that takes turns. -/
theorem expandInlineM_eq_visitM (quoted : Bool) (n : Node) :
    expandInlineM env fail quoted n = visitM env fail (expandInlineM env fail) quoted n := by
  have hdefinition (n : Node) (name : String)
      (hbound : n.inlineMacro? env = some (name, .definition)) (hspan : n.asCall.span = n.span) :
      visitM env fail (expandInlineM env fail) false n =
        expandDefinitionM env fail name n.asCall := by
    cases hspec : MacroSpec.ofCall env.source name n.asCall <;>
      simp [visitM, turn, hbound, InlineMacro.replace, expandDefinitionM, hspec, hspan, bind,
        Except.bind, pure, Except.pure, report, Form.isMacroDef]
  obtain ⟨s, form⟩ := n
  cases form
  case ident name =>
    cases quoted with
    | true => simp [expandInlineM, visitM, turn, Form.isQuote, descendM]
    | false =>
      cases hget : env.macros.get? name with
      | none => simp [expandInlineM, visitM, turn, inlineMacro?, hget, Form.isQuote, descendM]
      | some kind =>
        have hbound : inlineMacro? env ⟨s, .ident name⟩ = some (name, kind) := by
          simp [inlineMacro?, hget]
        cases kind with
        | definition => simp [expandInlineM, hget, hdefinition _ _ hbound rfl, asCall]
        | output method =>
          rw [visitM_output env fail _ (expandInlineM_outputStream env fail false) hbound]
          simp [expandInlineM, hget, asCall, callBlock, callArgs]
  case invoke name args block =>
    cases quoted with
    | true =>
      simp [expandInlineM, visitM, turn, Form.isQuote, descendM, inside, expandInlineListM_eq,
        expandInlineOptM_eq]
    | false =>
      cases hget : env.macros.get? name with
      | none =>
        simp [expandInlineM, visitM, turn, inlineMacro?, hget, Form.isQuote, descendM, inside,
          expandInlineListM_eq, expandInlineOptM_eq]
      | some kind =>
        have hbound : inlineMacro? env ⟨s, .invoke name args block⟩ = some (name, kind) := by
          simp [inlineMacro?, hget]
        cases kind with
        | definition => simp [expandInlineM, hget, hdefinition _ _ hbound rfl, asCall]
        | output method =>
          rw [visitM_output env fail _ (expandInlineM_outputStream env fail false) hbound]
          cases block <;>
            simp [expandInlineM, hget, asCall, callBlock, callArgs, expandInlineListM_eq, report]
  case quote body =>
    cases quoted with
    | true => simp [expandInlineM, visitM, turn, Form.isQuote]
    | false => simp [expandInlineM, visitM, turn, inlineMacro?, Form.isQuote, descendM, inside]
  all_goals
    simp [expandInlineM, visitM, turn, inlineMacro?, Form.isQuote, descendM, inside,
      expandInlineListM_eq, expandInlineOptM_eq, expandInlineParamsM_eq]

end Visits

/-! ### The visits come to an end -/

section Turns

variable {env : InlineEnv} {quoted q : Bool} {n r c : Node}

/-- What is put in the place of a call is a definition, or a call on an output stream with the
    same arguments. -/
theorem replace_cases {source name : String} {call : Node} {kind : InlineMacro}
    (h : kind.replace source name call = .ok r) : r.form.isMacroDef = true ∨
      call.callBlock = none ∧
        ∃ method, r = ⟨call.span, .call (outputStream call.span) method call.callArgs none⟩ := by
  cases kind with
  | definition =>
    unfold InlineMacro.replace at h
    cases hspec : MacroSpec.ofCall source name call with
    | error d => simp [hspec, bind, Except.bind] at h
    | ok spec =>
      simp only [hspec, bind, Except.bind, pure, Except.pure, Except.ok.injEq] at h
      exact .inl (h ▸ rfl)
  | output method =>
    simp only [InlineMacro.replace] at h
    split at h
    · cases h
    · rename_i hblock
      exact .inr ⟨by simpa using hblock, method, (Except.ok.inj h).symm⟩

/-- Only identifiers and calls on `self` call inline macros. -/
theorem asCall_of_inlineMacro? {name : String} {kind : InlineMacro}
    (h : n.inlineMacro? env = some (name, kind)) :
    ∃ args block, n.asCall = ⟨n.span, .invoke name args block⟩ := by
  obtain ⟨s, form⟩ := n
  cases form <;> simp only [inlineMacro?, form_mk, reduceCtorEq, Option.map_eq_some_iff,
    Prod.mk.injEq] at h
  case ident name =>
    obtain ⟨-, -, rfl, -⟩ := h
    exact ⟨[], none, rfl⟩
  case invoke name args block =>
    obtain ⟨-, -, rfl, -⟩ := h
    exact ⟨args, block, rfl⟩

/-- The walk goes on with the parts of the node itself, or with an output stream and the
    arguments of the call. -/
theorem turn_enter_cases (h : n.turn env quoted = .enter q r) :
    (r = n ∧ q = n.inside quoted) ∨ q = false ∧ ∃ s name args method,
      n.asCall = ⟨s, .invoke name args none⟩ ∧
        r = ⟨s, .call (outputStream s) method args none⟩ := by
  unfold turn at h
  split at h
  · cases h
  · split at h
    · cases h
      exact .inl ⟨rfl, rfl⟩
    · rename_i name kind hbound
      have hcode : n.inlineMacro? env = some (name, kind) := by
        cases quoted with
        | true => cases hbound
        | false => exact hbound
      obtain ⟨args, block, hcall⟩ := asCall_of_inlineMacro? hcode
      split at h
      · cases h
      · rename_i hr
        split at h
        · cases h
        · rename_i hdef
          cases h
          obtain ⟨hblock, method, rfl⟩ := (replace_cases hr).resolve_left hdef
          rw [hcall, callBlock] at hblock
          subst hblock
          exact .inr ⟨rfl, n.span, name, args, method, hcall, by rw [hcall]; rfl⟩

/-- What the walk leaves is the node itself or a new definition. -/
theorem turn_leave_cases (h : n.turn env quoted = .leave r) :
    r = n ∨ r.form.isMacroDef = true := by
  unfold turn at h
  split at h
  · cases h
    exact .inl rfl
  · split at h
    · cases h
    · split at h
      · cases h
      · split at h
        · rename_i hdef
          cases h
          exact .inr hdef
        · cases h

theorem callArgs_asCall_subset (hc : c ∈ n.asCall.callArgs) : c ∈ n.children := by
  obtain ⟨s, form⟩ := n
  cases form
  case call target name args block => exact List.mem_cons_of_mem _ (List.mem_append_left _ hc)
  case invoke name args block => exact List.mem_append_left _ hc
  all_goals cases hc

/-- The walk goes on with lighter nodes, but for an output stream. -/
theorem turn_enter_part (h : n.turn env quoted = .enter q r) (hc : c ∈ r.children) :
    c.weight < n.weight ∨ q = false ∧ ∃ s, c = outputStream s := by
  obtain ⟨rfl, -⟩ | ⟨hq, s, name, args, method, hcall, rfl⟩ := turn_enter_cases h
  · exact .inl (weight_child hc)
  · rw [children, Option.toList_none, List.append_nil] at hc
    rcases List.mem_cons.1 hc with rfl | hc
    · exact .inr ⟨hq, _, rfl⟩
    · have hargs : c ∈ n.asCall.callArgs := by
        rw [hcall]
        exact hc
      exact .inl (weight_child (callArgs_asCall_subset hargs))

/-- What holds of a node if it holds of the parts that the walk goes on with, holds of all
    nodes. -/
theorem turn_induction {P : Bool → Node → Prop} (env : InlineEnv)
    (h : ∀ quoted n, (∀ q r, n.turn env quoted = .enter q r → ∀ c ∈ r.children, P q c) →
      P quoted n) (quoted : Bool) (n : Node) : P quoted n := by
  -- a stream that is put in may be heavier than the call, but nothing of it is replaced
  have hstream (s : Span) : P false (outputStream s) := by
    refine h _ _ fun q r hr c hc => ?_
    cases hr
    cases List.mem_singleton.1 hc
    refine h _ _ fun q r hr c hc => ?_
    cases hr
    cases hc
  suffices hall : ∀ k, ∀ quoted n, n.weight < k → P quoted n from
    hall _ quoted n (Nat.lt_succ_self _)
  intro k
  induction k with
  | zero => exact fun _ _ hlt => absurd hlt (Nat.not_lt_zero _)
  | succ k ih =>
    intro quoted n hlt
    refine h _ _ fun q r hr c hc => ?_
    obtain hlighter | ⟨rfl, s, rfl⟩ := turn_enter_part hr hc
    · exact ih q c (by omega)
    · exact hstream s

end Turns

/-! ### What results, and what fails -/

/-- The tree with its inline macros expanded, with a marker for each failure. -/
def expanded (env : InlineEnv) (quoted : Bool) (n : Node) : Node :=
  ((expandInlineM env note quoted n).run []).1

/-- The failures of the expansion, in the order in which they occur. -/
def failures (env : InlineEnv) (quoted : Bool) (n : Node) : List Diagnostic :=
  ((expandInlineM env note quoted n).run []).2

/-- Noting failures puts them behind those that are there. -/
theorem run_report_note {α : Type} (es : List Diagnostic) (a : α) (ds : List Diagnostic) :
    (report note es a).run ds = (a, ds ++ es) := by
  induction es generalizing ds with
  | nil => simp [report]; rfl
  | cons e es ih =>
    have := ih (ds ++ [e])
    simpa [report] using this

section Outcome

variable {env : InlineEnv} {quoted q : Bool} {n r t : Node} {es : List Diagnostic}

/-- What is handed over and answered for every way to handle failures are the failures and the
    tree that results. -/
theorem outcome_of_report (h : expandInlineM env note quoted n = report note es t) :
    failures env quoted n = es ∧ expanded env quoted n = t := by
  simp [failures, expanded, h, run_report_note]

section Visit

variable {m : Type → Type} [Monad m] [LawfulMonad m] (fail : Diagnostic → m Unit)
  {visit : Bool → Node → m Node}

/-- One visit, if the visits to the parts are known. -/
theorem visitM_report (hparts : ∀ q r, n.turn env quoted = .enter q r → ∀ c ∈ r.children,
      visit q c = report fail (failures env q c) (expanded env q c)) :
    visitM env fail visit quoted n = match n.turn env quoted with
      | .leave r => report fail [] r
      | .refuse d => report fail [d] ⟨n.span, .error d.message⟩
      | .enter q r =>
        report fail (r.children.flatMap (failures env q)) (r.descend (expanded env q)) := by
  rw [visitM]
  cases hturn : n.turn env quoted with
  | leave r => exact (report_nil fail r).symm
  | refuse d => rfl
  | enter q r => exact descendM_report fail (hparts q r hturn)

end Visit

/-- Inline expansion hands over its failures in order, and then answers with the tree that
    results. -/
theorem expandInlineM_eq_report (env : InlineEnv) {m : Type → Type} [Monad m] [LawfulMonad m]
    (fail : Diagnostic → m Unit) (quoted : Bool) (n : Node) :
    expandInlineM env fail quoted n =
      report fail (failures env quoted n) (expanded env quoted n) := by
  suffices hall : ∀ {m : Type → Type} [Monad m] [LawfulMonad m] (fail : Diagnostic → m Unit),
      expandInlineM env fail quoted n =
        report fail (failures env quoted n) (expanded env quoted n) from hall fail
  refine turn_induction (P := fun quoted n =>
    ∀ {m : Type → Type} [Monad m] [LawfulMonad m] (fail : Diagnostic → m Unit),
      expandInlineM env fail quoted n =
        report fail (failures env quoted n) (expanded env quoted n)) env ?_ quoted n
  intro quoted n ih m _ _ fail
  -- noting tells what the failures and the tree are, and any way to fail meets the same ones
  have hvisit := expandInlineM_eq_visitM env fail quoted n
  rw [visitM_report fail fun q r hr c hc => ih q r hr c hc fail] at hvisit
  have hnoted := expandInlineM_eq_visitM env note quoted n
  rw [visitM_report note fun q r hr c hc => ih q r hr c hc note] at hnoted
  cases hturn : n.turn env quoted <;> simp only [hturn] at hvisit hnoted <;>
    rw [hvisit, (outcome_of_report hnoted).1, (outcome_of_report hnoted).2]

/-- What is handed over and answered in one visit. -/
theorem outcome_turn (env : InlineEnv) (quoted : Bool) (n : Node) :
    match n.turn env quoted with
    | .leave r => failures env quoted n = [] ∧ expanded env quoted n = r
    | .refuse d => failures env quoted n = [d] ∧ expanded env quoted n = ⟨n.span, .error d.message⟩
    | .enter q r => failures env quoted n = r.children.flatMap (failures env q) ∧
        expanded env quoted n = r.descend (expanded env q) := by
  have hvisit := expandInlineM_eq_visitM env note quoted n
  rw [visitM_report note fun q _ _ c _ => expandInlineM_eq_report env note q c] at hvisit
  cases hturn : n.turn env quoted <;> rw [hturn] at hvisit <;> exact outcome_of_report hvisit

/-- A walk that does at the parts what inline expansion does there, does so at the node. -/
theorem visitM_eq_report {m : Type → Type} [Monad m] [LawfulMonad m] (fail : Diagnostic → m Unit)
    {visit : Bool → Node → m Node} (hparts : ∀ q r, n.turn env quoted = .enter q r →
      ∀ c ∈ r.children, visit q c = report fail (failures env q c) (expanded env q c)) :
    visitM env fail visit quoted n =
      report fail (failures env quoted n) (expanded env quoted n) := by
  rw [visitM_report fail hparts]
  have houtcome := outcome_turn env quoted n
  cases hturn : n.turn env quoted <;> simp only [hturn] at houtcome <;>
    rw [houtcome.1, houtcome.2]

theorem outcome_leave (h : n.turn env quoted = .leave r) :
    failures env quoted n = [] ∧ expanded env quoted n = r := by
  simpa only [h] using outcome_turn env quoted n

theorem outcome_refuse {d : Diagnostic} (h : n.turn env quoted = .refuse d) :
    failures env quoted n = [d] ∧ expanded env quoted n = ⟨n.span, .error d.message⟩ := by
  simpa only [h] using outcome_turn env quoted n

theorem outcome_enter (h : n.turn env quoted = .enter q r) :
    failures env quoted n = r.children.flatMap (failures env q) ∧
      expanded env quoted n = r.descend (expanded env q) := by
  simpa only [h] using outcome_turn env quoted n

/-- Ending at the first failure. -/
theorem report_throw (es : List Diagnostic) (t : Node) :
    report (m := Except Diagnostic) throw es t = match es.head? with
      | some d => .error d
      | none => .ok t := by
  cases es <;> rfl

theorem expandInline_first (env : InlineEnv) (n : Node) :
    n.expandInline env = match (failures env false n).head? with
      | some d => .error d
      | none => .ok (expanded env false n) := by
  rw [expandInline, expandInlineM_eq_report, report_throw]

theorem expandInlineAll_outcome (env : InlineEnv) (n : Node) :
    n.expandInlineAll env = (expanded env false n, failures env false n) := rfl

/-- An expansion that succeeds is one without failures. -/
theorem expandInline_ok_iff :
    n.expandInline env = .ok t ↔ failures env false n = [] ∧ expanded env false n = t := by
  rw [expandInline_first]
  cases failures env false n <;> simp

end Outcome

end Node

end Quasiquote
