import Quasiquote.Macro.Inline
import Quasiquote.Proofs.Node.Unquoted

namespace Quasiquote

/-!
# Markers of inline expansion — each one is reported

Where the expansion of an inline macro fails, a marker is left and the failure is noted.

* `Noting` — computations that note failures, and what holds of the results of those that
  note none;
* `Node.noting_expandInlineM`, `Node.markerFree_expandInlineAll` — inline expansion that notes
  no failure leaves no marker.
-/

/-- Whether failures are only added, and a result has a property if none is. -/
def Noting {α : Type} (x : StateM (List Diagnostic) α) (P : α → Prop) : Prop :=
  ∀ ds, ∃ more, (x.run ds).2 = ds ++ more ∧ (more = [] → P (x.run ds).1)

namespace Noting

variable {α β : Type} {x : StateM (List Diagnostic) α} {P : α → Prop} {Q : β → Prop}

theorem pure {a : α} (h : P a) : Noting (Pure.pure a) P :=
  fun ds => ⟨[], (List.append_nil ds).symm, fun _ => h⟩

/-- What is done next may rely on the results so far. -/
theorem bind {f : α → StateM (List Diagnostic) β} (hx : Noting x P)
    (hf : ∀ a, Noting (f a) fun b => P a → Q b) : Noting (x >>= f) Q := by
  intro ds
  obtain ⟨first, hfirst, ha⟩ := hx ds
  obtain ⟨second, hsecond, hb⟩ := hf (x.run ds).1 (x.run ds).2
  refine ⟨first ++ second, ?_, fun hnone => ?_⟩
  · show ((f (x.run ds).1).run (x.run ds).2).2 = _
    rw [hsecond, hfirst, List.append_assoc]
  · obtain ⟨rfl, rfl⟩ := List.append_eq_nil_iff.1 hnone
    exact hb rfl (ha rfl)

theorem mono {P' : α → Prop} (hx : Noting x P) (h : ∀ a, P a → P' a) : Noting x P' := by
  intro ds
  obtain ⟨more, hmore, ha⟩ := hx ds
  exact ⟨more, hmore, fun hnone => h _ (ha hnone)⟩

/-- Nothing needs to hold after a failure. -/
theorem fail (d : Diagnostic) : Noting (modify (· ++ [d]) : StateM (List Diagnostic) PUnit) fun _ => False :=
  fun _ => ⟨[d], rfl, fun h => by cases h⟩

end Noting

namespace Node

variable (env : InlineEnv)

/-- Inline expansion where failures are noted. -/
abbrev note (d : Diagnostic) : StateM (List Diagnostic) Unit := modify (· ++ [d])

theorem noting_expandDefinitionM (name : String) (call : Node) :
    Noting (expandDefinitionM env note name call) MarkerFree := by
  unfold expandDefinitionM
  split
  · exact .pure ((holds_leaf rfl).2 rfl)
  · exact .bind (.fail _) fun _ => .pure fun hfalse => hfalse.elim

theorem markerFree_outputStream (s : Span) : (outputStream s).MarkerFree :=
  holds_call.2 ⟨rfl, (holds_leaf rfl).2 rfl, by simp, by simp⟩

mutual

/-- Outside of quoted trees, inline expansion that notes no failure leaves no marker. -/
theorem noting_expandInlineM (quoted : Bool) : ∀ n : Node,
    Noting (n.expandInlineM env note quoted) fun n' => quoted = false → n.MarkerFree → n'.MarkerFree
  | ⟨s, .ident name⟩ => by
    unfold expandInlineM
    split
    · exact .pure fun _ h => h
    · exact (noting_expandDefinitionM env name _).mono fun _ h _ _ => h
    · exact .pure fun _ _ => holds_call.2 ⟨rfl, markerFree_outputStream s, by simp, by simp⟩
  | ⟨s, .invoke name args block⟩ => by
    unfold expandInlineM
    split
    · refine .bind (noting_expandInlineListM quoted args) fun args' =>
        .bind (noting_expandInlineOptM quoted block) fun block' => .pure ?_
      intro hblock hargs hq hn
      obtain ⟨-, ha, hb⟩ := holds_invoke.1 hn
      exact holds_invoke.2 ⟨rfl, hargs hq ha, hblock hq hb⟩
    · exact (noting_expandDefinitionM env name _).mono fun _ h _ _ => h
    · cases block with
      | some b => exact .bind (.fail _) fun _ => .pure fun hfalse => hfalse.elim
      | none =>
        refine .bind (noting_expandInlineListM quoted args) fun args' => .pure fun hargs hq hn => ?_
        have ha := (holds_invoke.1 hn).2.1
        exact holds_call.2 ⟨rfl, markerFree_outputStream s, hargs hq ha, by simp⟩
  | ⟨s, .quote body⟩ => by
    unfold expandInlineM
    split
    · exact .pure fun _ h => h
    · exact .bind (noting_expandInlineM true body) fun _ => .pure fun _ _ _ => holds_quote.2 rfl
  | ⟨s, .unquote v⟩ => by
    unfold expandInlineM
    refine .bind (noting_expandInlineM false v) fun v' => .pure fun hv _ hn => ?_
    exact holds_unquote.2 ⟨rfl, hv rfl (holds_unquote.1 hn).2⟩
  | ⟨s, .assign name v⟩ => by
    unfold expandInlineM
    refine .bind (noting_expandInlineM quoted v) fun v' => .pure fun hv hq hn => ?_
    exact holds_assign.2 ⟨rfl, hv hq (holds_assign.1 hn).2⟩
  | ⟨s, .fieldAssign name v⟩ => by
    unfold expandInlineM
    refine .bind (noting_expandInlineM quoted v) fun v' => .pure fun hv hq hn => ?_
    exact holds_fieldAssign.2 ⟨rfl, hv hq (holds_fieldAssign.1 hn).2⟩
  | ⟨s, .call target name args block⟩ => by
    unfold expandInlineM
    refine .bind (noting_expandInlineM quoted target) fun target' =>
      .bind (noting_expandInlineListM quoted args) fun args' =>
      .bind (noting_expandInlineOptM quoted block) fun block' => .pure ?_
    intro hblock hargs htarget hq hn
    obtain ⟨-, ht, ha, hb⟩ := holds_call.1 hn
    exact holds_call.2 ⟨rfl, htarget hq ht, hargs hq ha, hblock hq hb⟩
  | ⟨s, .cond test yes no⟩ => by
    unfold expandInlineM
    refine .bind (noting_expandInlineM quoted test) fun test' =>
      .bind (noting_expandInlineM quoted yes) fun yes' =>
      .bind (noting_expandInlineOptM quoted no) fun no' => .pure ?_
    intro hno hyes htest hq hn
    obtain ⟨-, ht, hy, hn⟩ := holds_cond.1 hn
    exact holds_cond.2 ⟨rfl, htest hq ht, hyes hq hy, hno hq hn⟩
  | ⟨s, .body items⟩ => by
    unfold expandInlineM
    refine .bind (noting_expandInlineListM quoted items) fun items' => .pure fun hitems hq hn => ?_
    exact holds_body.2 ⟨rfl, hitems hq (holds_body.1 hn).2⟩
  | ⟨s, .block params body brace⟩ => by
    unfold expandInlineM
    refine .bind (noting_expandInlineM quoted body) fun body' => .pure fun hbody hq hn => ?_
    exact holds_block.2 ⟨rfl, hbody hq (holds_block.1 hn).2⟩
  | ⟨s, .classDef name superclass body⟩ => by
    unfold expandInlineM
    refine .bind (noting_expandInlineM quoted body) fun body' => .pure fun hbody hq hn => ?_
    exact holds_classDef.2 ⟨rfl, hbody hq (holds_classDef.1 hn).2⟩
  | ⟨s, .methodDef name params returns body⟩ => by
    unfold expandInlineM
    refine .bind (noting_expandInlineParamsM quoted params) fun params' =>
      .bind (noting_expandInlineM quoted body) fun body' => .pure ?_
    intro hbody hparams hq hn
    obtain ⟨-, hp, hb⟩ := holds_methodDef.1 hn
    exact holds_methodDef.2 ⟨rfl, hparams hq hp, hbody hq hb⟩
  | ⟨_, .int _⟩ | ⟨_, .float _⟩ | ⟨_, .str _⟩ | ⟨_, .bool _⟩ | ⟨_, .nil⟩ | ⟨_, .self⟩
  | ⟨_, .field _⟩ | ⟨_, .constant _⟩ | ⟨_, .blockArgument _ _⟩ | ⟨_, .macroDef _ _ _ _⟩
  | ⟨_, .noop⟩ | ⟨_, .error _⟩ => by
    unfold expandInlineM
    exact .pure fun _ h => h

theorem noting_expandInlineListM (quoted : Bool) : ∀ ns : List Node,
    Noting (expandInlineListM env note quoted ns) fun ns' =>
      quoted = false → (∀ n ∈ ns, n.MarkerFree) → ∀ n ∈ ns', n.MarkerFree
  | [] => by
    unfold expandInlineListM
    exact .pure fun _ h => h
  | n :: ns => by
    unfold expandInlineListM
    refine .bind (noting_expandInlineM quoted n) fun n' =>
      .bind (noting_expandInlineListM quoted ns) fun ns' => .pure fun hns hn hq h => ?_
    obtain ⟨hfirst, hrest⟩ := List.forall_mem_cons.1 h
    exact List.forall_mem_cons.2 ⟨hn hq hfirst, hns hq hrest⟩

theorem noting_expandInlineOptM (quoted : Bool) : ∀ n : Option Node,
    Noting (expandInlineOptM env note quoted n) fun n' =>
      quoted = false → (∀ m ∈ n, m.MarkerFree) → ∀ m ∈ n', m.MarkerFree
  | none => by
    unfold expandInlineOptM
    exact .pure fun _ h => h
  | some n => by
    unfold expandInlineOptM
    refine .bind (noting_expandInlineM quoted n) fun n' => .pure fun hn hq h m hm => ?_
    exact Option.some.inj hm ▸ hn hq (h n rfl)

theorem noting_expandInlineParamsM (quoted : Bool) : ∀ ps : List Parameter,
    Noting (expandInlineParamsM env note quoted ps) fun ps' =>
      quoted = false → (∀ p ∈ ps, ∀ d ∈ p.default, d.MarkerFree) →
        ∀ p ∈ ps', ∀ d ∈ p.default, d.MarkerFree
  | [] => by
    unfold expandInlineParamsM
    exact .pure fun _ h => h
  | ⟨_, _, default, _⟩ :: ps => by
    unfold expandInlineParamsM
    refine .bind (noting_expandInlineOptM quoted default) fun default' =>
      .bind (noting_expandInlineParamsM quoted ps) fun ps' => .pure fun hps hdefault hq h => ?_
    obtain ⟨hfirst, hrest⟩ := List.forall_mem_cons.1 h
    exact List.forall_mem_cons.2 ⟨hdefault hq hfirst, hps hq hrest⟩

end

/-- Inline expansion that notes no failure leaves no marker. -/
theorem markerFree_expandInlineAll {n : Node} (h : n.MarkerFree)
    (hnone : (n.expandInlineAll env).2 = []) : (n.expandInlineAll env).1.MarkerFree := by
  obtain ⟨more, hmore, hfree⟩ := noting_expandInlineM env false n []
  have hmore : (n.expandInlineAll env).2 = [] ++ more := hmore
  rw [hnone, List.nil_append] at hmore
  exact hfree hmore.symm rfl h

end Node

end Quasiquote
