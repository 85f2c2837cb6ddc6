import Mathlib.Data.List.Forall2
import Quasiquote.Proofs.Program.Shapes
import Quasiquote.Proofs.Program.Splices

namespace Quasiquote

/-!
# Anchors — the same tree at another place

With an anchor a text is read step by step as without one.  All nodes of the text then stand at
the anchor, and the values of its placeholders keep their places.

* `Phrase.ordinals` — the ordinals of the placeholders in a phrase, in source order;
* `Reading.Agree` — two readings that go on in the same way, and what their results have in
  common;
* `Reading.agree_node` — all phrases are read alike with an anchor;
* `Reading.anchor_places` — what an anchor changes.
-/

mutual

/-- The ordinals of the placeholders in a phrase, in source order. -/
def Phrase.ordinals : Phrase Rule → List Nat
  | ⟨.holeRef, _, _, [⟨_, _, digits, _⟩]⟩ => [Decimal.natOfDigits digits.toList]
  | ⟨_, _, _, parts⟩ => ordinalsAll parts

/-- The ordinals of the placeholders in several phrases. -/
def Phrase.ordinalsAll : List (Phrase Rule) → List Nat
  | [] => []
  | p :: ps => p.ordinals ++ ordinalsAll ps

end

/-- The values that the innermost scope hands out. -/
def Scopes.values {α : Type} : Scopes α → List α
  | .inject values _ :: _ => values
  | _ => []

namespace Reading

open Phrase (ordinals ordinalsAll)

/-- The same reading with an anchor. -/
def anchorAt (env : Reading) (a : Span) : Reading := { env with anchor := some a }

/-- Two computations have ended in the same way and left the same scopes.  They have failed
    alike, the second one at `a`; or the values with the ordinals `is` are there, and the results
    are related by `Q` to the pieces of these values. -/
def Ends {α : Type} (source : String) (a : Span) (values : List Node) (is : List Nat)
    (Q : α → α → List Node → Prop) :
    Except Diagnostic α × Scopes Node → Except Diagnostic α × Scopes Node → Prop
  | (.ok m, s), (.ok n, s') => s = s' ∧ s.values = values ∧
    ∃ vs ps, List.Forall₂ (fun i v => values[i]? = some v) is vs ∧ Cut vs ps ∧ Q m n ps
  | (.error d, s), (.error d', s') => s = s' ∧ d' = d.reanchor a source
  | (.ok _, _), (.error _, _) | (.error _, _), (.ok _, _) => False

/-- Two computations that start from the same scopes end in the same way. -/
def Agree {α : Type} (source : String) (a : Span) (x y : Reader α) (is : List Nat)
    (Q : α → α → List Node → Prop) : Prop :=
  ∀ st, Ends source a st.values is Q (x.run st) (y.run st)

namespace Agree

variable {α β : Type} {source : String} {a : Span} {x y : Reader α} {f g : α → Reader β}
  {is js : List Nat} {P : α → α → List Node → Prop} {Q : β → β → List Node → Prop}

theorem pure {m n : α} (h : P m n []) : Agree source a (Pure.pure m) (Pure.pure n) [] P :=
  fun _ => ⟨rfl, rfl, [], [], .nil, .nil, h⟩

theorem throw (d : Diagnostic) : Agree source a (MonadExcept.throw d : Reader α)
    (MonadExcept.throw (d.reanchor a source)) is P :=
  fun _ => ⟨rfl, rfl⟩

/-- A computation goes on with the pieces of its first part in front. -/
theorem bind (hx : Agree source a x y is P)
    (hf : ∀ m n ps, P m n ps → Agree source a (f m) (g n) js fun m' n' qs => Q m' n' (ps ++ qs)) :
    Agree source a (x >>= f) (y >>= g) (is ++ js) Q := by
  intro st
  rw [run_bind_apply, run_bind_apply]
  have hfirst := hx st
  revert hfirst
  rcases x.run st with ⟨d | m, s⟩ <;> rcases y.run st with ⟨d' | n, s'⟩ <;> intro hfirst
  case ok.ok =>
    obtain ⟨rfl, hvalues, vs, ps, hvs, hcut, hP⟩ := hfirst
    have hsecond := hf m n ps hP s
    rw [hvalues] at hsecond
    dsimp only
    revert hsecond
    rcases (f m).run s with ⟨d | m', t⟩ <;> rcases (g n).run s with ⟨d' | n', t'⟩ <;> intro hsecond
    case ok.ok =>
      obtain ⟨rfl, hvalues', ws, qs, hws, hcut', hQ⟩ := hsecond
      exact ⟨rfl, hvalues', vs ++ ws, ps ++ qs, List.rel_append hvs hws, hcut.append hcut', hQ⟩
    case error.error => exact hsecond
    all_goals exact hsecond.elim
  case error.error => exact hfirst
  all_goals exact hfirst.elim

/-- A computation goes on without reading placeholders. -/
theorem andThen (hx : Agree source a x y is P)
    (hf : ∀ m n ps, P m n ps → Agree source a (f m) (g n) [] fun m' n' qs => Q m' n' (ps ++ qs)) :
    Agree source a (x >>= f) (y >>= g) is Q := by
  have hboth := hx.bind hf
  rwa [List.append_nil] at hboth

/-- A result that is turned into an answer without failing, while values may be cut. -/
theorem mapCut {h k : α → β} (hx : Agree source a x y is P)
    (hQ : ∀ vs m n ps, Cut vs ps → P m n ps → ∃ qs, Cut vs qs ∧ Q (h m) (k n) qs) :
    Agree source a (x >>= fun m => Pure.pure (h m)) (y >>= fun n => Pure.pure (k n)) is Q := by
  intro st
  rw [run_bind_apply, run_bind_apply]
  have hboth := hx st
  revert hboth
  rcases x.run st with ⟨d | m, s⟩ <;> rcases y.run st with ⟨d' | n, s'⟩ <;> intro hboth
  case ok.ok =>
    obtain ⟨hs, hvalues, vs, ps, hvs, hcut, hP⟩ := hboth
    obtain ⟨qs, hcut', hQ⟩ := hQ vs m n ps hcut hP
    exact ⟨hs, hvalues, vs, qs, hvs, hcut', hQ⟩
  case error.error => exact hboth
  all_goals exact hboth.elim

/-- A result that is turned into an answer without failing. -/
theorem map {h k : α → β} (hx : Agree source a x y is P)
    (hQ : ∀ m n ps, P m n ps → Q (h m) (k n) ps) :
    Agree source a (x >>= fun m => Pure.pure (h m)) (y >>= fun n => Pure.pure (k n)) is Q :=
  hx.mapCut fun _ m n ps hcut hP => ⟨ps, hcut, hQ m n ps hP⟩

theorem mono {Q : α → α → List Node → Prop} (hx : Agree source a x y is P)
    (h : ∀ m n ps, P m n ps → Q m n ps) : Agree source a x y is Q := by
  have hboth := hx.map (h := id) (k := id) h
  simpa using hboth

theorem of_ordinals (h : Agree source a x y js P) (heq : is = js) : Agree source a x y is P :=
  heq ▸ h

end Agree

/-! ### Placeholders and literals -/

section Phrases

variable (env : Reading) (a : Span)

/-- A phrase is read alike with an anchor. -/
def Alike (p : Phrase Rule) : Prop :=
  Agree env.source a (env.node p) ((env.anchorAt a).node p) p.ordinals (Same a)

/-- All phrases that are smaller are read alike with an anchor. -/
def Below (p : Phrase Rule) : Prop := ∀ q, sizeOf q < sizeOf p → language.Formed q → Alike env a q

variable {env a} {p q name body : Phrase Rule} {ps parts : List (Phrase Rule)} {s : Span}
  {t : String} {is : List Nat}

theorem agree_malformed {α : Type} {Q : α → α → List Node → Prop} :
    Agree env.source a (env.malformed s) ((env.anchorAt a).malformed s) is Q :=
  .throw _

theorem agree_integer :
    Agree env.source a (env.integer t s) ((env.anchorAt a).integer t s) [] (Same a) := by
  unfold integer
  split
  · exact .pure (.leaf rfl)
  · exact .throw _

theorem agree_placeholderValue : Agree env.source a (env.placeholderValue t s)
    ((env.anchorAt a).placeholderValue t s) [Decimal.natOfDigits t.toList] (Same a) := by
  unfold placeholderValue
  dsimp only
  split
  -- an anchor does not change whether values are put in
  · by_cases hresolves : env.resolves = true
    · rw [if_pos hresolves, if_pos (show (env.anchorAt a).resolves = true from hresolves)]
      have hmisuse (e : TemplateError) : e.toDiagnostic "parse" env.source a =
          (e.toDiagnostic "parse" env.source (env.place s)).reanchor a env.source := by
        cases e <;> rfl
      have hrun (i : Nat) (f : TemplateError → Diagnostic) (st : Scopes Node) :
          ((Scopes.resolve i).adapt f : Reader Node).run st =
            ((Scopes.resolved i st).1.mapError f, (Scopes.resolved i st).2) := rfl
      intro st
      rw [hrun, hrun]
      match st with
      | [] | .extract _ :: _ => exact ⟨rfl, hmisuse _⟩
      | .inject values used :: rest =>
        unfold Scopes.resolved
        dsimp only
        cases hv : values[Decimal.natOfDigits t.toList]? with
        | none => exact ⟨rfl, hmisuse _⟩
        | some v => exact ⟨rfl, rfl, [v], [v], .cons hv .nil, .whole v .nil, .piece v⟩
    · rw [if_neg hresolves, if_neg (show (env.anchorAt a).resolves ≠ true from hresolves)]
      exact .throw _
  · exact .throw _

/-! ### Phrases in order -/

theorem ordinals_eq (hr : p.rule ≠ .holeRef) : p.ordinals = ordinalsAll p.parts := by
  obtain ⟨r, s, t, parts⟩ := p
  cases r <;> first | rfl | exact absurd rfl hr

theorem ordinals_token {r : Rule} (h : Is r p) (hr : r.mode = .token) : p.ordinals = [] := by
  obtain ⟨r', s, t, parts⟩ := p
  obtain ⟨rfl, h⟩ := h
  obtain rfl := parts_of_token h hr
  cases r' <;> rfl

theorem ordinalsAll_append (ps qs : List (Phrase Rule)) :
    ordinalsAll (ps ++ qs) = ordinalsAll ps ++ ordinalsAll qs := by
  induction ps with
  | nil => rfl
  | cons p ps ih => rw [List.cons_append, ordinalsAll, ordinalsAll, ih, List.append_assoc]

theorem ordinalsAll_eq_nil (h : ∀ p ∈ ps, p.ordinals = []) : ordinalsAll ps = [] := by
  induction ps with
  | nil => rfl
  | cons p ps ih =>
    obtain ⟨hp, hps⟩ := List.forall_mem_cons.1 h
    rw [ordinalsAll, hp, ih hps, List.append_nil]

theorem sizeOf_lt_of_mem_parts (h : q ∈ p.parts) : sizeOf q < sizeOf p := by
  obtain ⟨r, s, t, parts⟩ := p
  have hmem : q ∈ parts := h
  have := List.sizeOf_lt_of_mem hmem
  simp only [Phrase.mk.sizeOf_spec]
  omega

theorem Below.part (h : Below env a p) (hq : q ∈ p.parts) : Below env a q :=
  fun q' hlt => h q' (Nat.lt_trans hlt (sizeOf_lt_of_mem_parts hq))

theorem Below.alike (h : Below env a p) (hf : language.Formed p) (hq : q ∈ p.parts) :
    Alike env a q :=
  h q (sizeOf_lt_of_mem_parts hq) (hf.of_mem_parts hq)

theorem agree_nodes (h : ∀ p ∈ ps, Alike env a p) :
    Agree env.source a (env.nodes ps) ((env.anchorAt a).nodes ps) (ordinalsAll ps) (SameAll a) := by
  induction ps with
  | nil => exact .pure .nil
  | cons p ps ih =>
    obtain ⟨hp, hps⟩ := List.forall_mem_cons.1 h
    exact .bind hp fun m n qs hm => .map (ih hps) fun ms ns rs hms => .cons hm hms

theorem agree_parts (h : Below env a p) (hf : language.Formed p) (hr : p.rule ≠ .holeRef) :
    Agree env.source a (env.nodes p.parts) ((env.anchorAt a).nodes p.parts) p.ordinals
      (SameAll a) := by
  rw [ordinals_eq hr]
  exact agree_nodes fun q hq => h.alike hf hq

/-- A body is read as a body of the text. -/
theorem agree_body (h : Below env a p) (hp : Is .body p) :
    Agree env.source a (env.node p) ((env.anchorAt a).node p) p.ordinals (SameBody a) := by
  obtain ⟨r, s, t, parts⟩ := p
  obtain ⟨rfl, hf⟩ := hp
  have hparts : Agree env.source a (env.nodes parts) ((env.anchorAt a).nodes parts)
      (ordinals ⟨.body, s, t, parts⟩) (SameAll a) := agree_parts h hf (by simp [Phrase.rule])
  exact .map hparts fun ms ns ps hms => ⟨env.place s, ms, ns, rfl, rfl, hms⟩

theorem alike_assignment (h : Below env a ⟨.assignment, s, t, parts⟩)
    (hf : language.Formed ⟨.assignment, s, t, parts⟩) : Alike env a ⟨.assignment, s, t, parts⟩ := by
  obtain ⟨⟨r, ts, name, ps⟩, value, rfl, htarget, -⟩ := shape_assignment hf
  have hvalue : Alike env a value := h.alike hf (by simp [Phrase.parts])
  obtain ⟨rfl, hname⟩ | ⟨rfl, hname⟩ := htarget <;> obtain rfl := parts_of_token hname rfl
  · refine (Agree.map hvalue fun m n ps hm => ?_).of_ordinals (List.append_nil _)
    exact Same.fieldAssign hm
  · refine (Agree.map hvalue fun m n ps hm => ?_).of_ordinals (List.append_nil _)
    exact Same.assign hm

theorem alike_ternary (h : Below env a ⟨.ternary, s, t, parts⟩)
    (hf : language.Formed ⟨.ternary, s, t, parts⟩) : Alike env a ⟨.ternary, s, t, parts⟩ := by
  obtain ⟨test, -, rfl | ⟨yes, no, rfl, -, -⟩⟩ := shape_ternary hf
  · have htest : Alike env a test := h.alike hf (by simp [Phrase.parts])
    exact Agree.of_ordinals htest (List.append_nil _)
  · have hall (q : Phrase Rule) (hq : q ∈ [test, yes, no]) : Alike env a q := h.alike hf hq
    refine Agree.bind (hall test (by simp)) fun m n ps hm => Agree.bind (hall yes (by simp))
      fun m' n' qs hm' => ?_
    refine Agree.of_ordinals (Agree.map (hall no (by simp)) fun m'' n'' rs hm'' => ?_)
      (List.append_nil _)
    exact .cond hm hm' (.some hm'')

/-! ### Calls and blocks -/

theorem ordinals_blockParams (h : Is .blockParams p) : p.ordinals = [] := by
  obtain ⟨r, s, t, parts⟩ := p
  obtain ⟨rfl, hf⟩ := h
  exact ordinalsAll_eq_nil fun q hq => ordinals_token (shape_blockParams hf q hq) rfl

/-- A block is read as a block of the text. -/
theorem agree_block (h : Below env a p) (hp : IsAnyBlock p) :
    Agree env.source a (env.node p) ((env.anchorAt a).node p) p.ordinals (SameBlock a) := by
  obtain ⟨r, s, t, parts⟩ := p
  have hshape : ∃ (params : Option (Phrase Rule)) (body : Phrase Rule),
      parts = params.toList ++ [body] ∧ (∀ p ∈ params, Is .blockParams p) ∧ Is .body body := by
    obtain ⟨rfl, hf⟩ | ⟨rfl, hf⟩ := hp
    · exact shape_braceBlock hf
    · exact shape_doBlock hf
  obtain ⟨params, body, rfl, hparams, hbody⟩ := hshape
  have hbody' := agree_body (h.part (q := body) (by simp [Phrase.parts])) hbody
  cases params with
  | none =>
    have hordinals : ordinalsAll [body] = body.ordinals := List.append_nil _
    obtain ⟨rfl, -⟩ | ⟨rfl, -⟩ := hp <;>
    · refine Agree.of_ordinals (Agree.map hbody' fun m n ps hm => ?_) hordinals
      exact ⟨_, _, m, n, _, rfl, rfl, hm.same⟩
  | some params =>
    have hordinals : ordinalsAll [params, body] = body.ordinals := by
      simp [ordinalsAll, ordinals_blockParams (hparams params rfl)]
    obtain ⟨r', s', t', names⟩ := params
    obtain ⟨rfl, -⟩ | ⟨rfl, -⟩ := hp <;>
    · refine Agree.of_ordinals (Agree.map hbody' fun m n ps hm => ?_) hordinals
      exact ⟨_, _, m, n, _, rfl, rfl, hm.same⟩

theorem alike_functionCall (h : Below env a ⟨.functionCall, s, t, parts⟩)
    (hf : language.Formed ⟨.functionCall, s, t, parts⟩) :
    Alike env a ⟨.functionCall, s, t, parts⟩ := by
  obtain ⟨name, args, block, rfl, hname, hargs, -⟩ := shape_functionCall hf
  have hargs' := agree_parts (h.part (q := args) (by simp [Phrase.parts])) hargs.2
    (by simp [hargs.1])
  have hnone := ordinals_token hname rfl
  obtain ⟨r, ns, x, ps⟩ := name
  obtain ⟨r', as, at', args⟩ := args
  cases block with
  | none =>
    refine Agree.of_ordinals (Agree.map hargs' fun ms ns ps hms => ?_)
      (show ordinalsAll [_, _] = _ by simp [ordinalsAll, hnone])
    exact (List.append_nil ps) ▸ Same.invoke hms .none
  | some block =>
    have hblock' : Alike env a block := h.alike hf (by simp [Phrase.parts])
    refine Agree.of_ordinals (Agree.bind hargs' fun ms ns ps hms => Agree.map hblock'
      fun m n qs hm => ?_) (show ordinalsAll [_, _, _] = _ by simp [ordinalsAll, hnone])
    exact .invoke hms (.some hm)

theorem alike_command (h : Below env a ⟨.command, s, t, parts⟩)
    (hf : language.Formed ⟨.command, s, t, parts⟩) : Alike env a ⟨.command, s, t, parts⟩ := by
  obtain ⟨name, args, block, rfl, hname, hargs, -⟩ := shape_command hf
  have hargs' := agree_parts (h.part (q := args) (by simp [Phrase.parts])) hargs.2
    (by simp [hargs.1])
  have hnone := ordinals_token hname rfl
  obtain ⟨r, ns, x, ps⟩ := name
  obtain ⟨r', as, at', args⟩ := args
  cases block with
  | none =>
    -- the block of the last argument, which may be one of a value, goes to the command
    refine Agree.of_ordinals (Agree.mapCut hargs' fun vs ms ns ps hcut hms => ?_)
      (show ordinalsAll [_, _] = _ by simp [ordinalsAll, hnone])
    exact Same.command hms hcut
  | some block =>
    have hblock' : Alike env a block := h.alike hf (by simp [Phrase.parts])
    refine Agree.of_ordinals (Agree.bind hargs' fun ms ns ps hms => Agree.map hblock'
      fun m n qs hm => ?_) (show ordinalsAll [_, _, _] = _ by simp [ordinalsAll, hnone])
    exact .invoke hms (.some hm)

theorem alike_blockArg (hf : language.Formed ⟨.blockArg, s, t, parts⟩) :
    Alike env a ⟨.blockArg, s, t, parts⟩ := by
  obtain ⟨⟨r, ns, name, ps⟩, default, rfl, ⟨rfl, hname⟩, hdefault⟩ := shape_blockArg hf
  obtain rfl := parts_of_token hname rfl
  cases default with
  | none => exact Agree.pure (.leaf rfl)
  | some default =>
    refine Agree.of_ordinals (Agree.pure (.leaf rfl)) ?_
    exact ordinalsAll_eq_nil (by simpa using ⟨rfl, ordinals_token (hdefault default rfl) rfl⟩)

theorem alike_parenthesized (h : Below env a ⟨.parenthesized, s, t, parts⟩)
    (hf : language.Formed ⟨.parenthesized, s, t, parts⟩) :
    Alike env a ⟨.parenthesized, s, t, parts⟩ := by
  obtain ⟨body, rfl, hbody⟩ := shape_parenthesized hf
  have hbody' := agree_body (h.part (q := body) (by simp [Phrase.parts])) hbody
  refine Agree.of_ordinals (Agree.map hbody' fun m n ps hm => ?_) (List.append_nil _)
  -- empty parentheses are recognised without looking at spans
  have hitems : m.statements.isEmpty = n.statements.isEmpty := by
    rw [← Node.statements_isEmpty_unplaced, hm.same.1, Node.statements_isEmpty_unplaced]
  rw [hitems]
  split
  · rename_i hempty
    obtain ⟨_, xs, ys, rfl, rfl, hys⟩ := hm
    obtain rfl : ys = [] := by simpa [Node.statements] using hempty
    obtain ⟨-, _ | _⟩ := hys
    exact .leaf rfl
  · exact hm.collapse

theorem alike_quoted (h : Below env a ⟨.quoted, s, t, parts⟩)
    (hf : language.Formed ⟨.quoted, s, t, parts⟩) : Alike env a ⟨.quoted, s, t, parts⟩ := by
  obtain ⟨block, rfl, hblock⟩ := shape_quoted hf
  have hblock' := agree_block (h.part (q := block) (by simp [Phrase.parts])) hblock
  refine Agree.of_ordinals (Agree.andThen hblock' fun m n ps hm => ?_) (List.append_nil _)
  obtain ⟨_, params, b, b', brace, rfl, rfl, hb⟩ := hm
  refine .pure ?_
  rw [List.append_nil]
  exact .quote hb

theorem alike_hole (h : Below env a ⟨.hole, s, t, parts⟩)
    (hf : language.Formed ⟨.hole, s, t, parts⟩) : Alike env a ⟨.hole, s, t, parts⟩ := by
  obtain ⟨⟨r, is, it, ps⟩, rfl, ⟨rfl, href⟩ | hexpr⟩ := shape_hole hf
  · obtain ⟨⟨r, ds, digits, qs⟩, rfl, -⟩ := shape_holeRef href
    exact agree_placeholderValue
  · have hinside : Alike env a ⟨r, is, it, ps⟩ := h.alike hf (by simp [Phrase.parts])
    obtain ⟨rfl, -⟩ | ⟨rfl, -⟩ := hexpr <;>
    · refine Agree.of_ordinals (Agree.map hinside fun m n ps hm => ?_) (List.append_nil _)
      exact .unquote hm

/-! ### Lines of operators and chains -/

/-- The phrases of an operand are read as an operand, whatever follows. -/
theorem agree_operand {js : List Nat} {more : List (Phrase Rule)}
    {Q : List Operand → List Operand → List Node → Prop} (hp : AreOperand ps)
    (h : ∀ p ∈ ps, Alike env a p)
    (hmore : Agree env.source a (env.operands more) ((env.anchorAt a).operands more) js Q) :
    Agree env.source a (env.operands (ps ++ more)) ((env.anchorAt a).operands (ps ++ more))
      (ordinalsAll ps ++ js) fun os os' ns => ∃ first first' rest rest' qs rs,
        os = first ++ rest ∧ os' = first' ++ rest' ∧ ns = qs ++ rs ∧
          SameOperand a first first' qs ∧ Q rest rest' rs := by
  induction hp with
  | @value p hp =>
    obtain ⟨r, s, t, parts⟩ := p
    obtain ⟨rfl, -⟩ := hp
    have hchain : Alike env a ⟨.chain, s, t, parts⟩ := h _ List.mem_cons_self
    refine Agree.of_ordinals (Agree.bind hchain fun m n qs hm => Agree.map hmore
      fun os os' rs hos => ?_) (by simp [ordinalsAll])
    exact ⟨[.value m], [.value n], os, os', qs, rs, rfl, rfl, rfl, .value hm, hos⟩
  | @sign p ps hp _ ih =>
    obtain ⟨r, s, t, parts⟩ := p
    have hrest := ih (List.forall_mem_cons.1 h).2
    obtain ⟨rfl, hp⟩ | ⟨rfl, hp⟩ := hp <;>
    · obtain rfl := parts_of_token hp rfl
      refine Agree.of_ordinals (Agree.map hrest fun os os' ns hos => ?_) rfl
      obtain ⟨first, first', rest, rest', qs, rs, rfl, rfl, rfl, hfirst, hQ⟩ := hos
      exact ⟨_ :: first, _ :: first', rest, rest', qs, rs, rfl, rfl, rfl, .sign hfirst, hQ⟩

/-- The phrases of a line are read as a line. -/
theorem agree_line (hp : AreLine ps) (h : ∀ p ∈ ps, Alike env a p) :
    Agree env.source a (env.operands ps) ((env.anchorAt a).operands ps) (ordinalsAll ps)
      (SameLine a) := by
  induction hp with
  | @one ps hp =>
    have hend : Agree env.source a (env.operands []) ((env.anchorAt a).operands []) []
        fun os os' ns => os = [] ∧ os' = [] ∧ ns = [] := .pure ⟨rfl, rfl, rfl⟩
    have hline := (agree_operand hp h hend).mono (Q := SameLine a) (by
      rintro _ _ _ ⟨first, first', rest, rest', qs, rs, rfl, rfl, rfl, hfirst, rfl, rfl, rfl⟩
      simpa using .one hfirst)
    simpa using hline
  | @more o ps qs hp ho _ ih =>
    obtain ⟨hps, hqs⟩ := List.forall_mem_append.1 h
    have hrest := ih (List.forall_mem_cons.1 hqs).2
    have hnone := ordinals_token ho rfl
    obtain ⟨r, s, t, parts⟩ := o
    obtain ⟨rfl, -⟩ := ho
    have hoperator : Agree env.source a (env.operands (⟨.infixOp, s, t, parts⟩ :: qs))
        ((env.anchorAt a).operands (⟨.infixOp, s, t, parts⟩ :: qs)) (ordinalsAll qs)
        fun os os' ns => ∃ rest rest', os = .operator t :: rest ∧ os' = .operator t :: rest' ∧
          SameLine a rest rest' ns :=
      .map hrest fun os os' ns hos => ⟨os, os', rfl, rfl, hos⟩
    refine Agree.of_ordinals ((agree_operand hp hps hoperator).mono ?_) (by
      rw [ordinalsAll_append, ordinalsAll, hnone, List.nil_append])
    rintro _ _ _ ⟨first, first', _, _, qs, rs, rfl, rfl, rfl, hfirst, rest, rest', rfl, rfl, hline⟩
    exact .more hfirst hline

theorem alike_binary (h : Below env a ⟨.binary, s, t, parts⟩)
    (hf : language.Formed ⟨.binary, s, t, parts⟩) : Alike env a ⟨.binary, s, t, parts⟩ := by
  have hline := agree_line (shape_binary hf) fun p hp => h.alike hf hp
  refine Agree.andThen hline fun os os' ps hos => ?_
  obtain ⟨m, n, hm, hn, hsame⟩ := hos.tree env.cover
  have hcover : (env.anchorAt a).cover = fun _ _ => a := rfl
  rw [hm, hcover, hn]
  exact .pure (by rwa [List.append_nil])

theorem agree_chain {m n : Node} {qs : List Node} (hall : ∀ p ∈ ps, Is .suffix p ∧ Below env a p)
    (hm : Same a m n qs) : Agree env.source a (env.chain m ps) ((env.anchorAt a).chain n ps)
      (ordinalsAll ps) fun m' n' rs => Same a m' n' (qs ++ rs) := by
  induction ps generalizing m n qs with
  | nil => exact .pure (by rwa [List.append_nil])
  | cons p ps ih =>
    obtain ⟨⟨hp, hbelow⟩, hps⟩ := List.forall_mem_cons.1 hall
    obtain ⟨r, s, t, parts⟩ := p
    obtain ⟨rfl, hf⟩ := hp
    obtain ⟨name, args, block, rfl, hname, hargs, hblock⟩ := shape_suffix hf
    have hnone := ordinals_token hname rfl
    have hparts (q : Phrase Rule) (hq : q ∈ args.toList ++ block.toList) :
        Below env a q ∧ Alike env a q :=
      ⟨hbelow.part (List.mem_cons_of_mem _ hq), hbelow.alike hf (List.mem_cons_of_mem _ hq)⟩
    have hordinals : ordinalsAll (⟨.suffix, s, t, name :: (args.toList ++ block.toList)⟩ :: ps) =
        ordinalsAll args.toList ++ (ordinalsAll block.toList ++ ordinalsAll ps) := by
      show ordinalsAll (name :: (args.toList ++ block.toList)) ++ ordinalsAll ps = _
      rw [ordinalsAll, hnone, ordinalsAll_append, List.nil_append, List.append_assoc]
    rw [hordinals]
    obtain ⟨r, ns, x, ps'⟩ := name
    -- the call that a suffix makes on what is before it
    have hcall {ms ms' : List Node} {b b' : Option Node} {rs rs' : List Node}
        (hms : SameAll a ms ms' rs) (hb : SameOpt a b b' rs') :
        Agree env.source a
          (env.chain ⟨env.cover m.span (env.place s), .call m x ms b⟩ ps)
          ((env.anchorAt a).chain ⟨a, .call n x ms' b'⟩ ps) (ordinalsAll ps)
          fun m' n' os => Same a m' n' (qs ++ (rs ++ (rs' ++ os))) :=
      (ih hps (Same.call hm hms hb)).mono fun m' n' os hsame => by simpa using hsame
    cases args with
    | none =>
      cases block with
      | none => exact Agree.of_ordinals (hcall .nil .none) (by simp [ordinalsAll])
      | some block =>
        have hb := (hparts block (by simp)).2
        obtain ⟨r', bs, bt, bp⟩ := block
        obtain ⟨rfl, -⟩ | ⟨rfl, -⟩ := hblock _ rfl <;>
        exact Agree.of_ordinals (Agree.bind hb fun b b' rs hsame => hcall .nil (.some hsame))
          (by simp [ordinalsAll])
    | some args =>
      obtain ⟨r', as, at', args⟩ := args
      obtain ⟨rfl, hargs⟩ := hargs _ rfl
      have hargs' := agree_parts (hparts ⟨.callArgs, as, at', args⟩ (by simp)).1 hargs
        (by simp [Phrase.rule])
      cases block with
      | none =>
        exact Agree.of_ordinals (Agree.bind hargs' fun ms ms' rs hms => hcall hms .none)
          (by simp [ordinalsAll])
      | some block =>
        have hb := (hparts block (by simp)).2
        exact Agree.of_ordinals (Agree.bind hargs' fun ms ms' rs hms => Agree.bind hb
          fun b b' rs' hsame => hcall hms (.some hsame)) (by simp [ordinalsAll])

theorem alike_chain (h : Below env a ⟨.chain, s, t, parts⟩)
    (hf : language.Formed ⟨.chain, s, t, parts⟩) : Alike env a ⟨.chain, s, t, parts⟩ := by
  obtain ⟨first, suffixes, rfl, -, hsuffixes⟩ := shape_chain hf
  have hfirst : Alike env a first := h.alike hf (by simp [Phrase.parts])
  exact Agree.bind hfirst fun m n qs hm => agree_chain (fun p hp =>
    ⟨hsuffixes p hp, h.part (List.mem_cons_of_mem _ hp)⟩) hm

/-! ### Conditionals and definitions -/

theorem agree_otherwise (hps : AreClauses ps) (h : ∀ p ∈ ps, Below env a p) :
    Agree env.source a (env.otherwise ps) ((env.anchorAt a).otherwise ps) (ordinalsAll ps)
      (SameOpt a) := by
  induction hps with
  | nil => exact .pure .none
  | @last p hp =>
    obtain ⟨r, s, t, parts⟩ := p
    obtain ⟨rfl, hf⟩ := hp
    obtain ⟨body, rfl, hbody⟩ := shape_elseClause hf
    have hbody' := agree_body ((h _ List.mem_cons_self).part (q := body) (by simp [Phrase.parts]))
      hbody
    obtain ⟨r, bs, bt, bp⟩ := body
    obtain ⟨rfl, -⟩ := hbody
    exact Agree.of_ordinals (Agree.map hbody' fun m n qs hm => .some hm.collapse)
      (show (ordinalsAll [_] ++ []) = _ by simp [ordinalsAll])
  | @cons p ps hp _ ih =>
    obtain ⟨r, s, t, parts⟩ := p
    obtain ⟨rfl, hf⟩ := hp
    obtain ⟨test, body, rfl, -, hbody⟩ := shape_elsifClause hf
    obtain ⟨hbelow, hps⟩ := List.forall_mem_cons.1 h
    have htest : Alike env a test := hbelow.alike hf (by simp [Phrase.parts])
    have hbody' := agree_body (hbelow.part (q := body) (by simp [Phrase.parts])) hbody
    refine Agree.of_ordinals (Agree.bind htest fun m n qs hm => Agree.bind hbody'
      fun m' n' rs hm' => Agree.map (ih hps) fun o o' os ho => ?_) ?_
    · exact .some (.cond hm hm'.collapse ho)
    · show ordinalsAll [_, _] ++ _ = _
      simp [ordinalsAll]

theorem alike_ifExpr (h : Below env a ⟨.ifExpr, s, t, parts⟩)
    (hf : language.Formed ⟨.ifExpr, s, t, parts⟩) : Alike env a ⟨.ifExpr, s, t, parts⟩ := by
  obtain ⟨test, body, clauses, rfl, -, hbody, hclauses⟩ := shape_ifExpr hf
  have htest : Alike env a test := h.alike hf (by simp [Phrase.parts])
  have hbody' := agree_body (h.part (q := body) (by simp [Phrase.parts])) hbody
  have hclauses' := agree_otherwise hclauses fun p hp => h.part (by simp [Phrase.parts, hp])
  exact Agree.bind htest fun m n qs hm => Agree.bind hbody' fun m' n' rs hm' =>
    Agree.map hclauses' fun o o' os ho => .cond hm hm'.collapse ho

theorem alike_classDef (h : Below env a ⟨.classDef, s, t, parts⟩)
    (hf : language.Formed ⟨.classDef, s, t, parts⟩) : Alike env a ⟨.classDef, s, t, parts⟩ := by
  obtain ⟨name, superclass, body, rfl, hname, hsuperclass, hbody⟩ := shape_classDef hf
  have hbody' : Alike env a body := h.alike hf (by simp [Phrase.parts])
  have hnone := ordinals_token hname rfl
  obtain ⟨r, ns, x, ps⟩ := name
  cases superclass with
  | none =>
    refine Agree.of_ordinals (Agree.map hbody' fun m n qs hm => .classDef hm)
      (show ordinalsAll [_, _] = _ by simp [ordinalsAll, hnone])
  | some superclass =>
    have hnone' := ordinals_token (hsuperclass _ rfl) rfl
    obtain ⟨r', ns', x', ps'⟩ := superclass
    refine Agree.of_ordinals (Agree.map hbody' fun m n qs hm => .classDef hm)
      (show ordinalsAll [_, _, _] = _ by simp [ordinalsAll, hnone, hnone'])

/-- The type and the default of a parameter. -/
theorem agree_parameter {sp sp' : Span} {x : String} {block : Bool}
    {type default : Option (Phrase Rule)} (htype : ∀ p ∈ type, Is .typeName p)
    (hdefault : ∀ p ∈ default, IsExpression p ∧ Alike env a p) :
    Agree env.source a (env.parameter sp x none block (type.toList ++ default.toList))
      ((env.anchorAt a).parameter sp' x none block (type.toList ++ default.toList))
      (ordinalsAll default.toList) fun p q ps => SameParams a [p] [q] ps := by
  have hrest (type : Option String) : Agree env.source a
      (env.parameter sp x type block default.toList)
      ((env.anchorAt a).parameter sp' x type block default.toList) (ordinalsAll default.toList)
      fun p q ps => SameParams a [p] [q] ps := by
    cases default with
    | none => exact .pure ⟨rfl, .nil⟩
    | some default =>
      obtain ⟨hexpr, halike⟩ := hdefault _ rfl
      obtain ⟨r, s, t, parts⟩ := default
      obtain ⟨rfl, -⟩ | ⟨rfl, -⟩ := hexpr <;>
      · refine Agree.of_ordinals (Agree.map halike fun m n ps hm => ?_) (List.append_nil _)
        exact ⟨by simp only [Node.unplacedParams, Node.unplacedOpt, hm.1], .single hm.2⟩
  cases type with
  | none => exact hrest none
  | some type =>
    obtain ⟨r, s, t, parts⟩ := type
    obtain ⟨rfl, -⟩ := htype _ rfl
    exact hrest (some t)

theorem SameParams.cons {x y : Parameter} {xs ys : List Parameter} {ns ms : List Node}
    (h : SameParams a [x] [y] ns) (hs : SameParams a xs ys ms) :
    SameParams a (x :: xs) (y :: ys) (ns ++ ms) := by
  obtain ⟨n, t, d, k⟩ := x
  obtain ⟨n', t', d', k'⟩ := y
  refine ⟨?_, ?_⟩
  · have hfirst := h.1
    simp only [Node.unplacedParams, List.cons.injEq, and_true] at hfirst ⊢
    exact ⟨hfirst, hs.1⟩
  · have happend := h.2.append hs.2
    rwa [← List.filterMap_append] at happend

theorem agree_parameters (hps : ∀ p ∈ ps, Is .param p ∧ Below env a p) :
    Agree env.source a (env.parameters ps) ((env.anchorAt a).parameters ps) (ordinalsAll ps)
      (SameParams a) := by
  induction ps with
  | nil => exact .pure ⟨rfl, .nil⟩
  | cons p ps ih =>
    obtain ⟨⟨hp, hbelow⟩, hrest⟩ := List.forall_mem_cons.1 hps
    obtain ⟨r, s, t, parts⟩ := p
    obtain ⟨rfl, hf⟩ := hp
    obtain ⟨marker, name, type, default, rfl, hmarker, hname, htype, hdefault⟩ := shape_param hf
    have hnone := ordinals_token hname rfl
    have hdefault' : ∀ p ∈ default, IsExpression p ∧ Alike env a p := fun p hp =>
      ⟨hdefault p hp, hbelow.alike hf (by simp [Phrase.parts, Option.mem_def.1 hp])⟩
    have hordinals : ordinalsAll (⟨.param, s, t, marker.toList ++ name ::
        (type.toList ++ default.toList)⟩ :: ps) = ordinalsAll default.toList ++ ordinalsAll ps := by
      show ordinalsAll (marker.toList ++ name :: (type.toList ++ default.toList)) ++ _ = _
      have hmarker' : ordinalsAll marker.toList = [] := ordinalsAll_eq_nil fun q hq => by
        obtain ⟨r, qs, qt, qp⟩ := q
        obtain ⟨rfl, hq⟩ := hmarker _ (Option.mem_toList.1 hq)
        obtain rfl := shape_blockMarker hq
        rfl
      have htype' : ordinalsAll type.toList = [] := ordinalsAll_eq_nil fun q hq =>
        ordinals_token (htype q (Option.mem_toList.1 hq)) rfl
      rw [ordinalsAll_append, hmarker', ordinalsAll, hnone, ordinalsAll_append, htype']
      rfl
    rw [hordinals]
    obtain ⟨r, ns, x, np⟩ := name
    obtain ⟨rfl, -⟩ := hname
    cases marker with
    | none =>
      exact Agree.bind (agree_parameter htype hdefault') fun p q qs hp =>
        Agree.map (ih hrest) fun xs ys rs hxs => hp.cons hxs
    | some marker =>
      obtain ⟨r, ms, mt, mp⟩ := marker
      obtain ⟨rfl, -⟩ := hmarker _ rfl
      exact Agree.bind (agree_parameter htype hdefault') fun p q qs hp =>
        Agree.map (ih hrest) fun xs ys rs hxs => hp.cons hxs

/-- The result type and the body of a method. -/
theorem agree_method (sp : Span) (x : String) {xs ys : List Parameter} {qs : List Node}
    {returns : Option (Phrase Rule)} (hxs : SameParams a xs ys qs)
    (hreturns : ∀ p ∈ returns, Is .returnType p) (hbody : Is .body body) (hb : Alike env a body) :
    Agree env.source a (env.method sp x xs none (returns.toList ++ [body]))
      ((env.anchorAt a).method a x ys none (returns.toList ++ [body])) body.ordinals
      fun m n ps => Same a m n (qs ++ ps) := by
  obtain ⟨r, bs, bt, bp⟩ := body
  obtain ⟨rfl, -⟩ := hbody
  cases returns with
  | none => exact .map hb fun m n ps hm => .methodDef hxs hm
  | some returns =>
    obtain ⟨r, s, t, parts⟩ := returns
    obtain ⟨rfl, hf⟩ := hreturns _ rfl
    obtain ⟨⟨r, ts, type, tp⟩, rfl, -⟩ := shape_returnType hf
    exact .map hb fun m n ps hm => .methodDef hxs hm

theorem alike_methodDef (h : Below env a ⟨.methodDef, s, t, parts⟩)
    (hf : language.Formed ⟨.methodDef, s, t, parts⟩) : Alike env a ⟨.methodDef, s, t, parts⟩ := by
  obtain ⟨name, params, returns, body, rfl, hname, hparams, hreturns, hbody⟩ := shape_methodDef hf
  have hbody' : Alike env a body := h.alike hf (by simp [Phrase.parts])
  have hnone := ordinals_token hname rfl
  have hordinals :
      ordinals ⟨.methodDef, s, t, name :: (params.toList ++ (returns.toList ++ [body]))⟩ =
        ordinalsAll params.toList ++ body.ordinals := by
    show ordinalsAll (name :: (params.toList ++ (returns.toList ++ [body]))) = _
    have hreturns' : ordinalsAll returns.toList = [] := ordinalsAll_eq_nil fun q hq => by
      obtain ⟨r, qs, qt, qp⟩ := q
      obtain ⟨rfl, hq⟩ := hreturns _ (Option.mem_toList.1 hq)
      obtain ⟨type, rfl, htype⟩ := shape_returnType hq
      exact ordinalsAll_eq_nil (by simpa using ordinals_token htype rfl)
    rw [ordinalsAll, hnone, ordinalsAll_append, ordinalsAll_append, hreturns']
    simp [ordinalsAll]
  rw [Alike, hordinals]
  have hbelow (q : Phrase Rule) (hq : q ∈ params) : Below env a q :=
    h.part (by simp [Phrase.parts, Option.mem_def.1 hq])
  obtain ⟨r, ns, x, np⟩ := name
  cases params with
  | none =>
    have hnil : SameParams a [] [] [] := ⟨rfl, .nil⟩
    have hmethod := agree_method (env.place s) x hnil hreturns hbody hbody'
    exact hmethod
  | some params =>
    have hps := hbelow params rfl
    obtain ⟨r, ps, pt, parts⟩ := params
    obtain ⟨rfl, hf'⟩ := hparams _ rfl
    have hall : ∀ p ∈ parts, Is .param p ∧ Below env a p := fun p hp =>
      ⟨shape_paramList hf' p hp, hps.part hp⟩
    have hxs := agree_parameters hall
    have hmethod := Agree.bind hxs fun xs ys qs hxs =>
      agree_method (env.place s) x hxs hreturns hbody hbody'
    refine Agree.of_ordinals hmethod ?_
    simp [ordinalsAll, ordinals]

/-! ### All phrases -/

/-- Every phrase that the grammar leaves is read alike with an anchor. -/
theorem agree_node (env : Reading) (a : Span) : ∀ p, language.Formed p → Alike env a p := by
  suffices hall : ∀ k p, sizeOf p < k → language.Formed p → Alike env a p from
    fun p => hall _ p (Nat.lt_succ_self _)
  intro k
  induction k with
  | zero => exact fun p hlt => absurd hlt (Nat.not_lt_zero _)
  | succ k ih =>
    intro p hlt hf
    have hbelow : Below env a p := fun q hq => ih q (by omega)
    obtain ⟨r, s, t, parts⟩ := p
    cases r
    case body => exact (agree_body hbelow ⟨rfl, hf⟩).mono fun _ _ _ hm => hm.same
    case assignment => exact alike_assignment hbelow hf
    case ternary => exact alike_ternary hbelow hf
    case binary => exact alike_binary hbelow hf
    case chain => exact alike_chain hbelow hf
    case functionCall => exact alike_functionCall hbelow hf
    case command => exact alike_command hbelow hf
    case blockArg => exact alike_blockArg hf
    case braceBlock => exact (agree_block hbelow (.inl ⟨rfl, hf⟩)).mono fun _ _ _ hm => hm.same
    case doBlock => exact (agree_block hbelow (.inr ⟨rfl, hf⟩)).mono fun _ _ _ hm => hm.same
    case parenthesized => exact alike_parenthesized hbelow hf
    case quoted => exact alike_quoted hbelow hf
    case hole => exact alike_hole hbelow hf
    case ifExpr => exact alike_ifExpr hbelow hf
    case classDef => exact alike_classDef hbelow hf
    case methodDef => exact alike_methodDef hbelow hf
    case integer =>
      obtain rfl := parts_of_token hf rfl
      exact agree_integer
    case string =>
      obtain ⟨⟨r, is, it, ip⟩, rfl, hinside⟩ := shape_string hf
      refine Agree.of_ordinals (Agree.pure (.leaf rfl)) ?_
      exact ordinalsAll_eq_nil (by simpa using ordinals_token hinside rfl)
    case float | kwTrue | kwFalse | kwNil | kwSelf | name | field | constant =>
      obtain rfl := parts_of_token hf rfl
      exact Agree.pure (.leaf rfl)
    all_goals exact agree_malformed

end Phrases

/-! ### Texts -/

/-- The ordinals of the placeholders in a text, in source order. -/
def ordinalsOf (text : String) : List Nat :=
  match language.read .program text with
  | .ok p => p.ordinals
  | .error _ => []

/-- Every text is read alike with an anchor. -/
theorem agree_program (env : Reading) (a : Span) (text : String) : Agree env.source a
    (env.program text) ((env.anchorAt a).program text) (ordinalsOf text) (Same a) := by
  unfold program ordinalsOf
  cases hread : language.read .program text with
  | error p => exact .throw _
  | ok p =>
    obtain ⟨r, s, t, parts⟩ := p
    obtain ⟨rfl, hf⟩ := Grammar.formed_of_read rfl hread
    obtain ⟨body, rfl, hbody⟩ := shape_program hf
    exact Agree.of_ordinals (agree_node env a body hbody.formed) (List.append_nil _)

/-- An anchor changes places only.  A text is read with an anchor exactly if it is read without,
    and the template scopes are used alike.  A failure is the same one, reported at the anchor.  A
    tree is the same up to its spans: all nodes of the text stand at the anchor, around the values
    that its placeholders stand for, which are as they were given. -/
theorem anchor_places (source text : String) (resolves : Bool) (a : Span) (scopes : Scopes Node) :
    let free := (program { source, resolves } text).run scopes
    let fixed := (program { source, anchor := some a, resolves } text).run scopes
    fixed.2 = free.2 ∧ fixed.1.isOk = free.1.isOk ∧
    (∀ d, free.1 = .error d → fixed.1 = .error (d.reanchor a source)) ∧
    ∀ t, free.1 = .ok t → ∃ t' vs ps, fixed.1 = .ok t' ∧ t'.unplaced = t.unplaced ∧
      List.Forall₂ (fun i v => scopes.values[i]? = some v) (ordinalsOf text) vs ∧ Cut vs ps ∧
      Spliced a t' ps := by
  intro free fixed
  have hends : Ends source a scopes.values (ordinalsOf text) (Same a) free fixed :=
    agree_program { source, resolves } a text scopes
  revert hends
  rcases free with ⟨d | t, s⟩ <;> rcases fixed with ⟨d' | t', s'⟩ <;> intro hends
  case error.error =>
    obtain ⟨rfl, rfl⟩ := hends
    exact ⟨rfl, rfl, fun _ hd => by cases hd; rfl, nofun⟩
  case ok.ok =>
    obtain ⟨rfl, -, vs, ps, hvs, hcut, hunplaced, hspliced⟩ := hends
    refine ⟨rfl, rfl, nofun, fun _ ht => ?_⟩
    cases ht
    exact ⟨t', vs, ps, rfl, hunplaced.symm, hvs, hcut, hspliced⟩
  all_goals exact hends.elim

/-- A sum of a value and a number of the text. -/
theorem anchor_places_sum :
    let v : Node := ⟨⟨40, 41⟩, .int 7⟩
    ∃ t', ((program { source := "t", anchor := some ⟨3, 9⟩, resolves := true } "`$0` + 1").run
      [.inject [v] [false]]).1 = .ok t' ∧ Spliced ⟨3, 9⟩ t' [v] := by
  intro v
  obtain ⟨-, -, -, hread⟩ := anchor_places "t" "`$0` + 1" true ⟨3, 9⟩ [.inject [v] [false]]
  have hok : ((program { source := "t", resolves := true } "`$0` + 1").run
      [.inject [v] [false]]).1.isOk = true := by decide +kernel
  have hordinals : ordinalsOf "`$0` + 1" = [0] := by decide +kernel
  rcases hfree : ((program { source := "t", resolves := true } "`$0` + 1").run
      [.inject [v] [false]]).1 with d | t
  · rw [hfree] at hok
    cases hok
  · obtain ⟨t', vs, ps, ht', -, hvs, hcut, hspliced⟩ := hread t hfree
    rw [hordinals] at hvs
    obtain _ | ⟨hv, hnil⟩ := hvs
    cases hnil
    cases hv
    cases hcut with
    | whole _ hrest =>
      cases hrest
      exact ⟨t', ht', hspliced⟩
    | split htake _ => cases htake

end Reading

end Quasiquote
