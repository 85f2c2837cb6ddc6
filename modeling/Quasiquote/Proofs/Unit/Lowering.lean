import Mathlib.Data.List.Forall2
import Quasiquote.Unit.Lowering
import Quasiquote.Proofs.Node.Unquoted
import Quasiquote.Proofs.Template.Holes

namespace Quasiquote

/-!
# Lowering — trees without quotes

Lowering a tree takes its quotes away and nothing else.  A quote becomes a call that is given the
text of the template and the lowered values of its holes.  Every other node stays what it is, around
its lowered parts.

* `Node.templateText_eq` — the text of a template, whatever scopes are around it;
* `Node.lowerHoles_eq` — the values that are handed on are those of the holes;
* `Node.code_induction` — induction along a tree, which passes through quotes by their holes;
* `Node.Lowered` — what a tree is lowered to;
* `Node.exists_lowered` — lowering never fails, and leaves the scopes around it alone;
* `Node.lower_removes_quotes` — it takes all quotes away and nothing else.
-/

namespace Node

/-! ### Texts and holes -/

/-- The text of a template that is printed in a scope of its own. -/
theorem templateText_eq (label : String) (s : Span) (body : Node) :
    templateText label s body = pure (body.refill (ordinals body.holes.length)).print := by
  refine funext fun scopes => ?_
  show (match (Scopes.extract body.printTemplate.run).run scopes with
    | ((text, _), scopes) => (text.mapError _, scopes)) = _
  rw [extract_printTemplate]
  rfl

/-- The text of a quote without holes is that of its tree. -/
theorem templateText_of_holes_nil {body : Node} (h : body.holes = []) (label : String) (s : Span) :
    templateText label s body = pure body.print := by
  have hrefill : body.refill [] = body := h ▸ refill_holes.1 body
  rw [templateText_eq, h]
  exact congrArg (fun n : Node => pure n.print) hrefill

theorem lowerList_append (label : String) (ns ms : List Node) :
    lowerList label (ns ++ ms) = do
      let ns ← lowerList label ns
      let ms ← lowerList label ms
      return ns ++ ms := by
  induction ns with
  | nil => simp [lowerList]
  | cons n ns ih => simp [lowerList, ih]

mutual

/-- Lowering a quote lowers the values of its holes. -/
theorem lowerHoles_eq (label : String) :
    ∀ n : Node, lowerHoles label n = lowerList label (holes n)
  | ⟨_, .unquote v⟩ => by simp [lowerHoles, holes, lowerList]
  | ⟨_, .assign _ v⟩ | ⟨_, .fieldAssign _ v⟩ => lowerHoles_eq label v
  | ⟨_, .call target _ args block⟩ => by
    simp [lowerHoles, holes, lowerList_append, lowerHoles_eq label target,
      lowerHolesList_eq label args, lowerHolesOpt_eq label block]
  | ⟨_, .invoke _ args block⟩ => by
    simp [lowerHoles, holes, lowerList_append, lowerHolesList_eq label args,
      lowerHolesOpt_eq label block]
  | ⟨_, .cond test yes no⟩ => by
    simp [lowerHoles, holes, lowerList_append, lowerHoles_eq label test, lowerHoles_eq label yes,
      lowerHolesOpt_eq label no]
  | ⟨_, .body items⟩ => lowerHolesList_eq label items
  | ⟨_, .block _ body _⟩ | ⟨_, .classDef _ _ body⟩ => lowerHoles_eq label body
  | ⟨_, .methodDef _ params _ body⟩ => by
    simp [lowerHoles, holes, lowerList_append, lowerHolesParams_eq label params,
      lowerHoles_eq label body]
  | ⟨_, .macroDef _ args body _⟩ => by
    simp [lowerHoles, holes, lowerList_append, lowerHolesArgs_eq label args,
      lowerHoles_eq label body]
  | ⟨_, .int _⟩ | ⟨_, .float _⟩ | ⟨_, .str _⟩ | ⟨_, .bool _⟩ | ⟨_, .nil⟩ | ⟨_, .self⟩
  | ⟨_, .ident _⟩ | ⟨_, .field _⟩ | ⟨_, .constant _⟩ | ⟨_, .blockArgument _ _⟩ | ⟨_, .quote _⟩
  | ⟨_, .noop⟩ | ⟨_, .error _⟩ => rfl

theorem lowerHolesList_eq (label : String) :
    ∀ ns : List Node, lowerHolesList label ns = lowerList label (holesAll ns)
  | [] => rfl
  | n :: ns => by
    simp [lowerHolesList, holesAll, lowerList_append, lowerHoles_eq label n,
      lowerHolesList_eq label ns]

theorem lowerHolesOpt_eq (label : String) :
    ∀ n : Option Node, lowerHolesOpt label n = lowerList label (holesOpt n)
  | none => rfl
  | some n => lowerHoles_eq label n

theorem lowerHolesParams_eq (label : String) :
    ∀ ps : List Parameter, lowerHolesParams label ps = lowerList label (holesParams ps)
  | [] => rfl
  | ⟨_, _, default, _⟩ :: ps => by
    simp [lowerHolesParams, holesParams, lowerList_append, lowerHolesOpt_eq label default,
      lowerHolesParams_eq label ps]

theorem lowerHolesArgs_eq (label : String) :
    ∀ args : List Argument, lowerHolesArgs label args = lowerList label (holesArgs args)
  | [] => rfl
  | .required _ :: args => lowerHolesArgs_eq label args
  | .optional _ default :: args => by
    simp [lowerHolesArgs, holesArgs, lowerList_append, lowerHoles_eq label default,
      lowerHolesArgs_eq label args]
  | .block _ _ :: args => lowerHolesArgs_eq label args

end

/-! ### Induction along the code of a tree -/

/-- The values of holes are smaller than the tree. -/
theorem sizeOf_holes :
    (∀ n, ∀ v ∈ holes n, sizeOf v < sizeOf n) ∧
    (∀ args, ∀ v ∈ holesArgs args, sizeOf v < sizeOf args) ∧
    (∀ ps, ∀ v ∈ holesParams ps, sizeOf v < sizeOf ps) ∧
    (∀ n, ∀ v ∈ holesOpt n, sizeOf v < sizeOf n) ∧
    (∀ ns, ∀ v ∈ holesAll ns, sizeOf v < sizeOf ns) := by
  apply holes.mutual_induct
  all_goals intros
  all_goals simp_all [holes, holesAll, holesOpt, holesParams, holesArgs]
  all_goals grind

/-- The parts of a node are smaller than the node. -/
theorem sizeOf_children {n c : Node} (hc : c ∈ n.children) : sizeOf c < sizeOf n := by
  have hlist {ns : List Node} (h : c ∈ ns) : sizeOf c < sizeOf ns := List.sizeOf_lt_of_mem h
  have hopt {n : Option Node} (h : n = some c) : sizeOf c < sizeOf n := by
    subst h
    simp
  have hparams {ps : List Parameter} {p : Parameter} (hp : p ∈ ps) (hd : p.default = some c) :
      sizeOf c < sizeOf ps := by
    obtain ⟨name, type, default, block⟩ := p
    have hps := List.sizeOf_lt_of_mem hp
    have hdefault := hopt hd
    simp at hps hdefault
    omega
  obtain ⟨s, f⟩ := n
  cases f <;> simp [children] at hc
  all_goals simp
  all_goals grind

/-- Induction along a tree, where a quote is passed through by the values of its holes. -/
theorem code_induction {P : Node → Prop}
    (quote : ∀ s body, (∀ v ∈ body.holes, P v) → P ⟨s, .quote body⟩)
    (other : ∀ n, n.form.isQuote = false → (∀ c ∈ n.children, P c) → P n) (n : Node) : P n := by
  induction hsize : sizeOf n using Nat.strongRecOn generalizing n with
  | ind size ih =>
    subst hsize
    cases hq : n.form.isQuote with
    | false => exact other n hq fun c hc => ih _ (sizeOf_children hc) c rfl
    | true =>
      obtain ⟨s, f⟩ := n
      cases f
      case quote body =>
        refine quote s body fun v hv => ih _ ?_ v rfl
        exact Nat.lt_trans (sizeOf_holes.1 body v hv) (sizeOf_children List.mem_cons_self)
      all_goals cases hq

/-! ### What a tree is lowered to -/

/-- What stands in the place of a part that is not looked at. -/
def hollow : Node := ⟨Span.zero, .noop⟩

/-- A parameter without its default. -/
def shellParam : Parameter → Parameter
  | ⟨name, type, default, block⟩ => ⟨name, type, default.map fun _ => hollow, block⟩

/-- A node without its parts: its place, its kind, its names and marks, and how many parts it has
    where. -/
def shell : Node → Node
  | ⟨s, .assign name _⟩ => ⟨s, .assign name hollow⟩
  | ⟨s, .fieldAssign name _⟩ => ⟨s, .fieldAssign name hollow⟩
  | ⟨s, .call _ name args block⟩ =>
    ⟨s, .call hollow name (args.map fun _ => hollow) (block.map fun _ => hollow)⟩
  | ⟨s, .invoke name args block⟩ =>
    ⟨s, .invoke name (args.map fun _ => hollow) (block.map fun _ => hollow)⟩
  | ⟨s, .cond _ _ no⟩ => ⟨s, .cond hollow hollow (no.map fun _ => hollow)⟩
  | ⟨s, .body items⟩ => ⟨s, .body (items.map fun _ => hollow)⟩
  | ⟨s, .block params _ brace⟩ => ⟨s, .block params hollow brace⟩
  | ⟨s, .classDef name superclass _⟩ => ⟨s, .classDef name superclass hollow⟩
  | ⟨s, .methodDef name params returns _⟩ =>
    ⟨s, .methodDef name (params.map shellParam) returns hollow⟩
  | ⟨s, .quote _⟩ => ⟨s, .quote hollow⟩
  | ⟨s, .unquote _⟩ => ⟨s, .unquote hollow⟩
  | n => n

/-- What a tree is lowered to.  A quote becomes a call that is given its text and what the values of
    its holes are lowered to.  Any other node keeps everything but its parts, which are lowered. -/
inductive Lowered (label : String) : Node → Node → Prop
  | quote {s : Span} {body : Node} {text : String} {hs : List Node}
      (htext : ∀ scopes, (Scopes.extract body.printTemplate.run).run scopes =
        ((.ok text, body.holes), scopes))
      (hholes : List.Forall₂ (Lowered label) body.holes hs) :
      Lowered label ⟨s, .quote body⟩ (quoteCall s text label hs)
  | other {n n' : Node} (hn : n.form.isQuote = false) (hshell : n'.shell = n.shell)
      (hparts : List.Forall₂ (Lowered label) n.children n'.children) : Lowered label n n'

section Parts

variable {label : String} {R : Node → Node → Prop}

theorem exists_lowerList {ns : List Node}
    (h : ∀ n ∈ ns, ∃ n', lower label n = pure n' ∧ R n n') :
    ∃ ns', lowerList label ns = pure ns' ∧
      (ns'.map fun _ => hollow) = (ns.map fun _ => hollow) ∧ List.Forall₂ R ns ns' := by
  induction ns with
  | nil => exact ⟨[], rfl, rfl, .nil⟩
  | cons n ns ih =>
    obtain ⟨⟨n', hn, hrel⟩, hns⟩ := List.forall_mem_cons.1 h
    obtain ⟨ns', hlower, hshell, hrels⟩ := ih hns
    exact ⟨n' :: ns', by simp [lowerList, hn, hlower], congrArg (hollow :: ·) hshell,
      .cons hrel hrels⟩

theorem exists_lowerOpt {n : Option Node}
    (h : ∀ c ∈ n.toList, ∃ c', lower label c = pure c' ∧ R c c') :
    ∃ n', lowerOpt label n = pure n' ∧
      (n'.map fun _ => hollow) = (n.map fun _ => hollow) ∧
        List.Forall₂ R n.toList n'.toList := by
  cases n with
  | none => exact ⟨none, rfl, rfl, .nil⟩
  | some n =>
    obtain ⟨n', hn, hrel⟩ := h n List.mem_cons_self
    exact ⟨some n', by simp [lowerOpt, hn], rfl, .cons hrel .nil⟩

theorem exists_lowerParams {ps : List Parameter}
    (h : ∀ c ∈ ps.filterMap Parameter.default, ∃ c', lower label c = pure c' ∧ R c c') :
    ∃ ps', lowerParams label ps = pure ps' ∧ ps'.map shellParam = ps.map shellParam ∧
      List.Forall₂ R (ps.filterMap Parameter.default) (ps'.filterMap Parameter.default) := by
  induction ps with
  | nil => exact ⟨[], rfl, rfl, .nil⟩
  | cons p ps ih =>
    obtain ⟨name, type, default, block⟩ := p
    have hdefaults (ps : List Parameter) (default : Option Node) :
        (Parameter.mk name type default block :: ps).filterMap Parameter.default =
          default.toList ++ ps.filterMap Parameter.default := by
      cases default <;> simp [List.filterMap_cons]
    rw [hdefaults] at h ⊢
    obtain ⟨hdefault, hps⟩ := List.forall_mem_append.1 h
    obtain ⟨default', hd, hhollow, hrel⟩ := exists_lowerOpt hdefault
    obtain ⟨ps', hlower, hshell, hrels⟩ := ih hps
    refine ⟨⟨name, type, default', block⟩ :: ps', by simp [lowerParams, hd, hlower], ?_, ?_⟩
    · simp [shellParam, hhollow, hshell]
    · rw [hdefaults]
      exact List.rel_append hrel hrels

end Parts

/-- Lowering never fails, whatever scopes are around it, and leaves them alone. -/
theorem exists_lowered (label : String) (n : Node) :
    ∃ n', lower label n = pure n' ∧ Lowered label n n' := by
  induction n using code_induction with
  | quote s body ih =>
    obtain ⟨hs, hlower, -, hrel⟩ := exists_lowerList ih
    refine ⟨quoteCall s _ label hs, ?_, .quote (extract_printTemplate body) hrel⟩
    simp [lower, templateText_eq, lowerHoles_eq, hlower]
  | other n hn ih =>
    obtain ⟨s, f⟩ := n
    cases f
    case quote body => cases hn
    case assign name v =>
      obtain ⟨v', hv, hrel⟩ := ih v List.mem_cons_self
      exact ⟨⟨s, .assign name v'⟩, by simp [lower, hv], .other rfl rfl (.cons hrel .nil)⟩
    case fieldAssign name v =>
      obtain ⟨v', hv, hrel⟩ := ih v List.mem_cons_self
      exact ⟨⟨s, .fieldAssign name v'⟩, by simp [lower, hv], .other rfl rfl (.cons hrel .nil)⟩
    case unquote v =>
      obtain ⟨v', hv, hrel⟩ := ih v List.mem_cons_self
      exact ⟨⟨s, .unquote v'⟩, by simp [lower, hv], .other rfl rfl (.cons hrel .nil)⟩
    case block params body brace =>
      obtain ⟨body', hbody, hrel⟩ := ih body List.mem_cons_self
      exact ⟨⟨s, .block params body' brace⟩, by simp [lower, hbody],
        .other rfl rfl (.cons hrel .nil)⟩
    case classDef name superclass body =>
      obtain ⟨body', hbody, hrel⟩ := ih body List.mem_cons_self
      exact ⟨⟨s, .classDef name superclass body'⟩, by simp [lower, hbody],
        .other rfl rfl (.cons hrel .nil)⟩
    case body items =>
      have hparts : ∀ c ∈ items, ∃ c', lower label c = pure c' ∧ Lowered label c c' := ih
      obtain ⟨items', hitems, hhollow, hrel⟩ := exists_lowerList hparts
      exact ⟨⟨s, .body items'⟩, by simp [lower, hitems],
        .other rfl (by simp only [shell, hhollow]) hrel⟩
    case call target name args block =>
      obtain ⟨⟨target', htarget, hrel⟩, hrest⟩ := List.forall_mem_cons.1 ih
      obtain ⟨hargs, hblock⟩ := List.forall_mem_append.1 hrest
      obtain ⟨args', hargs', hhollow, hrels⟩ := exists_lowerList hargs
      obtain ⟨block', hblock', hhollow', hrel'⟩ := exists_lowerOpt hblock
      exact ⟨⟨s, .call target' name args' block'⟩, by simp [lower, htarget, hargs', hblock'],
        .other rfl (by simp only [shell, hhollow, hhollow'])
          (.cons hrel (List.rel_append hrels hrel'))⟩
    case invoke name args block =>
      obtain ⟨hargs, hblock⟩ := List.forall_mem_append.1 ih
      obtain ⟨args', hargs', hhollow, hrels⟩ := exists_lowerList hargs
      obtain ⟨block', hblock', hhollow', hrel'⟩ := exists_lowerOpt hblock
      exact ⟨⟨s, .invoke name args' block'⟩, by simp [lower, hargs', hblock'],
        .other rfl (by simp only [shell, hhollow, hhollow']) (List.rel_append hrels hrel')⟩
    case cond test yes no =>
      obtain ⟨⟨test', htest, hrel⟩, hrest⟩ := List.forall_mem_cons.1 ih
      obtain ⟨⟨yes', hyes, hrel'⟩, hno⟩ := List.forall_mem_cons.1 hrest
      obtain ⟨no', hno', hhollow, hrels⟩ := exists_lowerOpt hno
      exact ⟨⟨s, .cond test' yes' no'⟩, by simp [lower, htest, hyes, hno'],
        .other rfl (by simp only [shell, hhollow]) (.cons hrel (.cons hrel' hrels))⟩
    case methodDef name params returns body =>
      obtain ⟨hparams, hbody⟩ := List.forall_mem_append.1 ih
      obtain ⟨params', hparams', hshell, hrels⟩ := exists_lowerParams hparams
      obtain ⟨body', hbody', hrel⟩ := hbody body List.mem_cons_self
      exact ⟨⟨s, .methodDef name params' returns body'⟩, by simp [lower, hparams', hbody'],
        .other rfl (by simp only [shell, hshell]) (List.rel_append hrels (.cons hrel .nil))⟩
    -- what has no parts is left as it is
    all_goals exact ⟨_, rfl, .other rfl rfl .nil⟩

/-! ### No quotes are left -/

/-- The values of the holes of a tree without macro definitions have none either. -/
theorem MacroFree.of_mem_holes {n v : Node} (h : n.MacroFree) (hv : v ∈ n.holes) :
    v.MacroFree := by
  induction hsize : sizeOf n using Nat.strongRecOn generalizing n with
  | ind size ih =>
    subst hsize
    by_cases hform : (∃ body, n.form = .quote body) ∨ ∃ v, n.form = .unquote v
    · obtain ⟨s, f⟩ := n
      obtain ⟨body, rfl⟩ | ⟨w, rfl⟩ := hform
      · cases hv
      · obtain rfl : v = w := List.mem_singleton.1 hv
        exact (every_unquote.1 h).2
    · rw [not_or, not_exists, not_exists] at hform
      rw [holes_eq hform.1 hform.2 fun name args body id hn => nomatch hn ▸ h.self] at hv
      obtain ⟨c, hc, hv⟩ := List.mem_flatMap.1 hv
      exact ih _ (sizeOf_children hc) (h.child hc) hv rfl

theorem isQuote_shell (n : Node) : n.shell.form.isQuote = n.form.isQuote := by
  obtain ⟨s, f⟩ := n
  cases f <;> rfl

theorem isMacroDef_shell (n : Node) : n.shell.form.isMacroDef = n.form.isMacroDef := by
  obtain ⟨s, f⟩ := n
  cases f <;> rfl

/-- What stands in a list that another one is related to has something in that one. -/
theorem exists_of_mem {R : Node → Node → Prop} {ns ns' : List Node} (h : List.Forall₂ R ns ns')
    {n' : Node} (hn' : n' ∈ ns') : ∃ n ∈ ns, R n n' := by
  induction h with
  | nil => cases hn'
  | cons hrel _ ih =>
    obtain rfl | hmem := List.mem_cons.1 hn'
    · exact ⟨_, List.mem_cons_self, hrel⟩
    · obtain ⟨n, hn, hrel'⟩ := ih hmem
      exact ⟨n, List.mem_cons_of_mem _ hn, hrel'⟩

/-- What a tree without macro definitions is lowered to has no quotes. -/
theorem Lowered.every {label : String} {n n' : Node} (h : Lowered label n n') (hn : n.MacroFree) :
    n'.Every fun m => m.form.isQuote = false := by
  induction n using code_induction generalizing n' with
  | quote s body ih =>
    cases h with
    | other hq => cases hq
    | @quote _ _ text hs _ hholes =>
      have hvalues : ∀ h ∈ hs, h.Every fun m => m.form.isQuote = false := by
        intro h hh
        obtain ⟨v, hv, hrel⟩ := exists_of_mem hholes hh
        exact ih v hv hrel (MacroFree.of_mem_holes (every_quote.1 hn).2 hv)
      rw [quoteCall, every_call, List.forall_mem_cons, List.forall_mem_cons]
      exact ⟨rfl, every_field.2 rfl, ⟨every_str.2 rfl, every_str.2 rfl, hvalues⟩, nofun⟩
  | other n hq ih =>
    cases h with
    | quote => cases hq
    | other _ hshell hparts =>
      have hdef : n'.form.isMacroDef = false := by
        rw [← isMacroDef_shell, hshell, isMacroDef_shell]
        exact hn.self
      rw [every_iff, parts_eq hdef]
      refine ⟨?_, fun c' hc' => ?_⟩
      · rw [← isQuote_shell, hshell, isQuote_shell]
        exact hq
      · obtain ⟨c, hc, hrel⟩ := exists_of_mem hparts hc'
        exact ih c hc hrel (hn.child hc)

/-- **Theorem.** Lowering a tree without macro definitions never fails and leaves the scopes around
    it alone.  Every quote becomes a call that is given its text and the lowered values of its
    holes, every other node keeps its place and its kind around its lowered parts, and no quote is
    left at any depth. -/
theorem lower_removes_quotes (label : String) (n : Node) (h : n.MacroFree) :
    ∃ n', (∀ scopes, (lower label n).run scopes = (.ok n', scopes)) ∧ Lowered label n n' ∧
      n'.Every fun m => m.form.isQuote = false := by
  obtain ⟨n', hlower, hrel⟩ := exists_lowered label n
  exact ⟨n', fun scopes => by rw [hlower]; rfl, hrel, hrel.every h⟩

/-- A quote in a hole of a quote. -/
theorem lower_removes_quotes_nested :
    let inner : Node := ⟨Span.zero, .quote ⟨Span.zero, .unquote ⟨Span.zero, .ident "b"⟩⟩⟩
    let n : Node := ⟨Span.zero, .quote ⟨Span.zero, .call ⟨Span.zero, .unquote inner⟩ "+"
      [⟨Span.zero, .int 1⟩] none⟩⟩
    n.MacroFree ∧ ∃ n', (∀ scopes, (lower "f" n).run scopes = (.ok n', scopes)) ∧
      Lowered "f" n n' ∧ (n'.Every fun m => m.form.isQuote = false) ∧
      n' = quoteCall Span.zero "(`$0` + 1)" "f"
        [quoteCall Span.zero "`$0`" "f" [⟨Span.zero, .ident "b"⟩]] := by
  intro inner n
  have hn : n.MacroFree := by simp [n, inner, MacroFree, Form.isMacroDef]
  obtain ⟨n', hlower, hrel, hevery⟩ := lower_removes_quotes "f" n hn
  refine ⟨hn, n', hlower, hrel, hevery, ?_⟩
  have hrun : (lower "f" n).run [] = (.ok (quoteCall Span.zero "(`$0` + 1)" "f"
      [quoteCall Span.zero "`$0`" "f" [⟨Span.zero, .ident "b"⟩]]), []) := by rfl
  exact Except.ok.inj (congrArg Prod.fst ((hlower []).symm.trans hrun))

end Node

end Quasiquote
