import Quasiquote.Proofs.Session.Steps
import Quasiquote.Proofs.Types.Hierarchy

namespace Quasiquote

/-!
# Quiet trees — what typing passes over

Most of what is put around the authored body of a macro means nothing to typing: literals,
quoted trees without holes, and calls of methods that no macro has the name of.

* `Node.isLiteral`, `Node.holeFree` — trees that typing leaves as they are;
* `Node.expandInlineM_of_holeFree` — inline macros are not expanded in quoted trees;
* `Typer.leads_literal`, `Typer.inferHoles_of_holeFree` — typing such trees;
* `Session.mem_pending`, `Typer.findMacro_cons_of_unknown` — the search for a macro passes
  over types where nothing is known of it.
-/

namespace Node

/-- Whether a tree is a literal. -/
def isLiteral : Node → Bool
  | ⟨_, .int _⟩ | ⟨_, .float _⟩ | ⟨_, .str _⟩ | ⟨_, .bool _⟩ | ⟨_, .nil⟩ => true
  | _ => false

/-- Whether a statement registers a definition or declares a method. -/
def declares : Node → Bool
  | ⟨_, .macroDef _ _ _ none⟩ | ⟨_, .methodDef _ _ _ _⟩ => true
  | _ => false

theorem declares_of_isLiteral {n : Node} (h : n.isLiteral = true) : n.declares = false := by
  obtain ⟨s, f⟩ := n
  cases f <;> first | rfl | cases h

mutual

/-- Whether a quoted tree has no holes.  Those of a quote inside it are not its own. -/
def holeFree : Node → Bool
  | ⟨_, .unquote _⟩ => false
  | ⟨_, .assign _ v⟩ | ⟨_, .fieldAssign _ v⟩ => holeFree v
  | ⟨_, .call t _ args b⟩ => holeFree t && holeFreeAll args && holeFreeOpt b
  | ⟨_, .invoke _ args b⟩ => holeFreeAll args && holeFreeOpt b
  | ⟨_, .cond t y n⟩ => holeFree t && holeFree y && holeFreeOpt n
  | ⟨_, .body items⟩ => holeFreeAll items
  | ⟨_, .block _ b _⟩ | ⟨_, .classDef _ _ b⟩ => holeFree b
  | ⟨_, .methodDef _ ps _ b⟩ => holeFreeParams ps && holeFree b
  | _ => true

/-- Whether several quoted trees have no holes. -/
def holeFreeAll : List Node → Bool
  | [] => true
  | n :: ns => holeFree n && holeFreeAll ns

/-- Whether a quoted tree that may be absent has no holes. -/
def holeFreeOpt : Option Node → Bool
  | none => true
  | some n => holeFree n

/-- Whether the defaults of quoted parameters have no holes. -/
def holeFreeParams : List Parameter → Bool
  | [] => true
  | ⟨_, _, d, _⟩ :: ps => holeFreeOpt d && holeFreeParams ps

end

/-! ### Inline macros -/

section Inline

variable {m : Type → Type} [Monad m] [LawfulMonad m] (env : InlineEnv) (fail : Diagnostic → m Unit)

mutual

/-- In a quoted tree, inline macros are expanded in the holes only. -/
theorem expandInlineM_of_holeFree :
    ∀ n : Node, n.holeFree = true → n.expandInlineM env fail true = pure n
  | ⟨_, .unquote _⟩, h => by simp [holeFree] at h
  | ⟨_, .assign _ v⟩, h | ⟨_, .fieldAssign _ v⟩, h => by
    simp only [holeFree] at h
    simp [expandInlineM, expandInlineM_of_holeFree v h]
  | ⟨_, .call t _ args b⟩, h => by
    simp only [holeFree, Bool.and_eq_true] at h
    simp [expandInlineM, expandInlineM_of_holeFree t h.1.1,
      expandInlineListM_of_holeFree args h.1.2, expandInlineOptM_of_holeFree b h.2]
  | ⟨_, .invoke _ args b⟩, h => by
    simp only [holeFree, Bool.and_eq_true] at h
    simp [expandInlineM, expandInlineListM_of_holeFree args h.1, expandInlineOptM_of_holeFree b h.2]
  | ⟨_, .cond t y n⟩, h => by
    simp only [holeFree, Bool.and_eq_true] at h
    simp [expandInlineM, expandInlineM_of_holeFree t h.1.1, expandInlineM_of_holeFree y h.1.2,
      expandInlineOptM_of_holeFree n h.2]
  | ⟨_, .body items⟩, h => by
    simp only [holeFree] at h
    simp [expandInlineM, expandInlineListM_of_holeFree items h]
  | ⟨_, .block _ b _⟩, h | ⟨_, .classDef _ _ b⟩, h => by
    simp only [holeFree] at h
    simp [expandInlineM, expandInlineM_of_holeFree b h]
  | ⟨_, .methodDef _ ps _ b⟩, h => by
    simp only [holeFree, Bool.and_eq_true] at h
    simp [expandInlineM, expandInlineParamsM_of_holeFree ps h.1, expandInlineM_of_holeFree b h.2]
  | ⟨_, .quote _⟩, _ | ⟨_, .ident _⟩, _ => by simp [expandInlineM]
  | ⟨_, .int _⟩, _ | ⟨_, .float _⟩, _ | ⟨_, .str _⟩, _ | ⟨_, .bool _⟩, _ | ⟨_, .nil⟩, _
  | ⟨_, .self⟩, _ | ⟨_, .field _⟩, _ | ⟨_, .constant _⟩, _ | ⟨_, .blockArgument _ _⟩, _
  | ⟨_, .macroDef _ _ _ _⟩, _ | ⟨_, .noop⟩, _ | ⟨_, .error _⟩, _ => by simp [expandInlineM]

theorem expandInlineListM_of_holeFree :
    ∀ ns : List Node, holeFreeAll ns = true → expandInlineListM env fail true ns = pure ns
  | [], _ => by simp [expandInlineListM]
  | n :: ns, h => by
    simp only [holeFreeAll, Bool.and_eq_true] at h
    simp [expandInlineListM, expandInlineM_of_holeFree n h.1, expandInlineListM_of_holeFree ns h.2]

theorem expandInlineOptM_of_holeFree :
    ∀ n : Option Node, holeFreeOpt n = true → expandInlineOptM env fail true n = pure n
  | none, _ => by simp [expandInlineOptM]
  | some n, h => by
    simp only [holeFreeOpt] at h
    simp [expandInlineOptM, expandInlineM_of_holeFree n h]

theorem expandInlineParamsM_of_holeFree :
    ∀ ps : List Parameter, holeFreeParams ps = true → expandInlineParamsM env fail true ps = pure ps
  | [], _ => by simp [expandInlineParamsM]
  | ⟨_, _, d, _⟩ :: ps, h => by
    simp only [holeFreeParams, Bool.and_eq_true] at h
    simp [expandInlineParamsM, expandInlineOptM_of_holeFree d h.1,
      expandInlineParamsM_of_holeFree ps h.2]

end

end Inline

end Node

namespace TypeM

/-- Whether a computation ends with a result, and in which state. -/
def Leads {α : Type} (x : TypeM α) (t t' : Typing) : Prop := ∃ a, x t = .ok (a, t')

namespace Leads

variable {α β : Type} {x : TypeM α} {f : α → TypeM β} {t t' t'' : Typing}

theorem pure (a : α) : Leads (Pure.pure a : TypeM α) t t := ⟨a, rfl⟩

theorem bind (hx : Leads x t t') (hf : ∀ a, Leads (f a) t' t'') : Leads (x >>= f) t t'' := by
  obtain ⟨a, ha⟩ := hx
  obtain ⟨b, hb⟩ := hf a
  exact ⟨b, by rw [bind_apply, ha]; exact hb⟩

/-- A computation that goes on with a known result. -/
theorem bind_eq {a : α} (hx : x t = .ok (a, t')) (hf : Leads (f a) t' t'') :
    Leads (x >>= f) t t'' := by
  obtain ⟨b, hb⟩ := hf
  exact ⟨b, by rw [bind_apply, hx]; exact hb⟩

end Leads

end TypeM

namespace Typer

open TypeM

variable {env : Typer} {scope : Scope}

/-! ### Typing -/

mutual

/-- In a quoted tree, only the holes are typed. -/
theorem inferHoles_of_holeFree (t : Typing) :
    ∀ n : Node, n.holeFree = true → env.inferHoles scope n t = .ok (n, t)
  | ⟨_, .unquote _⟩, h => by simp [Node.holeFree] at h
  | ⟨_, .assign _ v⟩, h | ⟨_, .fieldAssign _ v⟩, h => by
    simp only [Node.holeFree] at h
    simp only [inferHoles, TypeM.bind_apply, TypeM.pure_apply, inferHoles_of_holeFree t v h]
  | ⟨_, .call n _ args b⟩, h => by
    simp only [Node.holeFree, Bool.and_eq_true] at h
    simp only [inferHoles, TypeM.bind_apply, TypeM.pure_apply, inferHoles_of_holeFree t n h.1.1,
      inferHolesAll_of_holeFree t args h.1.2, inferHolesOpt_of_holeFree t b h.2]
  | ⟨_, .invoke _ args b⟩, h => by
    simp only [Node.holeFree, Bool.and_eq_true] at h
    simp only [inferHoles, TypeM.bind_apply, TypeM.pure_apply, inferHolesAll_of_holeFree t args h.1,
      inferHolesOpt_of_holeFree t b h.2]
  | ⟨_, .cond c y n⟩, h => by
    simp only [Node.holeFree, Bool.and_eq_true] at h
    simp only [inferHoles, TypeM.bind_apply, TypeM.pure_apply, inferHoles_of_holeFree t c h.1.1,
      inferHoles_of_holeFree t y h.1.2, inferHolesOpt_of_holeFree t n h.2]
  | ⟨_, .body items⟩, h => by
    simp only [Node.holeFree] at h
    simp only [inferHoles, TypeM.bind_apply, TypeM.pure_apply, inferHolesAll_of_holeFree t items h]
  | ⟨_, .block _ b _⟩, h | ⟨_, .classDef _ _ b⟩, h => by
    simp only [Node.holeFree] at h
    simp only [inferHoles, TypeM.bind_apply, TypeM.pure_apply, inferHoles_of_holeFree t b h]
  | ⟨_, .methodDef _ ps _ b⟩, h => by
    simp only [Node.holeFree, Bool.and_eq_true] at h
    simp only [inferHoles, TypeM.bind_apply, TypeM.pure_apply, inferHolesParams_of_holeFree t ps h.1,
      inferHoles_of_holeFree t b h.2]
  | ⟨_, .quote _⟩, _ | ⟨_, .ident _⟩, _ | ⟨_, .int _⟩, _ | ⟨_, .float _⟩, _ | ⟨_, .str _⟩, _
  | ⟨_, .bool _⟩, _ | ⟨_, .nil⟩, _ | ⟨_, .self⟩, _ | ⟨_, .field _⟩, _ | ⟨_, .constant _⟩, _
  | ⟨_, .blockArgument _ _⟩, _ | ⟨_, .macroDef _ _ _ _⟩, _ | ⟨_, .noop⟩, _
  | ⟨_, .error _⟩, _ => by simp only [inferHoles, TypeM.pure_apply]

theorem inferHolesAll_of_holeFree (t : Typing) :
    ∀ ns : List Node, Node.holeFreeAll ns = true → env.inferHolesAll scope ns t = .ok (ns, t)
  | [], _ => by simp only [inferHolesAll, TypeM.pure_apply]
  | n :: ns, h => by
    simp only [Node.holeFreeAll, Bool.and_eq_true] at h
    simp only [inferHolesAll, TypeM.bind_apply, TypeM.pure_apply, inferHoles_of_holeFree t n h.1,
      inferHolesAll_of_holeFree t ns h.2]

theorem inferHolesOpt_of_holeFree (t : Typing) :
    ∀ n : Option Node, Node.holeFreeOpt n = true → env.inferHolesOpt scope n t = .ok (n, t)
  | none, _ => by simp only [inferHolesOpt, TypeM.pure_apply]
  | some n, h => by
    simp only [Node.holeFreeOpt] at h
    simp only [inferHolesOpt, TypeM.bind_apply, TypeM.pure_apply, inferHoles_of_holeFree t n h]

theorem inferHolesParams_of_holeFree (t : Typing) :
    ∀ ps : List Parameter, Node.holeFreeParams ps = true →
      env.inferHolesParams scope ps t = .ok (ps, t)
  | [], _ => by simp only [inferHolesParams, TypeM.pure_apply]
  | ⟨_, _, d, _⟩ :: ps, h => by
    simp only [Node.holeFreeParams, Bool.and_eq_true] at h
    simp only [inferHolesParams, TypeM.bind_apply, TypeM.pure_apply, inferHolesOpt_of_holeFree t d h.1,
      inferHolesParams_of_holeFree t ps h.2]

end

theorem leads_literal {n : Node} (h : n.isLiteral = true) (t : Typing) :
    Leads (env.infer scope n) t t := by
  obtain ⟨s, f⟩ := n
  cases f <;> first | (rw [infer]; exact .pure _) | cases h

/-! ### Bodies -/

theorem leads_nil (type : TypeRef) (ids : List (Option Nat)) (t : Typing) :
    Leads (env.inferItems scope type ids []) t t := by
  rw [inferItems]
  exact .pure _

/-- A statement that is no definition is typed like any tree. -/
theorem leads_cons {n : Node} (h : ∀ s name args body, n ≠ ⟨s, .macroDef name args body none⟩)
    {ns : List Node} {t t' t'' : Typing} (hn : Leads (env.infer scope n) t t')
    (hns : ∀ type ids, Leads (env.inferItems scope type ids ns) t' t'') (type : TypeRef)
    (ids : List (Option Nat)) : Leads (env.inferItems scope type ids (n :: ns)) t t'' := by
  rw [inferItems]
  · exact .bind hn fun _ => .bind (hns _ _) fun _ => .pure _
  · exact fun s name args body id hdef _ => h s name args body hdef

/-- Literals do not change what is typed behind them. -/
theorem leads_append {pre : List Node} (h : ∀ n ∈ pre, n.isLiteral = true) {ns : List Node}
    {t t' : Typing} (hns : ∀ type ids, Leads (env.inferItems scope type ids ns) t t')
    (type : TypeRef) (ids : List (Option Nat)) :
    Leads (env.inferItems scope type ids (pre ++ ns)) t t' := by
  induction pre generalizing type ids with
  | nil => exact hns type ids
  | cons n pre ih =>
    have hn : n.isLiteral = true := h n List.mem_cons_self
    refine leads_cons (fun s name args body hdef => ?_) (leads_literal hn t)
      (ih fun m hm => h m (List.mem_cons_of_mem _ hm)) type ids
    rw [hdef] at hn
    cases hn

/-- A body that declares nothing has nothing to register. -/
theorem leads_prescan {items : List Node} (h : ∀ n ∈ items, n.declares = false) (t : Typing) :
    Leads (prescan scope items) t t := by
  induction items with
  | nil => exact .pure _
  | cons n items ih =>
    have hn : n.declares = false := h n List.mem_cons_self
    rw [prescan]
    · exact .bind (ih fun m hm => h m (List.mem_cons_of_mem _ hm)) fun _ => .pure _
    · rintro s name args body rfl
      cases hn
    · rintro s name params returns body rfl
      cases hn

/-- A body that declares nothing is typed statement by statement. -/
theorem leads_body {s : Span} {items : List Node} (h : ∀ n ∈ items, n.declares = false)
    {t t' : Typing} (hitems : ∀ type ids, Leads (env.inferItems scope type ids items) t t') :
    Leads (env.infer scope ⟨s, .body items⟩) t t' := by
  rw [infer]
  exact .bind (leads_prescan h t) fun ids => .bind (hitems .nil ids) fun _ => .pure _

end Typer

/-! ### Searches -/

/-- Whether nothing is known of a macro on a type: none is visible from it, and no
    definition of one has failed or waits. -/
structure Session.Unknown (s : Session) (x owner : String) : Prop where
  hidden : s.types.Hides x owner
  pending : s.pending owner x = []

/-- The pending definitions are those that are not resolved. -/
theorem Session.mem_pending {s : Session} {owner x : String} {id : Nat} {state : BuildState} :
    (id, state) ∈ s.pending owner x ↔ ∃ d, s.definition? id = some d ∧ d.owner = owner ∧
      d.spec.name = x ∧ d.state = state ∧ state ≠ .resolved := by
  simp only [pending, List.mem_filterMap, Prod.exists, List.mem_zipIdx_iff_getElem?,
    Option.ite_none_right_eq_some, Option.some.injEq, Prod.mk.injEq, definition?]
  constructor
  · rintro ⟨d, id', hd, ⟨rfl, rfl, hstate⟩, rfl, rfl⟩
    exact ⟨d, hd, rfl, rfl, rfl, hstate⟩
  · rintro ⟨d, hd, rfl, rfl, rfl, hstate⟩
    exact ⟨d, id, hd, ⟨rfl, rfl, hstate⟩, rfl, rfl⟩

namespace Typer

variable {env : Typer} {x owner : String} {argc : Nat} {block : Bool} {s : Span}
  {owners : List String} {t : Typing}

/-- On a type on which no definition waits, the search changes nothing. -/
theorem findMacro_cons_of_settled (h : t.work.session.pending owner x = []) :
    env.findMacro x argc block s (owner :: owners) t =
      match t.work.session.types.lookupMacro owner x argc block with
      | some e => .ok (.ok (some e), t)
      | none => env.findMacro x argc block s owners t := by
  rw [findMacro]
  simp only [TypeM.bind_apply, TypeM.session_apply, h, buildPending, TypeM.pure_apply, if_true,
    List.any_nil, Bool.false_eq_true, if_false]
  cases t.work.session.types.lookupMacro owner x argc block <;> rfl

/-- The search passes over a type on which nothing is known of the macro. -/
theorem findMacro_cons_of_unknown (h : t.work.session.Unknown x owner) :
    env.findMacro x argc block s (owner :: owners) t = env.findMacro x argc block s owners t := by
  rw [findMacro_cons_of_settled h.pending, TypeRegistry.lookupMacro_of_hides h.hidden]

theorem findMacro_of_unknown (h : ∀ owner ∈ owners, t.work.session.Unknown x owner) :
    env.findMacro x argc block s owners t = .ok (.ok none, t) := by
  induction owners with
  | nil => rfl
  | cons owner owners ih =>
    rw [findMacro_cons_of_unknown (h owner List.mem_cons_self)]
    exact ih fun o ho => h o (List.mem_cons_of_mem _ ho)

end Typer

end Quasiquote
