import Quasiquote.Proofs.Typing.Quiet

namespace Quasiquote

/-!
# Units — typing the class that a macro is compiled as

The class of a macro consists of methods that are always the same, the authored body aside.
Nothing of what is put around the body is ever the reason why a build fails.

* `Typing.withTypes` — the same state with other types;
* `Extension.expandInline_ofSpec` — inline macros are expanded in the authored body;
* `Typer.leads_ofSpec` — what typing the authored body establishes, typing the class does.
-/

/-- The state of typing with other types. -/
def Typing.withTypes (t : Typing) (types : TypeRegistry) : Typing :=
  { t with work := { t.work with session := { t.work.session with types } } }

/-- The state of typing with other local variables. -/
def Typing.withLocals (t : Typing) (locals : NameMap TypeRef) : Typing := { t with locals }

theorem TypeM.withLocals_eq {α : Type} {locals : NameMap TypeRef} {body : TypeM α} {t t' : Typing}
    {a : α} (h : body (t.withLocals locals) = .ok (a, t')) :
    TypeM.withLocals locals body t = .ok (a, t'.withLocals t.locals) := by
  unfold Typing.withLocals at h
  simp only [TypeM.withLocals, bind_apply, get_apply, modify_apply, h, pure_apply]
  rfl

namespace TypeRef

theorem owner_ofName {name : String} (hany : name ≠ "Any") (hvoid : name ≠ "Void") :
    (ofName name).owner = some name := by
  unfold ofName
  split <;> simp_all [owner, TypeRef.name]

end TypeRef

/-! ### Inline macros -/

namespace Extension

variable {env : InlineEnv}

open Node in
/-- What the entry method hands on has no inline macros. -/
theorem expandInline_forwarded {s : Span} {args : List Argument}
    (h : ∀ name d, Argument.optional name d ∈ args → d.holeFree = true) (i : Int) :
    expandInlineListM (m := Except Diagnostic) env throw false (forwarded s i args) =
      .ok (forwarded s i args) := by
  induction args generalizing i with
  | nil => rfl
  | cons a args ih =>
    have hrest := ih fun name d hd => h name d (List.mem_cons_of_mem _ hd)
    cases a with
    | required name =>
      rw [forwarded, expandInlineListM, hrest]
      rfl
    | optional name d =>
      have hd := expandInlineM_of_holeFree (m := Except Diagnostic) env throw d
        (h name d List.mem_cons_self)
      rw [forwarded, expandInlineListM, hrest]
      simp only [askCall, callField, expandInlineM, expandInlineListM, expandInlineOptM, hd]
      rfl
    | block name optional =>
      rw [forwarded, expandInlineListM, hrest]
      rfl

open Node in
/-- Inline macros are expanded in the body of a method. -/
theorem expandInline_methodDef {s : Span} {name : String} {ps : List Parameter}
    {returns : Option String} {body body' : Node} (hps : ∀ p ∈ ps, p.default = none)
    (hbody : expandInlineM (m := Except Diagnostic) env throw false body = .ok body') :
    expandInlineM (m := Except Diagnostic) env throw false ⟨s, .methodDef name ps returns body⟩ =
      .ok ⟨s, .methodDef name ps returns body'⟩ := by
  have hparams : expandInlineParamsM (m := Except Diagnostic) env throw false ps = .ok ps := by
    induction ps with
    | nil => rfl
    | cons p ps ih =>
      obtain ⟨name, type, default, block⟩ := p
      obtain rfl : default = none := hps _ List.mem_cons_self
      rw [expandInlineParamsM, ih fun q hq => hps q (List.mem_cons_of_mem _ hq)]
      rfl
  rw [expandInlineM, hparams]
  simp only [hbody]
  rfl

open Node in
/-- Inline macros are expanded in the authored body. -/
theorem expandInline_ofSpec {unit : String} {m : MacroSpec} {s sb : Span} {items items' : List Node}
    (hnames : ∀ x ∈ ["mirah", "call", bodyMethod], env.macros.get? x = none)
    (hdefaults : ∀ name d, Argument.optional name d ∈ m.args → d.holeFree = true)
    (hbody : m.body = ⟨sb, .body items⟩)
    (hitems : expandInlineListM (m := Except Diagnostic) env throw false items = .ok items') :
    (ofSpec unit m s).expandInline env =
      .ok (ofSpec unit { m with body := ⟨sb, .body items'⟩ } s) := by
  obtain ⟨hmirah, hcall, hmethod⟩ : env.macros.get? "mirah" = none ∧ env.macros.get? "call" = none ∧
      env.macros.get? bodyMethod = none := by simpa using hnames
  have hconstructor : expandInlineM (m := Except Diagnostic) env throw false (constructor s) =
      .ok (constructor s) := by
    refine expandInline_methodDef (by decide) ?_
    simp only [keep, expandInlineM, expandInlineListM, hmirah, hcall]
    rfl
  have hentry : expandInlineM (m := Except Diagnostic) env throw false (entry m s) =
      .ok (entry m s) := by
    refine expandInline_methodDef (fun p hp => absurd hp List.not_mem_nil) ?_
    simp only [expandInlineM, expandInlineListM, expandInlineOptM, hmethod,
      expandInline_forwarded hdefaults]
    rfl
  have hauthored : expandInlineM (m := Except Diagnostic) env throw false (authored m) =
      .ok (authored { m with body := ⟨sb, .body items'⟩ }) := by
    rw [authored, hbody]
    refine expandInline_methodDef (fun p hp => ?_) ?_
    · obtain ⟨a, -, rfl⟩ := List.mem_map.1 hp
      rfl
    · rw [expandInlineM, hitems]
      rfl
  rw [ofSpec, expandInline]
  simp only [expandInlineM, expandInlineListM, hconstructor, hentry, hauthored]
  rfl

end Extension

namespace Typer

open TypeM

/-- Typing of code that comes from no expansion. -/
def outermost (build : Nat → TypeM (Except Diagnostic Unit)) : Typer :=
  ⟨build, 0, some (within build 63)⟩

theorem within_expansionLimit (build : Nat → TypeM (Except Diagnostic Unit)) :
    within build expansionLimit = (outermost build).infer :=
  rfl

variable {env : Typer} {scope : Scope}

/-! ### Methods -/

/-- Parameters without defaults are not typed. -/
theorem inferParams_typed (ps : List Parameter) (h : ∀ p ∈ ps, p.default = none) (t : Typing) :
    env.inferParams scope ps t = .ok (ps, t) := by
  induction ps with
  | nil => simp only [inferParams, TypeM.pure_apply]
  | cons p ps ih =>
    obtain ⟨name, type, default, block⟩ := p
    obtain rfl : default = none := h _ List.mem_cons_self
    simp only [inferParams, inferBlock, TypeM.bind_apply, TypeM.pure_apply,
      ih fun q hq => h q (List.mem_cons_of_mem _ hq)]

/-- The state of typing in which a method is declared. -/
def declaring (t : Typing) (owner : String) (m : Method) : Typing :=
  t.withTypes (t.work.session.types.modify owner (·.define m))

theorem defineMethod_eq {owner : String} (h : scope.selfType.owner = some owner) (m : Method)
    (t : Typing) : defineMethod scope m t = .ok ((), declaring t owner m) := by
  unfold defineMethod
  rw [h]
  rfl

/-- The methods of a body are declared before the body is typed. -/
theorem leads_prescan_method {owner : String} (howner : scope.selfType.owner = some owner) (s : Span)
    (name : String) (ps : List Parameter) (returns : Option String) (body : Node)
    (rest : List Node) (t : Typing) : ∃ m : Method, m.name = name ∧
      ∀ t', Leads (prescan scope rest) (declaring t owner m) t' →
        Leads (prescan scope (⟨s, .methodDef name ps returns body⟩ :: rest)) t t' := by
  refine ⟨⟨name, ps.map parameterType, (returns.map TypeRef.ofName).getD .any⟩, rfl, fun t' h => ?_⟩
  rw [prescan]
  exact .bind_eq (defineMethod_eq howner _ t) (.bind h fun _ => .pure _)

/-- A method is typed with its parameters as local variables, and is declared. -/
theorem infer_methodDef {owner : String} (howner : scope.selfType.owner = some owner)
    {ps : List Parameter} (hps : ∀ p ∈ ps, p.default = none) {s : Span} {name : String}
    {returns : Option String} {body : Node} {t t' : Typing}
    (hbody : Leads (env.infer scope body) (t.withLocals (addLocals {}
      (ps.map fun p => (p.name, parameterType p)))) t') :
    ∃ m : Method, Leads (env.infer scope ⟨s, .methodDef name ps returns body⟩) t
      (declaring (t'.withLocals t.locals) owner m) := by
  obtain ⟨p, hp⟩ := hbody
  refine ⟨⟨name, (ps.map fun p => (p.name, parameterType p)).map Prod.snd,
      (returns.map TypeRef.ofName).getD p.2⟩, ?_⟩
  rw [infer]
  refine .bind_eq (inferParams_typed ps hps t) ?_
  exact .bind_eq (TypeM.withLocals_eq hp) (.bind_eq (defineMethod_eq howner _ _) (.pure _))

/-! ### What is put around the authored body -/

section Unit

variable {unit owner scriptType : String}

/-- The code inside the class of a unit. -/
def inside (unit owner scriptType : String) : Scope :=
  (Scope.unit unit owner scriptType).inClass (TypeRef.ofName unit)

/-- Keeping parameters in fields. -/
theorem leads_keep {s : Span} {names : List String} {t : Typing}
    (h : ∀ x ∈ names, (t.locals.get? x).isSome = true) :
    Leads (env.infer scope ⟨s, .body (names.map (Extension.keep s))⟩) t t := by
  refine leads_body (fun n hn => ?_) fun type ids => ?_
  · obtain ⟨x, -, rfl⟩ := List.mem_map.1 hn
    rfl
  · induction names generalizing type ids with
    | nil => exact leads_nil _ _ _
    | cons x names ih =>
      obtain ⟨u, hu⟩ := Option.isSome_iff_exists.1 (h x List.mem_cons_self)
      have hident : env.infer scope ⟨s, .ident x⟩ t = .ok ((⟨s, .ident x⟩, u), t) := by
        simp only [infer, TypeM.bind_apply, TypeM.get_apply, hu, TypeM.pure_apply]
      refine leads_cons (fun _ _ _ _ h => by cases h) ?_
        (ih fun y hy => h y (List.mem_cons_of_mem _ hy)) type ids
      rw [Extension.keep, infer]
      exact .bind_eq hident (.pure _)

/-- A question to the call that is expanded. -/
theorem leads_askCall {s : Span} {name : String} {args : List Node} {t : Typing}
    (hargs : Leads (env.inferAll scope args) t t) :
    Leads (env.infer scope (Extension.askCall s name args)) t t := by
  have hfield : env.infer scope (Extension.callField s) t = .ok ((Extension.callField s, .any), t) := by
    simp only [Extension.callField, infer, TypeM.pure_apply]
  rw [Extension.askCall, infer]
  refine .bind_eq hfield (.bind_eq (a := .ok none) rfl (.bind hargs fun _ => ?_))
  exact .bind_eq (a := none) (by simp only [inferBlock, TypeM.pure_apply])
    (.bind_eq (a := .any) rfl (.pure _))

/-- What the entry method hands on. -/
theorem leads_forwarded {s : Span} {args : List Argument}
    (h : ∀ name d, Argument.optional name d ∈ args → d.holeFree = true) (i : Int) (t : Typing) :
    Leads (env.inferAll scope (Extension.forwarded s i args)) t t := by
  have hposition (i : Int) : Leads (env.infer scope ⟨s, .int i⟩) t t := by
    rw [infer]
    exact .pure _
  induction args generalizing i with
  | nil =>
    rw [Extension.forwarded, inferAll]
    exact .pure _
  | cons a args ih =>
    have hrest := ih fun name d hd => h name d (List.mem_cons_of_mem _ hd)
    cases a with
    | required name =>
      rw [Extension.forwarded, inferAll]
      refine .bind (leads_askCall ?_) fun _ => .bind (hrest (i + 1)) fun _ => .pure _
      rw [inferAll, inferAll]
      exact .bind (hposition i) fun _ => .bind (.pure _) fun _ => .pure _
    | optional name d =>
      have hd : d.holeFree = true := h name d List.mem_cons_self
      have hquote : Leads (env.infer scope ⟨s, .quote d⟩) t t := by
        rw [infer]
        exact .bind_eq (inferHoles_of_holeFree t d hd) (.pure _)
      rw [Extension.forwarded, inferAll]
      refine .bind (leads_askCall ?_) fun _ => .bind (hrest (i + 1)) fun _ => .pure _
      rw [inferAll, inferAll, inferAll]
      exact .bind (hposition i) fun _ => .bind (.bind hquote fun _ => .bind (.pure _) fun _ =>
        .pure _) fun _ => .pure _
    | block name optional =>
      rw [Extension.forwarded, inferAll]
      refine .bind (leads_askCall ?_) fun _ => .bind (hrest i) fun _ => .pure _
      rw [inferAll]
      exact .pure _

/-- The constructor keeps its parameters. -/
theorem leads_constructor {owner : String} (howner : scope.selfType.owner = some owner) (s : Span)
    (t : Typing) : ∃ r, t.work.session.types.Extends r ∧
      Leads (env.infer scope (Extension.constructor s)) t (t.withTypes r) := by
  have hps : ∀ p ∈ [Parameter.typed "mirah" "Compiler", .typed "call" "Node"], p.default = none := by
    decide
  have hlocals : ∀ x ∈ ["mirah", "call"], ((addLocals {} ([Parameter.typed "mirah" "Compiler",
      .typed "call" "Node"].map fun p => (p.name, parameterType p))).get? x).isSome = true := by
    decide
  obtain ⟨m, hm⟩ := @infer_methodDef env _ _ howner _ hps s "initialize" none _ _ _
    (@leads_keep env _ s _ (t.withLocals _) hlocals)
  exact ⟨_, .define _ owner m, hm⟩

/-- The entry method calls the method that holds the authored body, and nothing else. -/
theorem leads_entry {owner : String} (howner : scope.selfType.owner = some owner) {m : MacroSpec}
    {s : Span} {t : Typing}
    (hdefaults : ∀ name d, Argument.optional name d ∈ m.args → d.holeFree = true)
    (hunknown : ∀ o ∈ scope.macroOwners, t.work.session.Unknown Extension.bodyMethod o)
    (hdeclared : t.work.session.types.Declares owner Extension.bodyMethod) :
    ∃ r, t.work.session.types.Extends r ∧
      Leads (env.infer scope (Extension.entry m s)) t (t.withTypes r) := by
  let start := t.withLocals (addLocals {} [])
  have htype : Leads (ownMethodType scope Extension.bodyMethod s) start start := by
    have hself : scope.owner = owner := by rw [Scope.owner, howner, Option.getD_some]
    obtain ⟨method, hmethod⟩ := Option.isSome_iff_exists.1 hdeclared.isSome_lookupMethod
    refine .bind_eq (TypeM.session_apply start) ?_
    rw [hself]
    simp only [start, Typing.withLocals, hmethod]
    exact .pure _
  have hcall : Leads (env.infer scope
      ⟨s, .invoke Extension.bodyMethod (Extension.forwarded s 0 m.args) none⟩) start start := by
    rw [infer]
    refine .bind_eq (findMacro_of_unknown hunknown) (.bind (leads_forwarded hdefaults 0 _) fun _ => ?_)
    exact .bind_eq (a := none) (by simp only [inferBlock, TypeM.pure_apply])
      (.bind htype fun _ => .pure _)
  have hbody := leads_body (s := s) (fun n hn => by rw [List.mem_singleton.1 hn]; rfl)
    (leads_cons (fun _ _ _ _ h => by cases h) hcall fun type ids => leads_nil type ids start)
  obtain ⟨m', hm'⟩ := @infer_methodDef env _ _ howner [] (fun p hp => absurd hp List.not_mem_nil) s
    Extension.entryMethod (some "Node") _ _ _ hbody
  exact ⟨_, .define _ owner m', hm'⟩

/-- The methods of the class are declared before they are typed. -/
theorem leads_prescan_class {owner : String} (howner : scope.selfType.owner = some owner)
    (m : MacroSpec) (s : Span) {t : Typing} {u : OwnerType}
    (hu : t.work.session.types.get? owner = some u) :
    ∃ r, t.work.session.types.Extends r ∧ r.Declares owner Extension.bodyMethod ∧
      Leads (prescan scope [Extension.constructor s, Extension.entry m s, Extension.authored m]) t
        (t.withTypes r) := by
  obtain ⟨m₁, -, h₁⟩ := leads_prescan_method howner s "initialize" _ none _
    [Extension.entry m s, Extension.authored m] t
  obtain ⟨m₂, -, h₂⟩ := leads_prescan_method howner s Extension.entryMethod [] (some "Node") _
    [Extension.authored m] (declaring t owner m₁)
  obtain ⟨m₃, hname, h₃⟩ := leads_prescan_method howner m.body.span Extension.bodyMethod _
    (some "Node") m.body [] (declaring (declaring t owner m₁) owner m₂)
  have hbefore := (TypeRegistry.Extends.define t.work.session.types owner m₁).trans (.define _ owner m₂)
  refine ⟨_, hbefore.trans (.define _ owner m₃), ?_, h₁ _ (h₂ _ (h₃ _ (.pure [])))⟩
  obtain ⟨u', hu', -⟩ := hbefore.kept owner u hu
  exact hname ▸ TypeRegistry.declares_define hu' m₃

/-- The local variables of the authored body. -/
def authoredLocals (m : MacroSpec) : NameMap TypeRef :=
  addLocals {} ((m.args.map fun a => Parameter.typed a.name (Extension.parameterType a)).map
    fun p => (p.name, parameterType p))

/-- Typing the class of a macro is typing the authored body, in a registry with the class and
    more methods. -/
theorem leads_ofSpec {m : MacroSpec} {s : Span} {t : Typing}
    (hunit : (TypeRef.ofName unit).owner = some unit)
    (hdefaults : ∀ name d, Argument.optional name d ∈ m.args → d.holeFree = true)
    (hunknown : ∀ r, t.work.session.types.Extends r →
      ∀ o ∈ (inside unit owner scriptType).macroOwners,
        (t.withTypes r).work.session.Unknown Extension.bodyMethod o) :
    ∃ r, t.work.session.types.Extends r ∧
      ∀ t', Leads (env.infer (inside unit owner scriptType) m.body)
        ((t.withTypes r).withLocals (authoredLocals m)) t' →
      ∃ r', t'.work.session.types.Extends r' ∧
        Leads (env.infer (Scope.unit unit owner scriptType) (Extension.ofSpec unit m s)) t
          ((t'.withLocals t.locals).withTypes r') := by
  let scope := inside unit owner scriptType
  have howner : scope.selfType.owner = some unit := hunit
  -- the class is opened, and its methods are declared
  let r₀ := t.work.session.types.openType unit (some extensionType) false
  let start := (t.withTypes r₀).withLocals {}
  have hopen : openClass unit (some extensionType) s t = .ok ((), t.withTypes r₀) := by
    simp only [openClass, bne_self_eq_false, TypeM.bind_apply, TypeM.session_apply, Bool.false_and,
      Bool.false_eq_true, if_false]
    rfl
  obtain ⟨u, hu⟩ := t.work.session.types.exists_openType unit (some extensionType) false
  obtain ⟨r₁, hr₁, hdeclared, hscan⟩ := leads_prescan_class howner m s (t := start) hu
  -- they are typed one after the other, the authored body at last
  obtain ⟨r₂, hr₂, hconstructor⟩ := @leads_constructor env _ _ howner s (start.withTypes r₁)
  have hr : t.work.session.types.Extends r₂ :=
    ((TypeRegistry.Extends.openUnit _ unit).trans hr₁).trans hr₂
  obtain ⟨r₃, hr₃, hentry⟩ := @leads_entry env _ _ howner _ s (start.withTypes r₂)
    hdefaults (hunknown r₂ hr) (hr₂.declared _ _ hdeclared)
  refine ⟨r₃, hr.trans hr₃, fun t' hbody => ?_⟩
  have hauthored : ∃ m', Leads (env.infer scope (Extension.authored m)) (start.withTypes r₃)
      (declaring (t'.withLocals {}) unit m') :=
    infer_methodDef howner (fun p hp => by obtain ⟨a, -, rfl⟩ := List.mem_map.1 hp; rfl) hbody
  obtain ⟨m', hauthored⟩ := hauthored
  refine ⟨_, .define _ unit m', ?_⟩
  have hclass : Leads (env.infer scope ⟨s, .body [Extension.constructor s, Extension.entry m s,
      Extension.authored m]⟩) start (declaring (t'.withLocals {}) unit m') := by
    rw [infer]
    refine .bind hscan fun ids => .bind ?_ fun _ => .pure _
    refine leads_cons (fun _ _ _ _ h => by cases h) hconstructor ?_ .nil ids
    refine leads_cons (fun _ _ _ _ h => by cases h) hentry ?_
    exact leads_cons (fun _ _ _ _ h => by cases h) hauthored fun type ids => leads_nil type ids _
  obtain ⟨p, hp⟩ := hclass
  rw [Extension.ofSpec, infer]
  exact .bind_eq hopen (.bind_eq (TypeM.withLocals_eq hp) (.pure _))

end Unit

end Typer

end Quasiquote
