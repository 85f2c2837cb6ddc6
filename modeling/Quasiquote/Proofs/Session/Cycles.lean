import Quasiquote.Proofs.Session.Rings
import Quasiquote.Proofs.Session.Settling

namespace Quasiquote

/-!
# Cycles — sources that define a ring of macros

Where the macros of a ring are defined, and wherever they are called, each of them fails.  Its
failure is reported where it is defined, whether a call has made it fail earlier or not.

* `Node.Calls` — the calls of the macros that a source may hold besides the definitions;
* `Typer.prescan_eq` — the definitions of a body are met before the body is typed;
* `Typer.fails_items` — the statements of such a body, one after the other;
* `Work.Encloses` — where the body may stand: it is the script, or that of a class;
* `Work.compile_detects` — compiling such a source.
-/

namespace Node

/-- The macro that a statement defines. -/
def spec? : Node → Option MacroSpec
  | ⟨_, .macroDef name args body none⟩ => some ⟨name, args, body⟩
  | _ => none

/-- Whether a statement calls a macro of `names` on `owner`, where `self` is the type of `self`.
    Arguments and blocks may be anything. -/
inductive Calls (self : Option String) (owner : String) (names : List String) : Node → Prop
  | name {s : Span} {x : String} (hself : self = some owner) (hx : x ∈ names) :
    Calls self owner names ⟨s, .ident x⟩
  | invoke {s : Span} {x : String} {args : List Node} {block : Option Node}
    (hself : self = some owner) (hx : x ∈ names) : Calls self owner names ⟨s, .invoke x args block⟩
  | onSelf {s s' : Span} {x : String} {args : List Node} {block : Option Node}
    (hself : self = some owner) (hx : x ∈ names) :
    Calls self owner names ⟨s, .call ⟨s', .self⟩ x args block⟩
  | onOwner {s s' : Span} {x : String} {args : List Node} {block : Option Node} (hx : x ∈ names) :
    Calls self owner names ⟨s, .call ⟨s', .constant owner⟩ x args block⟩

/-- A call defines nothing. -/
theorem Calls.declares {self : Option String} {owner : String} {names : List String} {n : Node}
    (h : n.Calls self owner names) : n.spec? = none ∧ n.declares = false := by
  cases h <;> exact ⟨rfl, rfl⟩

end Node

/-- The definition that a statement makes in a body of an owner. -/
def MacroDefinition.ofItem? (owner source : String) (n : Node) : Option MacroDefinition :=
  n.spec?.map fun spec => { spec, owner, span := n.span, source }

/-- The definitions of a body, in order. -/
def MacroDefinition.ofItems (owner source : String) (items : List Node) : List MacroDefinition :=
  items.filterMap (ofItem? owner source)

namespace Work

/-- The session in which a class is open for definitions. -/
def opening (k : Work) (name : String) (superclass : Option String) (s : Span) : Work :=
  match Typer.openClass name superclass s { work := k } with
  | .ok (_, t) | .error t => t.work

/-- The session that has met more definitions. -/
def meeting (k : Work) (ds : List MacroDefinition) : Work :=
  { k with session := { k.session with definitions := k.session.definitions ++ ds } }

@[simp] theorem meeting_nil (k : Work) : k.meeting [] = k := by simp [meeting]

theorem meeting_meeting (k : Work) (ds es : List MacroDefinition) :
    (k.meeting ds).meeting es = k.meeting (ds ++ es) := by simp [meeting]

@[simp] theorem met_meeting (k : Work) (ds : List MacroDefinition) :
    (k.meeting ds).met = k.met + ds.length := List.length_append

end Work

/-! ### Definitions that are met -/

namespace Work

variable {k : Work} {owner x : String} {ds : List MacroDefinition}

theorem definition?_meeting_of_lt {id : Nat} (h : id < k.met) :
    (k.meeting ds).session.definition? id = k.session.definition? id :=
  List.getElem?_append_left h

theorem mem_of_definition?_meeting {id : Nat} {d : MacroDefinition} (h : k.met ≤ id)
    (hd : (k.meeting ds).session.definition? id = some d) : d ∈ ds := by
  have happend : (k.session.definitions ++ ds)[id]? = some d := hd
  rw [List.getElem?_append_right h] at happend
  exact List.mem_of_getElem? happend

/-- Definitions of other macros do not make a macro known. -/
theorem unknown_meeting {o : String} (h : k.session.Unknown x o)
    (hds : ∀ d ∈ ds, d.owner = o → d.spec.name ≠ x) : (k.meeting ds).session.Unknown x o where
  hidden := h.hidden
  pending := by
    rw [List.eq_nil_iff_forall_not_mem]
    rintro ⟨id, state⟩ hmem
    obtain ⟨d, hd, howner, hname, hstate⟩ := Session.mem_pending.1 hmem
    rcases Nat.lt_or_ge id k.met with hlt | hge
    · have hbefore : (id, state) ∈ k.session.pending o x :=
        Session.mem_pending.2 ⟨d, definition?_meeting_of_lt hlt ▸ hd, howner, hname, hstate⟩
      rw [h.pending] at hbefore
      cases hbefore
    · exact hds d (mem_of_definition?_meeting hge hd) howner hname

/-- The name of a unit is longer than that of the owner of its macro. -/
theorem IsNewUnit.ne {unit : String} (h : k.IsNewUnit owner unit) : unit ≠ owner := by
  obtain ⟨n, -, rfl⟩ := h
  intro heq
  have hlength := congrArg String.length heq
  simp only [unitName, String.length_append] at hlength
  have hdot : ".".length = 1 := rfl
  omega

/-- What is clear remains so when macros of the ring are defined. -/
theorem Clear.meeting {names : List String} (h : k.Clear owner names)
    (hmethod : Extension.bodyMethod ∉ names)
    (hds : ∀ d ∈ ds, d.owner = owner ∧ d.spec.name ∈ names) : (k.meeting ds).Clear owner names where
  visible := h.visible
  extension := h.extension
  units x hx unit hunit := unknown_meeting (h.units x hx unit hunit) fun d hd howner =>
    absurd (howner.symm.trans (hds d hd).1) (IsNewUnit.ne hunit)
  method o ho := unknown_meeting (h.method o ho) fun d hd _ hname =>
    hmethod (hname ▸ (hds d hd).2)

end Work

/-- Whether a session holds a ring of which no macro is being built, and no more than `n` builds
    are to begin. -/
structure Work.Poised (owner : String) (names : List String) (first n : Nat) (k : Work) : Prop where
  ring : k.Ring owner names first
  alert : k.Alert first
  known : k.session.types.contains owner = true
  budget : k.met ≤ k.begun + n
  still : ∀ id d, first ≤ id → k.session.definition? id = some d →
    d.state = .unresolved ∨ d.state = .failed

theorem Work.Poised.fails {owner : String} {names : List String} {first n : Nat} {k k' : Work}
    (h : k.Poised owner names first n) (hk : k.Fails k') (halert : k'.Alert first) :
    k'.Poised owner names first n where
  ring := h.ring.fails hk
  alert := halert
  known := by
    obtain ⟨u, hu⟩ := Option.isSome_iff_exists.1 h.known
    obtain ⟨u', hu', -⟩ := hk.types.kept owner u hu
    exact Option.isSome_iff_exists.2 ⟨u', hu'⟩
  budget := by
    have := h.budget
    have := hk.met
    have := hk.begun
    omega
  still id d' hid hd' := by
    obtain ⟨d, hd, rfl | ⟨-, unit, e, rfl⟩⟩ := hk.before hd'
    · exact h.still id d' hid hd
    · exact .inr rfl

/-- Whether a ring of macros may be defined on an owner: all earlier builds have ended, and the
    names mean nothing else where they are looked up. -/
structure Work.Ready (owner : String) (names : List String) (k : Work) : Prop where
  clear : k.Clear owner names
  inline : ∀ x ∈ ["mirah", "call", Extension.bodyMethod] ++ names, k.session.inline.get? x = none
  method : Extension.bodyMethod ∉ names
  known : k.session.types.contains owner = true
  rest : ∀ d ∈ k.session.definitions, d.state.isFinal = true

/-- Whether definitions are those of a ring of an owner, and have not been built yet. -/
structure MacroDefinition.AreRing (owner : String) (names : List String) (inline : InlineMacros)
    (ds : List MacroDefinition) : Prop where
  members : ∀ d ∈ ds, d.owner = owner ∧ d.spec.name ∈ names ∧ d.state = .unresolved ∧
    ∃ next ∈ names, d.spec.Requires inline next
  named : ∀ x ∈ names, ∃ d ∈ ds, d.spec.name = x

namespace Work

section Ring

variable {k : Work} {owner : String} {names : List String} {ds : List MacroDefinition} {n : Nat}
  (hds : MacroDefinition.AreRing owner names k.session.inline ds)
include hds

/-- The definitions of a ring make a ring. -/
theorem Ready.ring (h : k.Ready owner names) : (k.meeting ds).Ring owner names k.met where
  clear := h.clear.meeting h.method fun d hd => ⟨(hds.members d hd).1, (hds.members d hd).2.1⟩
  inline := h.inline
  earlier id d hid hd := by
    rw [definition?_meeting_of_lt hid] at hd
    exact h.rest d (List.mem_of_getElem? hd)
  members id d hid hd := by
    obtain ⟨howner, -, hs, hnext⟩ := hds.members d (mem_of_definition?_meeting hid hd)
    rw [hs]
    exact ⟨howner, by simp, by simp, hnext⟩
  named x hx := by
    obtain ⟨d, hd, hname⟩ := hds.named x hx
    obtain ⟨i, hi⟩ := List.getElem?_of_mem hd
    refine ⟨k.met + i, d, Nat.le_add_right _ _, ?_, hname⟩
    show (k.session.definitions ++ ds)[k.session.definitions.length + i]? = some d
    rw [List.getElem?_append_right (Nat.le_add_right _ _), Nat.add_sub_cancel_left, hi]

omit hds in
/-- Once all builds have ended, no more builds can begin than definitions are met. -/
theorem met_meeting_le (hrest : ∀ d ∈ k.session.definitions, d.state.isFinal = true)
    (hn : ds.length ≤ n) : (k.meeting ds).met ≤ (k.meeting ds).begun + n := by
  have hbegun : k.session.definitions.countP hasBegun = k.session.definitions.length := by
    rw [List.countP_eq_length]
    intro d hd
    have hfinal := hrest d hd
    revert hfinal
    cases hs : d.state <;> simp [hasBegun, hs, BuildState.isFinal]
  have hle : k.met ≤ (k.meeting ds).begun := by
    show k.session.definitions.length ≤ (k.session.definitions ++ ds).countP hasBegun
    rw [List.countP_append, hbegun]
    exact Nat.le_add_right _ _
  rw [met_meeting]
  omega

/-- No macro of the ring is built yet. -/
theorem Ready.poised (h : k.Ready owner names) (hn : ds.length ≤ n) :
    (k.meeting ds).Poised owner names k.met n where
  ring := h.ring hds
  alert id d hid hd hs := by
    rw [(hds.members d (mem_of_definition?_meeting hid hd)).2.2.1] at hs
    cases hs
  known := h.known
  budget := met_meeting_le h.rest hn
  still id d hid hd := .inl (hds.members d (mem_of_definition?_meeting hid hd)).2.2.1

end Ring

end Work

/-- A statement that defines a macro. -/
theorem Node.eq_of_spec? {n : Node} {spec : MacroSpec} (h : n.spec? = some spec) :
    n = ⟨n.span, .macroDef spec.name spec.args spec.body none⟩ := by
  obtain ⟨s, f⟩ := n
  unfold spec? at h
  split at h
  · rename_i heq
    cases heq
    cases h
    rfl
  · cases h

namespace Typer

open TypeM

variable {owner : String} {names : List String} {first n : Nat} {env : Typer} {scope : Scope}
  {t : Typing}

/-! ### Definitions -/

/-- The numbers that the definitions of a body get, from `m` on. -/
def numbering : Nat → List Node → List (Option Nat)
  | _, [] => []
  | m, n :: ns =>
    if n.spec?.isSome then some m :: numbering (m + 1) ns else none :: numbering m ns

/-- A definition is met when the body in which it stands is entered. -/
theorem register_eq (spec : MacroSpec) (owner : String) (s : Span) (t : Typing) :
    register spec owner s t = .ok (t.work.met, { t with
      work := t.work.meeting [{ spec, owner, span := s, source := t.work.session.source }] }) :=
  rfl

/-- The definitions of a body that declares no methods are met before the body is typed. -/
theorem prescan_eq (howner : scope.selfType.owner = some owner) {items : List Node}
    (h : ∀ n ∈ items, n.spec?.isSome = true ∨ n.declares = false) (t : Typing) :
    prescan scope items t = .ok (numbering t.work.met items, { t with
      work := t.work.meeting (MacroDefinition.ofItems owner t.work.session.source items) }) := by
  induction items generalizing t with
  | nil =>
    rw [prescan, numbering, MacroDefinition.ofItems, List.filterMap_nil, Work.meeting_nil]
    rfl
  | cons n items ih =>
    have hrest := ih fun m hm => h m (List.mem_cons_of_mem _ hm)
    cases hspec : n.spec? with
    | some spec =>
      obtain hn := Node.eq_of_spec? hspec
      have hitems : MacroDefinition.ofItems owner t.work.session.source (n :: items) =
          [{ spec, owner, span := n.span, source := t.work.session.source }] ++
            MacroDefinition.ofItems owner t.work.session.source items := by
        simp [MacroDefinition.ofItems, MacroDefinition.ofItem?, hspec]
      rw [numbering, hspec, Option.isSome_some, if_pos rfl, hitems, ← Work.meeting_meeting, hn, prescan]
      simp only [howner, TypeM.bind_apply, register_eq, hrest, TypeM.pure_apply, Work.met_meeting]
      rfl
    | none =>
      have hquiet : n.declares = false := by simpa [hspec] using h n List.mem_cons_self
      have hitems : MacroDefinition.ofItems owner t.work.session.source (n :: items) =
          MacroDefinition.ofItems owner t.work.session.source items := by
        simp [MacroDefinition.ofItems, MacroDefinition.ofItem?, hspec]
      rw [numbering, hspec, hitems, prescan]
      · simp only [TypeM.bind_apply, hrest, TypeM.pure_apply]
        rfl
      · rintro s name args body rfl
        cases hquiet
      · rintro s name params returns body rfl
        cases hquiet

/-! ### Statements -/

/-- A call on a value for which the search fails is left alone. -/
theorem leads_call_of_error {target : Node} {x : String} {args : List Node} {block : Option Node}
    {s : Span} {type : TypeRef} {t' : Typing} {e : Diagnostic}
    (htarget : env.infer scope target t = .ok ((target, type), t))
    (h : env.findMacro x args.length block.isSome s type.owner.toList t = .ok (.error e, t')) :
    Leads (env.infer scope ⟨s, .call target x args block⟩) t
      { t' with errors := t'.errors ++ [e] } := by
  rw [infer]
  exact .bind_eq htarget (.bind_eq h (.bind_eq rfl (.pure _)))

/-- A name for which the search fails is left alone, unless it is a local variable. -/
theorem leads_ident_of_error {x : String} {s : Span} {t' : Typing} {e : Diagnostic}
    (hlocal : t.locals.get? x = none)
    (h : env.findMacro x 0 false s scope.macroOwners t = .ok (.error e, t')) :
    Leads (env.infer scope ⟨s, .ident x⟩) t { t' with errors := t'.errors ++ [e] } := by
  rw [infer]
  refine .bind_eq (a := t) rfl ?_
  rw [hlocal, inferName]
  exact .bind_eq h (.bind_eq rfl (.pure _))

/-- The name of a type that is there. -/
theorem infer_constant (hknown : t.work.session.types.contains owner = true) (s : Span) :
    env.infer scope ⟨s, .constant owner⟩ t = .ok ((⟨s, .constant owner⟩, .classOf owner), t) := by
  simp only [infer, constantType, TypeM.bind_apply, TypeM.session_apply, hknown, if_true,
    TypeM.pure_apply]

/-- A statement that is no definition is typed like any tree, and the ones behind it keep their
    numbers. -/
theorem leads_cons_other {i : Node} {items : List Node} (hi : i.spec? = none)
    {ids : List (Option Nat)} {t' t'' : Typing} (h : Leads (env.infer scope i) t t')
    (hitems : ∀ type, Leads (env.inferItems scope type ids items) t' t'') (type : TypeRef) :
    Leads (env.inferItems scope type (none :: ids) (i :: items)) t t'' := by
  rw [inferItems]
  · exact .bind h fun _ => .bind (hitems _) fun _ => .pure _
  · rintro s name args body id rfl -
    cases hi

/-- A definition that was met is built. -/
theorem leads_cons_definition {i : Node} {items : List Node} {spec : MacroSpec}
    (hi : i.spec? = some spec) {id : Nat} {ids : List (Option Nat)} {t' t'' : Typing}
    (h : Leads (env.inferDefinition scope i.span spec (some id)) t t')
    (hitems : ∀ type, Leads (env.inferItems scope type ids items) t' t'') (type : TypeRef) :
    Leads (env.inferItems scope type (some id :: ids) (i :: items)) t t'' := by
  rw [Node.eq_of_spec? hi, inferItems]
  · exact .bind h fun _ => .bind (hitems _) fun _ => .pure _
  · rfl

section Statements

variable (hbuild : BuildsFail owner names first n env.build)
include hbuild

/-- A call of a macro of a ring reports an error, and makes more macros fail at most. -/
theorem fails_calls {c : Node} (hcall : c.Calls scope.selfType.owner owner names)
    (hlocals : t.locals = {}) (ht : t.work.Poised owner names first n) :
    ∃ e work, Leads (env.infer scope c) t { t with work, errors := t.errors ++ [e] } ∧
      t.work.Fails work ∧ work.Alert first := by
  have hfind {x : String} (hx : x ∈ names) (argc : Nat) (block : Bool) (s : Span)
      (owners : List String) : ∃ e work, env.findMacro x argc block s (owner :: owners) t =
        .ok (.error e, { t with work }) ∧ t.work.Fails work ∧ work.Alert first := by
    obtain ⟨e, work, hfind, hfails, halert, -⟩ :=
      fails_findMacro hbuild hx argc block s owners ht.ring ht.alert ht.budget
    exact ⟨e, work, hfind, hfails, halert⟩
  cases hcall with
  | @name s x hself hx =>
    obtain ⟨owners, howners⟩ := exists_macroOwners hself
    obtain ⟨e, work, hfind, hrest⟩ := hfind hx 0 false s owners
    exact ⟨e, work, leads_ident_of_error (by rw [hlocals]; rfl) (howners ▸ hfind), hrest⟩
  | @invoke s x args block hself hx =>
    obtain ⟨owners, howners⟩ := exists_macroOwners hself
    obtain ⟨e, work, hfind, hrest⟩ := hfind hx args.length block.isSome s owners
    exact ⟨e, work, leads_invoke_of_error (howners ▸ hfind), hrest⟩
  | @onSelf s s' x args block hself hx =>
    obtain ⟨e, work, hfind, hrest⟩ := hfind hx args.length block.isSome s []
    have htarget : env.infer scope ⟨s', .self⟩ t = .ok ((⟨s', .self⟩, scope.selfType), t) := by
      simp only [infer, TypeM.pure_apply]
    exact ⟨e, work, leads_call_of_error htarget (by rw [hself]; exact hfind), hrest⟩
  | @onOwner s s' x args block hx =>
    obtain ⟨e, work, hfind, hrest⟩ := hfind hx args.length block.isSome s []
    exact ⟨e, work, leads_call_of_error (infer_constant ht.known s') hfind, hrest⟩

/-- A definition of a ring fails, and the failure is reported. -/
theorem fails_inferDefinition {s : Span} {spec : MacroSpec} {id : Nat}
    (ht : t.work.Poised owner names first n) (hid : first ≤ id) (hmet : id < t.work.met) :
    ∃ e work, Leads (env.inferDefinition scope s spec (some id)) t
        { t with work, errors := t.errors ++ [e] } ∧ t.work.Fails work ∧ work.Detected first ∧
      ∃ d', work.session.definition? id = some d' ∧ d'.state = .failed ∧ d'.failure = some e := by
  have hd : t.work.session.definition? id = some (t.work.session.definitions[id]) :=
    List.getElem?_eq_getElem hmet
  obtain ⟨e, work, hrun, hfails, hdetected, hfailed⟩ :=
    hbuild t id _ ht.ring ht.alert ht.budget hid hd (ht.still id _ hid hd)
  refine ⟨e, work, ?_, hfails, hdetected, hfailed⟩
  rw [inferDefinition]
  exact .bind_eq (a := id) rfl (.bind_eq hrun (.bind_eq rfl (.pure _)))

/-- The statements of a body, from some number on: every definition fails, and each failure is
    among the errors. -/
theorem fails_items {items : List Node} {m : Nat}
    (hitems : ∀ i ∈ items, i.spec?.isSome = true ∨ i.Calls scope.selfType.owner owner names)
    (hlocals : t.locals = {}) (ht : t.work.Poised owner names first n) (hfirst : first ≤ m)
    (hmet : m + (items.filterMap Node.spec?).length ≤ t.work.met) :
    ∃ es work, (∀ type, Leads (env.inferItems scope type (numbering m items) items) t
        { t with work, errors := t.errors ++ es }) ∧ t.work.Fails work ∧ work.Alert first ∧
      ∀ id, m ≤ id → id < m + (items.filterMap Node.spec?).length →
        ∃ d e, work.session.definition? id = some d ∧ d.state = .failed ∧ d.failure = some e ∧
          e ∈ es := by
  induction items generalizing t m with
  | nil =>
    refine ⟨[], t.work, fun type => ?_, .refl _, ht.alert, fun id hm hid => ?_⟩
    · rw [numbering, List.append_nil]
      exact leads_nil type [] t
    · exact absurd hid (Nat.not_lt.2 hm)
  | cons i items ih =>
    have hrest := fun j hj => hitems j (List.mem_cons_of_mem _ hj)
    cases hspec : i.spec? with
    | none =>
      obtain ⟨e, work, hleads, hfails, halert⟩ :=
        fails_calls hbuild (by simpa [hspec] using hitems i List.mem_cons_self) hlocals ht
      rw [List.filterMap_cons_none hspec] at hmet ⊢
      obtain ⟨es, work', hleads', hfails', halert', hfailed⟩ :=
        ih (t := { t with work, errors := t.errors ++ [e] }) hrest hlocals (ht.fails hfails halert)
          hfirst (by rw [hfails.met]; exact hmet)
      refine ⟨e :: es, work', fun type => ?_, hfails.trans hfails', halert', fun id hm hid => ?_⟩
      · rw [numbering, hspec, List.append_cons]
        exact leads_cons_other hspec hleads hleads' type
      · obtain ⟨d, e', hd, hs, he, hmem⟩ := hfailed id hm hid
        exact ⟨d, e', hd, hs, he, List.mem_cons_of_mem _ hmem⟩
    | some spec =>
      rw [List.filterMap_cons_some hspec, List.length_cons] at hmet ⊢
      obtain ⟨e, work, hleads, hfails, hdetected, d, hd, hs, he⟩ :=
        @fails_inferDefinition _ _ _ _ _ _ _ hbuild i.span spec _ ht hfirst (by omega)
      obtain ⟨es, work', hleads', hfails', halert', hfailed⟩ :=
        ih (t := { t with work, errors := t.errors ++ [e] }) hrest hlocals
          (ht.fails hfails fun _ _ _ _ _ => hdetected) (Nat.le_succ_of_le hfirst)
          (by rw [hfails.met]; omega)
      refine ⟨e :: es, work', fun type => ?_, hfails.trans hfails', halert', fun id hm hid => ?_⟩
      · rw [numbering, hspec, List.append_cons]
        exact leads_cons_definition hspec hleads hleads' type
      · -- the first one has failed already
        rcases Nat.eq_or_lt_of_le hm with rfl | hlt
        · exact ⟨d, e, hfails'.failed hd (by rw [hs]; decide), hs, he, List.mem_cons_self⟩
        · obtain ⟨d', e', hd', hs', he', hmem⟩ := hfailed id hlt (by omega)
          exact ⟨d', e', hd', hs', he', List.mem_cons_of_mem _ hmem⟩

end Statements

/-! ### Bodies -/

/-- Whether the statements of a body define the macros of a ring and call them, and do nothing
    else. -/
structure DefinesRing (inline : InlineMacros) (selfOwner : Option String) (owner : String)
    (names : List String) (items : List Node) : Prop where
  statements : ∀ i ∈ items, i.Calls selfOwner owner names ∨ ∃ spec next, i.spec? = some spec ∧
    spec.name ∈ names ∧ next ∈ names ∧ spec.Requires inline next
  named : ∀ x ∈ names, ∃ i ∈ items, ∃ spec, i.spec? = some spec ∧ spec.name = x

variable {inline : InlineMacros} {selfOwner : Option String} {items : List Node} {source : String}

theorem DefinesRing.areRing (h : DefinesRing inline selfOwner owner names items)
    (source : String) :
    MacroDefinition.AreRing owner names inline (MacroDefinition.ofItems owner source items) where
  members d hd := by
    obtain ⟨i, hi, hd⟩ := List.mem_filterMap.1 hd
    obtain ⟨spec, hspec, rfl⟩ := Option.map_eq_some_iff.1 hd
    rcases h.statements i hi with hcall | ⟨spec', next, hspec', hname, hnext, hrequires⟩
    · cases hcall <;> cases hspec
    · rw [hspec] at hspec'
      cases hspec'
      exact ⟨rfl, hname, rfl, next, hnext, hrequires⟩
  named x hx := by
    obtain ⟨i, hi, spec, hspec, hname⟩ := h.named x hx
    exact ⟨_, List.mem_filterMap.2 ⟨i, hi, congrArg (Option.map _) hspec⟩, hname⟩

theorem length_ofItems (owner source : String) (items : List Node) :
    (MacroDefinition.ofItems owner source items).length = (items.filterMap Node.spec?).length := by
  induction items with
  | nil => rfl
  | cons i items ih =>
    unfold MacroDefinition.ofItems MacroDefinition.ofItem? at ih ⊢
    cases hspec : i.spec? <;> simp [hspec, ih]

/-- A body that defines the macros of a ring: all of them fail. -/
theorem fails_ring {s : Span} (henv : env.build = require n)
    (hself : scope.selfType.owner = some owner) (hlocals : t.locals = {})
    (hready : t.work.Ready owner names)
    (hitems : DefinesRing t.work.session.inline scope.selfType.owner owner names items)
    (hn : (MacroDefinition.ofItems owner t.work.session.source items).length ≤ n) :
    let ds := MacroDefinition.ofItems owner t.work.session.source items
    ∃ es work, Leads (env.infer scope ⟨s, .body items⟩) t
        { t with work, errors := t.errors ++ es } ∧ (t.work.meeting ds).Fails work ∧
      work.Poised owner names t.work.met n ∧ ∀ id, t.work.met ≤ id → id < t.work.met + ds.length →
        ∃ d e, work.session.definition? id = some d ∧ d.state = .failed ∧ d.failure = some e ∧
          e ∈ es := by
  intro ds
  have hds := hitems.areRing t.work.session.source
  have hlength : ds.length = (items.filterMap Node.spec?).length := length_ofItems _ _ _
  have hstatements (i : Node) (hi : i ∈ items) : i.spec?.isSome = true ∨
      i.Calls scope.selfType.owner owner names := by
    rcases hitems.statements i hi with hcall | ⟨spec, next, hspec, -⟩
    · exact .inr hcall
    · exact .inl (by rw [hspec]; rfl)
  -- the definitions are met, and then the statements are typed one after the other
  let start : Typing := { t with work := t.work.meeting ds }
  have hpoised : start.work.Poised owner names t.work.met n :=
    hready.poised hds hn
  obtain ⟨es, work, hleads, hfails, halert, hfailed⟩ := @fails_items _ _ _ _ env scope
    start (henv ▸ fails_require n) _ _ hstatements hlocals hpoised (Nat.le_refl _)
    (by rw [Work.met_meeting, hlength])
  refine ⟨es, work, ?_, hfails, hpoised.fails hfails halert, hlength ▸ hfailed⟩
  rw [infer]
  exact .bind_eq (prescan_eq hself (fun i hi => (hstatements i hi).imp_right fun h => h.declares.2) t)
    (.bind (hleads _) fun _ => .pure _)

/-- A class is opened for definitions.  No definitions are met. -/
theorem openClass_eq (name : String) (superclass : Option String) (s : Span) (t : Typing) :
    ∃ es, openClass name superclass s t =
        .ok ((), { t with work := t.work.opening name superclass s, errors := t.errors ++ es }) ∧
      (t.work.opening name superclass s).session.definitions = t.work.session.definitions ∧
      (t.work.opening name superclass s).session.types.contains name = true := by
  obtain ⟨es, hopen⟩ := openClass_apply name superclass s t.work
  have hwork : t.work.opening name superclass s = t.work.opened name superclass := by
    rw [Work.opening, hopen { work := t.work } rfl]
  rw [hwork]
  exact ⟨es, hopen t rfl, t.work.definitions_opened name superclass,
    t.work.contains_opened name superclass⟩

end Typer

namespace Work

open Typer TypeM

variable {owner : String} {names : List String} {items : List Node} {k start : Work} {tree : Node}

/-- Whether a program holds a body of an owner, and in which session the body is typed: it is the
    script itself, or that of a class, behind which there may be calls of macros of the class. -/
inductive Encloses (k : Work) (owner : String) (names : List String) (items : List Node) :
    Node → Work → Prop
  | script {s : Span} (howner : owner = k.session.settings.scriptType) :
    Encloses k owner names items ⟨s, .body items⟩ k
  | inClass {s s' s'' : Span} {superclass : Option String} {calls : List Node}
    (hself : (TypeRef.ofName owner).owner = some owner)
    (hcalls : ∀ c ∈ calls, c.Calls (some k.session.settings.scriptType) owner names) :
    Encloses k owner names items
      ⟨s, .body (⟨s', .classDef owner superclass ⟨s'', .body items⟩⟩ :: calls)⟩
      (k.opening owner superclass s')

/-- The type of `self` in such a body is the owner. -/
theorem fails_program {env : Typer} {n : Nat} (henv : env.build = require n)
    (h : k.Encloses owner names items tree start) (hready : start.Ready owner names)
    (hitems : DefinesRing start.session.inline (some owner) owner names items)
    (hn : (MacroDefinition.ofItems owner start.session.source items).length ≤ n) :
    let ds := MacroDefinition.ofItems owner start.session.source items
    ∃ es work, Leads (env.infer (Scope.script k.session.settings.scriptType) tree)
        { work := k } { work, errors := es } ∧ (start.meeting ds).Fails work ∧
      work.Alert start.met ∧ ∀ id, start.met ≤ id → id < start.met + ds.length →
        ∃ d e, work.session.definition? id = some d ∧ d.state = .failed ∧ d.failure = some e ∧
          e ∈ es := by
  intro ds
  cases h with
  | script howner =>
    obtain ⟨es, work, hleads, hfails, hpoised, hfailed⟩ :=
      @fails_ring _ _ _ _ (Scope.script k.session.settings.scriptType) { work := k } _ _ henv
        (congrArg some howner.symm) rfl hready (howner ▸ hitems) hn
    exact ⟨es, work, hleads, hfails, hpoised.alert, hfailed⟩
  | @inClass s s' s'' superclass calls hself hcalls =>
    let scope := Scope.script k.session.settings.scriptType
    obtain ⟨es₀, hopen, hdefinitions, -⟩ := openClass_eq owner superclass s' { work := k }
    have hmet : (k.opening owner superclass s').met = k.met := congrArg List.length hdefinitions
    -- the body of the class
    let inside : Typing := { work := k.opening owner superclass s', errors := es₀ }
    obtain ⟨es, work, ⟨p, hp⟩, hfails, hpoised, hfailed⟩ :=
      @fails_ring _ _ _ _ (scope.inClass (.ofName owner)) inside _ s'' henv hself rfl
        hready (hself ▸ hitems) hn
    have hclass : Leads (env.infer scope ⟨s', .classDef owner superclass ⟨s'', .body items⟩⟩)
        { work := k } { work, errors := es₀ ++ es } := by
      rw [Typer.infer]
      exact .bind_eq hopen (.bind_eq (@TypeM.withLocals_eq _ {} _ _ _ _ hp) (.pure _))
    -- the calls behind it, where no definition has a number
    let body : List Node := ⟨s', .classDef owner superclass ⟨s'', .body items⟩⟩ :: calls
    have hnone (c : Node) (hc : c ∈ body) : c.spec? = none ∧ c.declares = false := by
      rcases List.mem_cons.1 hc with rfl | hc
      · exact ⟨rfl, rfl⟩
      · exact (hcalls c hc).declares
    have hscan := @prescan_eq k.session.settings.scriptType scope rfl _
      (fun c hc => .inr (hnone c hc).2) { work := k }
    have hempty : MacroDefinition.ofItems k.session.settings.scriptType k.session.source body = [] :=
      List.filterMap_eq_nil_iff.2 fun c hc => by
        rw [MacroDefinition.ofItem?, (hnone c hc).1, Option.map_none]
    have hcount : calls.filterMap Node.spec? = [] :=
      List.filterMap_eq_nil_iff.2 fun c hc => (hnone c (List.mem_cons_of_mem _ hc)).1
    obtain ⟨es', work', hcallsLead, hfails', halert, -⟩ := @fails_items _ _ _ _ env scope
      { work, errors := es₀ ++ es } (henv ▸ fails_require n) _ k.met
      (fun c hc => .inr (hcalls c hc)) rfl hpoised (Nat.le_of_eq hmet) (by
        rw [hcount]
        have := hfails.met
        rw [met_meeting, show inside.work.met = k.met from hmet] at this
        show k.met + 0 ≤ work.met
        omega)
    refine ⟨es₀ ++ es ++ es', work', ?_, hfails.trans hfails', halert, fun id hid hlt => ?_⟩
    · rw [Typer.infer]
      rw [hempty, meeting_nil] at hscan
      exact .bind_eq hscan (.bind (leads_cons_other rfl hclass hcallsLead _) fun _ => .pure _)
    · obtain ⟨d, e, hd, hs, he, hmem⟩ := hfailed id hid hlt
      exact ⟨d, e, hfails'.failed hd (by rw [hs]; decide), hs, he,
        List.mem_append_left _ (List.mem_append_right _ hmem)⟩

/-- What is left of a ring whose definitions are `ds`, after a compilation with the result `r`:
    each definition has failed, with a failure that is reported, and nothing is registered. -/
structure Detects (start : Work) (ds : List MacroDefinition) (r : Except Diagnostic Compilation)
    (k' : Work) : Prop where
  met : k'.met = start.met + ds.length
  earlier : ∀ id < start.met, k'.session.definition? id = start.session.definition? id
  failed : ∀ i d, ds[i]? = some d → ∃ unit e, k'.session.definition? (start.met + i) =
    some { d with state := .failed, unit, failure := some e } ∧ ∀ c, r = .ok c → e ∈ c.errors
  tooEarly : ds ≠ [] → k'.Detected start.met
  entries : ∀ name, k'.session.types.entriesOf name = start.session.types.entriesOf name
  records : ∀ name, k'.session.types.recordsOf name = start.session.types.recordsOf name
  ends : ∀ e, r = .error e → e.cause.category = .environment

/-- Whether a script calls `a`, whose macro then needs `b`, and the other way round. -/
def isPair : Node → Bool
  | ⟨_, .body [⟨_, .invoke w [] none⟩,
      ⟨_, .macroDef x [] ⟨_, .body [⟨_, .invoke x' [] none⟩]⟩ none⟩,
      ⟨_, .macroDef y [] ⟨_, .body [⟨_, .int _⟩, ⟨_, .invoke y' [⟨_, .int _⟩] none⟩]⟩ none⟩]⟩ =>
    [w, x, x', y, y'] == ["a", "a", "b", "b", "a"]
  | _ => false

theorem definesRing_of_isPair {inline : NameMap InlineMacro} {n : Node} (h : isPair n) :
    ∃ s items, n = ⟨s, .body items⟩ ∧
      DefinesRing inline (some "Script") "Script" ["a", "b"] items ∧
      ∀ source, (MacroDefinition.ofItems "Script" source items).map (·.spec.name) = ["a", "b"] := by
  unfold isPair at h
  split at h
  · rename_i s w s₁ x s₂ s₃ x' s₄ y s₅ s₆ i s₇ y' s₈ j
    obtain ⟨rfl, rfl, rfl, rfl, rfl⟩ : w = "a" ∧ x = "a" ∧ x' = "b" ∧ y = "b" ∧ y' = "a" := by
      simpa using h
    refine ⟨_, _, rfl, ⟨fun c hc => ?_, fun x hx => ?_⟩, fun _ => rfl⟩
    · simp only [List.mem_cons, List.not_mem_nil, or_false] at hc
      rcases hc with rfl | rfl | rfl
      · exact .inl (.invoke rfl List.mem_cons_self)
      · exact .inr ⟨_, "b", rfl, List.mem_cons_self, by decide,
          ⟨_, [], _, [], [], rfl, by simp, by simp, by simp⟩, by simp⟩
      · refine .inr ⟨_, "a", rfl, List.mem_cons_of_mem _ List.mem_cons_self, by decide,
          ⟨_, [⟨_, .int i⟩], _, [⟨_, .int j⟩], [], rfl, ?_, by simp, ?_⟩, by simp⟩
        · exact fun m hm => by rw [List.mem_singleton.1 hm]; rfl
        · exact fun m hm => .inl (by rw [List.mem_singleton.1 hm]; rfl)
    · simp only [List.mem_cons, List.not_mem_nil, or_false] at hx
      rcases hx with rfl | rfl
      · exact ⟨_, List.mem_cons_of_mem _ List.mem_cons_self, _, rfl, rfl⟩
      · exact ⟨_, List.mem_cons_of_mem _ (List.mem_cons_of_mem _ List.mem_cons_self), _, rfl, rfl⟩
  · cases h

/-- Whether a failure is that of a macro which is required before it is defined. -/
def isTooEarly : Cause → Bool
  | .requiredTooEarly _ => true
  | _ => false

/-- Whether a definition has failed otherwise, whose macro calls itself with its own argument, named
    as the inline macro that defines macros. -/
def isAliased : MacroDefinition → Bool
  | ⟨⟨x, [.required y], ⟨_, .body [⟨_, .invoke x' [⟨_, .ident y'⟩] none⟩]⟩⟩, _, _, _, .failed, _,
      some e⟩ => [x, x', y, y'] == ["a", "a", "macro", "macro"] && !isTooEarly e.cause
  | _ => false

theorem of_isAliased {d : MacroDefinition} (h : isAliased d) :
    ∃ e s s' s'', d.spec = ⟨"a", [.required "macro"],
        ⟨s, .body [⟨s', .invoke "a" [⟨s'', .ident "macro"⟩] none⟩]⟩⟩ ∧
      d.state = .failed ∧ d.failure = some e ∧ ∀ x, e.cause ≠ .requiredTooEarly x := by
  unfold isAliased at h
  split at h
  · rename_i e
    rw [Bool.and_eq_true] at h
    obtain ⟨hnames, hcause⟩ := h
    obtain ⟨rfl, rfl, rfl, rfl⟩ : _ = "a" ∧ _ = "a" ∧ _ = "macro" ∧ _ = "macro" := by
      simpa using hnames
    refine ⟨e, _, _, _, rfl, rfl, rfl, fun x hx => ?_⟩
    rw [hx] at hcause
    cases hcause
  · cases h

end Work

end Quasiquote
