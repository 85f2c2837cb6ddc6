import Quasiquote.Proofs.Session.Owners

namespace Quasiquote

/-!
# Macros of classes — where the macros in the body of a class belong

The macros that stand directly in the body of a class are those of the type that has been opened
under its name, unless that is the name of a type without values of its own.  Once such a macro has
been built, the table of the type has it, and calls on the class find it there.

* `Typer.defines_of_body` — the definitions of a body;
* `Work.Lists`, `Typer.Finds` — a table that has a macro, and calls that find it;
* `Typer.registered_on_class` — the macros of a class, and the tables of all other types.
-/

namespace TypeRegistry

variable {r : TypeRegistry} {o x : String} {argc : Nat} {block : Bool} {e : MacroEntry}

/-- A type looks at its own table first. -/
theorem lookupMacro_of_find? (h : (r.entriesOf o).find? (·.fits x argc block) = some e) :
    r.lookupMacro o x argc block = some e := by
  cases hget : r.get? o with
  | none =>
    rw [entriesOf, hget] at h
    cases h
  | some t =>
    have hresolve : t.macros.resolve x argc block = some e := by
      rwa [entriesOf_of_get? hget] at h
    have hfirst : ∃ above, r.ancestors o = t :: above := by
      unfold ancestors
      rw [hget]
      cases r.types.size <;> exact ⟨_, rfl⟩
    obtain ⟨above, habove⟩ := hfirst
    rw [lookupMacro, habove, List.findSome?_cons, hresolve]

end TypeRegistry

namespace Work

variable {o : String} {m : MacroSpec} {k₀ k : Work} {argc : Nat} {block : Bool}

/-- Whether the table of a type has an entry for each signature of a macro, made by a definition of
    the type that had not been concluded in `k₀`. -/
def Lists (k₀ : Work) (o : String) (m : MacroSpec) (k : Work) : Prop :=
  ∀ form ∈ m.forms, ∃ e ∈ k.session.types.entriesOf o, e.key = (m.name, form.1) ∧ k₀.Makes o e k

/-- What has been resolved is listed. -/
theorem Tended.lists (h : k₀.Tended o k) {id : Nat} {d : MacroDefinition}
    (hd : k.session.definition? id = some d) (howner : d.owner = o) (hs : d.state = .resolved)
    (hopen : ¬ k₀.Concluded id) : k₀.Lists o d.spec k := by
  intro form hform
  obtain ⟨added, hadded⟩ := h.additions
  obtain ⟨u, -, hmem⟩ := hadded.listed id d hd howner hs hopen
  exact hadded.exists_key (hmem _ (List.mem_map_of_mem hform))

/-- A call that means one of the signatures is answered by some entry. -/
theorem Lists.exists_find? (h : k₀.Lists o m k) (hform : (m.form? argc block).isSome = true) :
    ∃ e, (k.session.types.entriesOf o).find? (·.fits m.name argc block) = some e := by
  obtain ⟨form, hform⟩ := Option.isSome_iff_exists.1 hform
  obtain ⟨e, he, hkey, -⟩ := h form (List.mem_of_find?_eq_some hform)
  have haccepts : form.1.accepts argc block = true := by simpa using List.find?_some hform
  have hfits : e.fits m.name argc block = true := by
    obtain ⟨hname, hsignature⟩ := Prod.mk.inj hkey
    simp [MacroEntry.fits, hname, hsignature, haccepts]
  exact Option.isSome_iff_exists.1 (List.find?_isSome.2 ⟨e, he, hfits⟩)

end Work

namespace Typer

open TypeM Work

/-! ### Bodies -/

/-- Typing where some expansions are left is typing with some environment. -/
theorem exists_within (build : Nat → TypeM (Except Diagnostic Unit)) (left : Nat) :
    ∃ env : Typer, env.build = build ∧ within build left = env.infer := by
  cases left with
  | zero => exact ⟨⟨build, expansionLimit, none⟩, rfl, rfl⟩
  | succ left =>
    exact ⟨⟨build, expansionLimit - (left + 1), some (within build left)⟩, rfl, rfl⟩

/-- A definition with a number is left to its build. -/
theorem leads_inferDefinition {env : Typer} {scope : Scope} {id : Nat} {t t' : Typing}
    (h : env.build id t = .ok (.ok (), t')) (s : Span) (spec : MacroSpec) :
    Leads (env.inferDefinition scope s spec (some id)) t t' := by
  rw [inferDefinition]
  exact .bind_eq (a := id) rfl (.bind_eq h (.pure _))

section Bodies

variable {env : Typer} {scope : Scope} {owner : String} {t t' : Typing} {p : Node × TypeRef}
  (hruns : ∀ id, Runs (env.build id)) (howner : scope.selfType.owner = some owner)

/-- A definition without a number is met first. -/
theorem inferDefinition_none (howner : scope.selfType.owner = some owner) (s : Span)
    (spec : MacroSpec) (t : Typing) :
    let d : MacroDefinition := { spec, owner, span := s, source := t.work.session.source }
    env.inferDefinition scope s spec none t =
      env.inferDefinition scope s spec (some t.work.met) { t with work := t.work.meeting [d] } := by
  have hself : scope.owner = owner := by
    rw [Scope.owner, howner]
    rfl
  simp only [inferDefinition, TypeM.bind_apply, TypeM.pure_apply, hself, register_eq]

include hruns howner

/-- A body that is nothing but a definition. -/
theorem defines_of_definition {s : Span} {spec : MacroSpec}
    (hrun : env.infer scope ⟨s, .macroDef spec.name spec.args spec.body none⟩ t = .ok (p, t')) :
    t'.work.Defines t.work.met { spec, owner, span := s, source := t.work.session.source } := by
  let d : MacroDefinition := { spec, owner, span := s, source := t.work.session.source }
  have hmet : (t.work.meeting [d]).Defines t.work.met d :=
    ⟨d, by simp [Work.meeting, Work.met, Session.definition?], rfl, rfl⟩
  have hbuild (id : Nat) : running.Rel (env.build id) (env.build id) := hruns id
  have hrest : Runs (env.inferDefinition scope s spec (some t.work.met)) :=
    Congruence.rel_inferDefinition (C := running.toCongruence) hbuild scope s spec _
  rw [infer, inferDefinition_none howner] at hrun
  exact hmet.run (hrest.run hrun)

/-- A body of several items, the definitions of which are met before the items are typed. -/
theorem defines_of_items {s : Span} {items : List Node}
    (htyped : ∀ n, Runs (env.infer scope n))
    (hrun : env.infer scope ⟨s, .body items⟩ t = .ok (p, t')) {i : Nat} {d : MacroDefinition}
    (hd : (MacroDefinition.ofItems owner t.work.session.source items)[i]? = some d) :
    t'.work.Defines (t.work.met + i) d := by
  obtain ⟨ids, types, hscan, -⟩ := prescan_apply howner items t
  let session : Session := { t.work.session with
    types
    definitions := t.work.session.definitions ++
      MacroDefinition.ofItems owner t.work.session.source items }
  have hmet : Defines { t.work with session } (t.work.met + i) d := by
    refine ⟨d, ?_, rfl, rfl⟩
    show (t.work.session.definitions ++ MacroDefinition.ofItems owner t.work.session.source items)[
      t.work.session.definitions.length + i]? = some d
    rw [List.getElem?_append_right (Nat.le_add_right _ _), Nat.add_sub_cancel_left]
    exact hd
  have hbuild (id : Nat) : running.Rel (env.build id) (env.build id) := hruns id
  have hitems : Runs (env.inferItems scope .nil ids items) :=
    Congruence.rel_inferItems (C := running.toCongruence) hbuild scope .nil ids items
      fun n _ => htyped n
  have hrest := hitems.bind fun q => running.pure ((⟨s, .body q.1⟩ : Node), q.2)
  rw [infer, TypeM.bind_apply, hscan] at hrun
  exact hmet.run (hrest.run hrun)

end Bodies

variable {n left : Nat} {scope : Scope} {body : Node} {t t' : Typing} {p : Node × TypeRef}

/-- The macros of a body are defined for the type of `self`, in order. -/
theorem defines_of_body {owner : String} (howner : scope.selfType.owner = some owner)
    (hrun : within (require n) left scope body t = .ok (p, t')) {i : Nat} {d : MacroDefinition}
    (hd : (MacroDefinition.ofItems owner t.work.session.source body.statements)[i]? = some d) :
    t'.work.Defines (t.work.met + i) d := by
  obtain ⟨env, hbuild, henv⟩ := exists_within (require n) left
  have hruns : ∀ id, Runs (env.build id) := hbuild ▸ runs_require n
  have htyped : ∀ n', Runs (env.infer scope n') := henv ▸ Runs.within (runs_require n) left scope
  rw [henv] at hrun
  by_cases hitems : ∃ s items, body = ⟨s, .body items⟩
  · obtain ⟨s, items, rfl⟩ := hitems
    exact defines_of_items hruns howner htyped hrun hd
  · have hone : body.statements = [body] := by
      unfold Node.statements
      split
      · exact absurd ⟨_, _, rfl⟩ hitems
      · rfl
    rw [hone] at hd
    -- anything but a definition defines nothing
    cases hspec : body.spec? with
    | none => simp [MacroDefinition.ofItems, MacroDefinition.ofItem?, hspec] at hd
    | some spec =>
      rw [Node.eq_of_spec? hspec] at hrun
      have hdefines := defines_of_definition hruns howner hrun
      have hd : [({ spec, owner, span := body.span, source := t.work.session.source } :
          MacroDefinition)][i]? = some d := by
        simpa [MacroDefinition.ofItems, MacroDefinition.ofItem?, hspec] using hd
      cases i with
      | zero => exact Option.some.inj hd ▸ hdefines
      | succ i => cases hd

/-! ### Calls -/

/-- Whether calls on a type, as a constant, in every shape that a macro accepts, are expanded by the
    first entry in the table of the type that answers them, where the macro is still listed, once all
    definitions of the name that wait could be tried. -/
def Finds (k₀ : Work) (o : String) (m : MacroSpec) (k : Work) : Prop :=
  ∀ (env : Typer) (n : Nat) (scope : Scope) (s s' : Span) (args : List Node) (block : Option Node)
    (t t' : Typing), env.build = require n → t.work = k →
    (m.form? args.length block.isSome).isSome = true →
    env.buildPending (k.session.pending o m.name) t = .ok (true, t') →
    k₀.Lists o m t'.work ∧
    ∃ e, (t'.work.session.types.entriesOf o).find? (·.fits m.name args.length block.isSome) = some e ∧
      env.infer scope ⟨s, .call ⟨s', .constant o⟩ m.name args block⟩ t =
        env.expand scope e ⟨s, .call ⟨s', .constant o⟩ m.name args block⟩ t'

/-- A call on a type that is known, the table of which has an entry that answers it. -/
theorem infer_call_constant {env : Typer} {o x : String} {args : List Node} {block : Option Node}
    {e : MacroEntry} (hknown : t.work.session.types.contains o = true)
    (htried : env.buildPending (t.work.session.pending o x) t = .ok (true, t'))
    (hfind : (t'.work.session.types.entriesOf o).find? (·.fits x args.length block.isSome) = some e)
    (s s' : Span) :
    env.infer scope ⟨s, .call ⟨s', .constant o⟩ x args block⟩ t =
      env.expand scope e ⟨s, .call ⟨s', .constant o⟩ x args block⟩ t' := by
  have hlookup := TypeRegistry.lookupMacro_of_find? hfind
  have hsearch : env.findMacro x args.length block.isSome s [o] t = .ok (.ok (some e), t') := by
    rw [findMacro]
    simp only [TypeM.bind_apply, TypeM.session_apply, htried, if_true, hlookup, TypeM.pure_apply]
  have hreceiver : (TypeRef.classOf o).owner.toList = [o] := rfl
  rw [infer, TypeM.bind_apply, infer_constant hknown]
  dsimp only
  rw [hreceiver, TypeM.bind_apply, hsearch]

/-- What has been resolved is found, whatever comes afterwards. -/
theorem finds_of_tended {k₀ k : Work} {o : String} {id : Nat} {d : MacroDefinition}
    (h : k₀.Tended o k) (hd : k.session.definition? id = some d) (howner : d.owner = o)
    (hs : d.state = .resolved) (hopen : ¬ k₀.Concluded id) : Finds k₀ o d.spec k := by
  intro env n scope s s' args block t t' hbuild ht hform htried
  subst ht
  have hkept : ∀ k₁ : Work, k₁.Tended o t.work → k₁.Tended o t'.work := by
    intro k₁ h₁
    have hbuilds : ∀ id, Preserves (k₁.Tended o) (env.build id) :=
      hbuild ▸ (tended_invariant k₁ o).preserves_require n
    have hpending := preserves_buildPending (tended_invariant k₁ o).toPreserved hbuilds
      (t.work.session.pending o d.spec.name) t h₁
    rwa [htried] at hpending
  -- the definition has been concluded, so that it stays resolved
  have hd' := (hkept t.work (.start h.reachable h.files h.known)).concluded id d hd (by rw [hs]; rfl)
  have hlists := (hkept k₀ h).lists hd' howner hs hopen
  obtain ⟨e, he⟩ := hlists.exists_find? hform
  exact ⟨hlists, e, he, infer_call_constant h.known htried he s s'⟩

end Typer

/-! ### Classes -/

namespace Work

/-- Opening a class leaves the source alone. -/
theorem source_opened (k : Work) (name : String) (superclass : Option String) :
    (k.opened name superclass).session.source = k.session.source := by
  refine opened_of (P := fun k' => k'.session.source = k.session.source) name superclass rfl ?_
    fun _ _ h => h
  obtain ⟨types, units, h⟩ := SessionM.keeps_importType name k
  obtain ⟨backend, shared, hunits⟩ :=
    withUnits_eq { k with session := { k.session with types } } units
  rw [h, hunits]

/-- A class that has been opened is known. -/
theorem tended_opened {k : Work} {name : String} (hk : k.Reachable) (hfiles : k.OwnFile name)
    (superclass : Option String) :
    (k.opened name superclass).Tended name (k.opened name superclass) := by
  refine .start ?_ ?_ (k.contains_opened name superclass)
  · exact opened_of name superclass hk (hk.step (.importType k name)) fun k persistent hk =>
      hk.step (.openType k name superclass persistent)
  · refine opened_of (P := OwnFile name) name superclass hfiles ?_ fun _ _ h => h
    obtain ⟨types, units, h⟩ := SessionM.keeps_importType name k
    rw [h]
    intro name' d hd
    rw [files_withUnits, settings_withUnits] at hd
    exact hfiles name' d hd

/-- If no definition of a type is open, its table has not changed. -/
theorem Tended.entriesOf_eq {k₀ k : Work} {o : String} (h : k₀.Tended o k)
    (hall : ∀ id d, k.session.definition? id = some d → d.owner = o → k₀.Concluded id) :
    k.session.types.entriesOf o = k₀.session.types.entriesOf o := by
  obtain ⟨added, hadded⟩ := h.additions
  have hnone : added = [] := by
    refine List.eq_nil_iff_forall_not_mem.2 fun e he => ?_
    obtain ⟨id, d, hd, howner, -, -, -, hopen⟩ := hadded.made e he
    exact hopen (hall id d hd howner)
  rw [hadded.entries, hnone, List.foldl_nil]

end Work

/-- The definitions of a body belong to its owner. -/
theorem MacroDefinition.owner_of_ofItems {owner source : String} {items : List Node} {i : Nat}
    {d : MacroDefinition} (h : (ofItems owner source items)[i]? = some d) : d.owner = owner := by
  obtain ⟨n, -, hn⟩ := List.mem_filterMap.1 (List.mem_of_getElem? h)
  obtain ⟨spec, -, rfl⟩ := Option.map_eq_some_iff.1 hn
  rfl

namespace Typer

open TypeM Work

variable {n left : Nat} {scope : Scope} {body : Node} {t t' : Typing} {p : Node × TypeRef}

/-- The body of a class is typed once the class has been opened. -/
theorem exists_body {s : Span} {name : String} {superclass : Option String}
    (hrun : within (require n) left scope ⟨s, .classDef name superclass body⟩ t = .ok (p, t')) :
    ∃ t₁ q t₂, t₁.work = t.work.opened name superclass ∧ t'.work = t₂.work ∧
      within (require n) left (scope.inClass (TypeRef.ofName name)) body t₁ = .ok (q, t₂) := by
  obtain ⟨env, -, henv⟩ := exists_within (require n) left
  obtain ⟨es, hopened⟩ := openClass_apply name superclass s t.work
  rw [henv] at hrun ⊢
  rw [infer, TypeM.bind_apply, hopened t rfl] at hrun
  simp only [TypeM.withLocals, TypeM.bind_apply, TypeM.get_apply, TypeM.modify_apply] at hrun
  let t₁ : Typing := ⟨t.work.opened name superclass, {}, t.errors ++ es⟩
  cases hbody : env.infer (scope.inClass (TypeRef.ofName name)) body t₁ with
  | error t₂ =>
    rw [hbody] at hrun
    cases hrun
  | ok q =>
    rw [hbody] at hrun
    cases hrun
    exact ⟨t₁, q.1, q.2, rfl, rfl, hbody⟩

/-- What has been met by a computation that ends has been concluded. -/
theorem final_of_new {tree : Node} (hrun : within (require n) left scope tree t = .ok (p, t'))
    {id : Nat} {d : MacroDefinition} (hnew : t.work.session.definition? id = none)
    (hd : t'.work.session.definition? id = some d) : d.state.isFinal = true := by
  have hsettles := (settling_within (settling_require n) left scope tree t p t' hrun).states id
    not_false
  refine hsettles.settled (fun b hb => ?_) d.state (by rw [stateOf, hd]; rfl)
  rw [stateOf, hnew] at hb
  cases hb

section Class

variable {s : Span} {name : String} {superclass : Option String}
  (hrun : within (require n) left scope ⟨s, .classDef name superclass body⟩ t = .ok (p, t'))
include hrun

/-- The macros in the body of a class are defined for its type, in order. -/
theorem defines_of_class (hany : name ≠ "Any") (hvoid : name ≠ "Void") {i : Nat}
    {d : MacroDefinition}
    (hd : (MacroDefinition.ofItems name t.work.session.source body.statements)[i]? = some d) :
    t'.work.Defines (t.work.met + i) d := by
  obtain ⟨t₁, q, t₂, hopened, hlast, hbody⟩ := exists_body hrun
  have hsource : t₁.work.session.source = t.work.session.source := by rw [hopened, source_opened]
  have hmet : t₁.work.met = t.work.met := by rw [hopened, met, definitions_opened, met]
  have howner : (scope.inClass (TypeRef.ofName name)).selfType.owner = some name :=
    TypeRef.owner_ofName hany hvoid
  rw [hlast, ← hmet]
  exact defines_of_body howner hbody (hsource ▸ hd)

/-- Typing a class adds what its definitions make to the table of its type. -/
theorem tended_of_class (ht : t.work.Reachable) (hfiles : t.work.OwnFile name) :
    (t.work.opened name superclass).Tended name t'.work := by
  obtain ⟨t₁, q, t₂, hopened, hlast, hbody⟩ := exists_body hrun
  have hstart := tended_opened ht hfiles superclass
  have hend := (tended_invariant (t.work.opened name superclass) name).preserves_within n left
    (scope.inClass (TypeRef.ofName name)) body t₁ (hopened ▸ hstart)
  rw [hbody] at hend
  exact hlast ▸ hend

/-- **Theorem.** Every macro that stands directly in the body of a class is defined for the type of
    the class, whose name is not that of a type without an owner.  When the class has been typed, the
    macro has been built or has failed.  If it has been built, then from then on the table of the type
    has an entry for each of its signatures, made by the macro or by one of the type that replaces it,
    and calls on the class find the first entry of the table that answers them.  The table of any
    type that was known before is what it was, with entries that its own definitions have made since:
    it is the same if the type has had no definition to build. -/
theorem registered_on_class (ht : t.work.Reachable) (hany : name ≠ "Any") (hvoid : name ≠ "Void")
    (hfiles : t.work.OwnFile name) :
    let opened := t.work.opened name superclass
    (∀ i d, (MacroDefinition.ofItems name t.work.session.source body.statements)[i]? = some d →
      ∃ d', t'.work.session.definition? (t.work.met + i) = some d' ∧ d'.spec = d.spec ∧
        d'.owner = name ∧ d'.state.isFinal = true ∧
        (d'.state = .resolved → ∀ k, t'.work.Later name k →
          opened.Lists name d.spec k ∧ Finds opened name d.spec k)) ∧
    ∀ q, t.work.session.types.contains q = true → t.work.OwnFile q →
      (∃ added, t.work.Additions q added t'.work) ∧
      ((∀ id d, t'.work.session.definition? id = some d → d.owner = q → t.work.Concluded id) →
        t'.work.session.types.entriesOf q = t.work.session.types.entriesOf q) := by
  intro opened
  refine ⟨fun i d hd => ?_, fun q hknown hq => ?_⟩
  · obtain ⟨d', hd', hspec, howner⟩ := defines_of_class hrun hany hvoid hd
    rw [MacroDefinition.owner_of_ofItems hd] at howner
    have hnew : t.work.session.definition? (t.work.met + i) = none :=
      List.getElem?_eq_none (Nat.le_add_right _ _)
    have hfinal := final_of_new hrun hnew hd'
    refine ⟨d', hd', hspec, howner, hfinal, fun hs k hk => ?_⟩
    have hopen : ¬ opened.Concluded (t.work.met + i) := by
      rintro ⟨d₀, hd₀, -⟩
      rw [Session.definition?, definitions_opened] at hd₀
      cases hnew.symm.trans hd₀
    have htended := tended_of_class hrun ht hfiles
    -- the definition is still resolved, so that its entries are among the additions
    have hstays := (hk.tended (.start htended.reachable htended.files htended.known)).concluded
      _ d' hd' hfinal
    have hlater := hk.tended htended
    rw [← hspec]
    exact ⟨hlater.lists hstays howner hs hopen, finds_of_tended hlater hstays howner hs hopen⟩
  · have htended := (tended_invariant t.work q).preserves_within n left scope
      ⟨s, .classDef name superclass body⟩ t (.start ht hq hknown)
    rw [hrun] at htended
    exact ⟨htended.additions, htended.entriesOf_eq⟩

end Class

/-- A macro that stands for a number. -/
def kitItems : List Node := [⟨.zero, .macroDef "one" [] ⟨.zero, .int 1⟩ none⟩]

/-- A class with the macro. -/
def kit : Node := ⟨.zero, .classDef "Kit" none ⟨.zero, .body kitItems⟩⟩

/-- The definition of the macro. -/
def kitMacro : MacroDefinition := { constant with owner := "Kit" }

/-- The class that the macro is compiled as. -/
def kitImage : UnitImage := { constantImage with name := "kiln.macros.Kit$Extension1" }

/-- The session in which the class is open. -/
def kitOpened : Work := Work.opened ⟨Session.start {} (.own {}), {}⟩ "Kit" none

/-- The macro of the class can be built. -/
theorem exists_require_kit {t : Typing} (ht : t = { work := kitOpened.meeting [kitMacro] }) :
    ∃ t', require 1 0 t = .ok (.ok (), t') ∧
      ∃ d, t'.work.session.definitions = [d] ∧ d.owner = "Kit" ∧ d.state = .resolved := by
  have hd : t.work.session.definition? 0 = some kitMacro := by rw [ht]; rfl
  obtain ⟨t', s, f, -, hbuilt, ⟨d, hs, howner⟩, -, hmodified, hf⟩ := exists_require_of_prepared
    kitImage (fun s => ∃ d, s.definitions = [d] ∧ d.owner = "Kit") hd rfl
    (by subst ht; exact ⟨rfl, rfl, rfl, rfl, rfl, _, rfl, rfl⟩) storable_constantImage (by decide)
  rw [hs] at hmodified
  exact ⟨t', hbuilt, f d, hmodified, (hf d).2.2.trans howner, (hf d).1⟩

/-- The class is typed, and its macro is built. -/
theorem exists_within_kit (scope : Scope) {t : Typing}
    (ht : t = { work := ⟨Session.start {} (.own {}), {}⟩ }) :
    ∃ p t', within (require 1) expansionLimit scope kit t = .ok (p, t') ∧
      ∃ d, t'.work.session.definitions = [d] ∧ d.owner = "Kit" ∧ d.state = .resolved := by
  let env := outermost (require 1)
  let inside := scope.inClass (TypeRef.ofName "Kit")
  let met : Typing := { work := kitOpened.meeting [kitMacro] }
  obtain ⟨t', hbuilt, hdefinitions⟩ := exists_require_kit (t := met) rfl
  have hopened : openClass "Kit" none .zero t = .ok ((), { t with work := kitOpened }) := by
    subst ht
    rfl
  have hscan : prescan inside kitItems { work := kitOpened } = .ok ([some 0], met) := rfl
  have hbuild : env.build 0 met = .ok (.ok (), t') := hbuilt
  have hbody : Leads (env.infer inside ⟨.zero, .body kitItems⟩) { work := kitOpened } t' := by
    rw [infer]
    refine .bind_eq hscan (.bind ?_ fun _ => .pure _)
    exact leads_cons_definition rfl (leads_inferDefinition hbuild .zero _) (fun _ => .pure _) .nil
  obtain ⟨b, hb⟩ := hbody
  have hstart : ({ t with work := kitOpened } : Typing).withLocals {} = { work := kitOpened } := by
    subst ht
    rfl
  rw [← hstart] at hb
  have hclass : Leads (env.infer scope kit) t (t'.withLocals t.locals) := by
    rw [kit, infer]
    exact .bind_eq hopened (.bind_eq (TypeM.withLocals_eq hb) (.pure _))
  obtain ⟨p, hp⟩ := hclass
  exact ⟨p, _, hp, hdefinitions⟩

/-- A script that opens a class with a macro. -/
theorem registered_on_class_kit :
    let t : Typing := { work := ⟨Session.start {} (.own {}), {}⟩ }
    ∃ p t', within (require 1) expansionLimit (Scope.script "Script") kit t = .ok (p, t') ∧
      t.work.Reachable ∧ t.work.OwnFile "Kit" ∧ t.work.OwnFile "Script" ∧
      kitOpened.Lists "Kit" kitMacro.spec t'.work ∧ Finds kitOpened "Kit" kitMacro.spec t'.work ∧
      t'.work.session.types.entriesOf "Script" = t.work.session.types.entriesOf "Script" := by
  intro t
  have hreachable : t.work.Reachable := .start {} (.own {}) _ {} Namespace.keyed_empty fun _ h => by
    cases h
    exact Namespace.keyed_empty
  have hfiles (o : String) : t.work.OwnFile o := fun _ _ h => by cases h
  have hscript : t.work.session.types.contains "Script" = true := by decide +kernel
  have hbody : (MacroDefinition.ofItems "Kit" t.work.session.source kitItems)[0]? = some kitMacro :=
    rfl
  have hmet : t.work.met = 0 := rfl
  have hopened : t.work.opened "Kit" none = kitOpened := rfl
  obtain ⟨p, t', hrun, d, hdefinitions, howner, hs⟩ :=
    exists_within_kit (Scope.script "Script") (t := t) rfl
  clear_value t
  rw [← hopened]
  obtain ⟨hclass, hothers⟩ :=
    registered_on_class hrun hreachable (by decide) (by decide) (hfiles "Kit")
  obtain ⟨d', hd', -, -, -, hlater⟩ := hclass 0 kitMacro hbody
  rw [hmet, Session.definition?, hdefinitions] at hd'
  obtain rfl : d = d' := Option.some.inj hd'
  obtain ⟨hlists, hfinds⟩ := hlater hs t'.work .start
  refine ⟨p, t', hrun, hreachable, hfiles "Kit", hfiles "Script", hlists, hfinds, ?_⟩
  -- the only definition belongs to the class
  refine (hothers "Script" hscript (hfiles "Script")).2 fun id d₁ hd₁ hscript => ?_
  have hmem : d₁ ∈ [d] := hdefinitions ▸ List.mem_of_getElem? hd₁
  rw [List.mem_singleton.1 hmem, howner] at hscript
  exact absurd hscript (by decide)

end Typer

end Quasiquote
