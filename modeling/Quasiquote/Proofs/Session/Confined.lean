import Quasiquote.Proofs.Macro.Entries
import Quasiquote.Proofs.Session.Clashes
import Quasiquote.Proofs.Session.Invariants
import Quasiquote.Proofs.Session.Lineage

namespace Quasiquote

/-!
# Confined macros — one macro of a name, on one type

If all definitions of a name are one macro on one type, and nothing else brings the name in, then no
other type ever has entries of the name.  The type itself has those of the macro as soon as one of
the definitions is resolved.

* `Work.Only`, `Work.Confined` — one macro alone has a name, and its entries are where they belong;
* `Work.Orderly`, `Work.Orderly.registerMacro` — the invariant, and what a registration makes of it;
* `Typer.orderly_invariant` — typing and building keep it.
-/

namespace Work

variable {o : String} {m : MacroSpec} {k k' : Work}

/-! ### One macro of a name -/

/-- Whether all definitions of the name of a macro are that macro, on one type. -/
def Only (o : String) (m : MacroSpec) (k : Work) : Prop :=
  ∀ id d, k.session.definition? id = some d → d.spec.name = m.name → d.owner = o ∧ d.spec = m

/-- What is so in the end has been so all the time. -/
theorem Only.of_run (h : k'.Only o m) (hrun : k.Run k') : k.Only o m := by
  intro id d hd hname
  obtain ⟨d', hd', hspec, howner⟩ := hrun.definition_stays hd
  obtain ⟨ho, hm⟩ := h id d' hd' (by rw [hspec, hname])
  exact ⟨howner.symm.trans ho, hspec.symm.trans hm⟩

/-- Nothing waits on other types. -/
theorem Only.pending (h : k.Only o m) {p : String} (hp : p ≠ o) :
    k.session.pending p m.name = [] := by
  refine List.eq_nil_iff_forall_not_mem.2 fun ⟨id, state⟩ hmem => ?_
  obtain ⟨d, hd, howner, hname, -⟩ := Session.mem_pending.1 hmem
  exact hp (howner.symm.trans (h id d hd hname).1)

/-- Whether a unit is that of a definition of a name, the build of which has begun. -/
def Begun (x : String) (u : LoadedUnit) (k : Work) : Prop :=
  ∃ id d, k.session.definition? id = some d ∧ d.spec.name = x ∧ d.state ≠ .unresolved ∧
    d.unit = some u.name

/-- Whether no descriptor has a macro of a name, and that of a type is found under the name of the
    type only. -/
def NoRecord (o x : String) (k : Work) : Prop :=
  ∀ name d, Descriptor.find k.world.files name k.session.settings.classpath = .ok (some d) →
    (d.name = o → name = o) ∧ ∀ r ∈ d.macros, r.name ≠ x

/-- Whether the entries of the name of a macro are that macro's, in the table of one type, where
    they are once a definition is resolved. -/
structure Confined (o : String) (m : MacroSpec) (k : Work) : Prop where
  elsewhere : k.session.types.Confines o m.name
  entries : k.session.types.named o m.name = [] ∨
    ∃ u, k.Begun m.name u ∧ k.session.types.named o m.name = m.entries u
  listed : ∀ id d, k.session.definition? id = some d → d.spec.name = m.name →
    d.state = .resolved → k.session.types.named o m.name ≠ []
  files : k.NoRecord o m.name

namespace Confined

variable (h : k.Confined o m)
include h

/-- What has no part in it may change. -/
theorem of_eq (hdefinitions : k'.session.definitions = k.session.definitions)
    (hnamed : ∀ p, k'.session.types.named p m.name = k.session.types.named p m.name)
    (hfind : ∀ name, Descriptor.find k'.world.files name k'.session.settings.classpath =
      Descriptor.find k.world.files name k.session.settings.classpath) : k'.Confined o m where
  elsewhere p hp := (hnamed p).trans (h.elsewhere p hp)
  entries := by
    rw [hnamed]
    refine h.entries.imp_right fun ⟨u, ⟨id, d, hd, hrest⟩, hu⟩ => ⟨u, ⟨id, d, ?_, hrest⟩, hu⟩
    rwa [Session.definition?, hdefinitions]
  listed id d hd hname hs := by
    rw [hnamed]
    rw [Session.definition?, hdefinitions] at hd
    exact h.listed id d hd hname hs
  files name d hd := h.files name d (hfind name ▸ hd)

/-- A definition is met. -/
theorem meeting {d : MacroDefinition} (hd : d.state = .unresolved) :
    (k.meeting [d]).Confined o m where
  elsewhere := h.elsewhere
  entries := by
    refine h.entries.imp_right fun ⟨u, ⟨id, d', hd', hrest⟩, hu⟩ => ⟨u, ⟨id, d', ?_, hrest⟩, hu⟩
    exact (definition?_meeting_of_lt (List.getElem?_eq_some_iff.1 hd').1).trans hd'
  listed id d' hd' hname hs := by
    rcases Nat.lt_or_ge id k.met with hlt | hge
    · exact h.listed id d' (definition?_meeting_of_lt hlt ▸ hd') hname hs
    · rw [List.mem_singleton.1 (mem_of_definition?_meeting hge hd'), hd] at hs
      cases hs
  files := h.files

/-- One definition is changed.  It may be resolved once its macro is listed. -/
theorem modify {id : Nat} {d : MacroDefinition} (hd : k.session.definition? id = some d)
    {f : MacroDefinition → MacroDefinition} (hspec : (f d).spec = d.spec)
    (hbegun : d.state ≠ .unresolved → (f d).state ≠ .unresolved ∧ (f d).unit = d.unit)
    (hlisted : d.spec.name = m.name → (f d).state = .resolved →
      k.session.types.named o m.name ≠ []) :
    Confined o m { k with session := k.session.modifyDefinition id f } where
  elsewhere := h.elsewhere
  entries := by
    refine h.entries.imp_right fun ⟨u, ⟨id', d', hd', hx, hs, hunit⟩, hu⟩ => ⟨u, ?_, hu⟩
    by_cases hid : id' = id
    · subst hid
      obtain rfl : d' = d := Option.some.inj (hd'.symm.trans hd)
      exact ⟨id', f d', Session.definition?_modifyDefinition hd, by rw [hspec, hx], (hbegun hs).1,
        (hbegun hs).2.trans hunit⟩
    · exact ⟨id', d', (Session.definition?_modify_ne rfl hid).trans hd', hx, hs, hunit⟩
  listed id' d' hd' hname hs := by
    rcases Session.definition?_modify_cases rfl hd' with ⟨rfl, d₀, hd₀, rfl⟩ | ⟨-, hd'⟩
    · obtain rfl : d₀ = d := Option.some.inj (hd₀.symm.trans hd)
      exact hlisted (by rw [← hspec, hname]) hs
    · exact h.listed id' d' hd' hname hs
  files := h.files

/-- Importing a type that is not known brings no macro of the name. -/
theorem importType (name : String) (hnew : k.session.types.contains name = false) :
    ((SessionM.importType name).run k).2.Confined o m := by
  have htypes := SessionM.types_importType_records name k
  obtain ⟨types, units, hk'⟩ := SessionM.keeps_importType name k
  rw [hk'] at htypes ⊢
  rw [types_withUnits] at htypes
  refine h.of_eq (by simp) (fun p => ?_) (by simp)
  rw [types_withUnits]
  rcases htypes with rfl | ⟨d, macros, hfind, hrecords, rfl⟩
  · rfl
  · obtain ⟨howner, hmacros⟩ := h.files name d hfind
    let t := OwnerType.ofDescriptor d macros
    by_cases hp : p = t.name
    · -- the type that is installed has none, nor had the one that it replaces
      have hnone : t.macros.named m.name = [] := by
        refine List.filter_eq_nil_iff.2 fun e he => ?_
        obtain ⟨p, hp, hpname, -⟩ := OwnerType.mem_entries_ofDescriptor he
        have hr : p.1 ∈ d.macros := hrecords ▸ List.mem_map_of_mem hp
        simpa [← hpname] using hmacros p.1 hr
      subst hp
      refine ((TypeRegistry.named_install_self k.session.types t m.name).trans hnone).trans ?_
      by_cases ho : t.name = o
      · refine (TypeRegistry.named_of_unknown ?_).symm
        rw [ho, ← howner ho]
        simpa [TypeRegistry.contains, NameMap.contains, TypeRegistry.get?] using hnew
      · exact (h.elsewhere t.name ho).symm
    · exact TypeRegistry.named_install_of_ne k.session.types hp m.name

end Confined

/-! ### The invariant -/

/-- Whether a session can arise in which a macro, if it is the only one of its name, is where it
    belongs. -/
structure Orderly (o : String) (m : MacroSpec) (k : Work) : Prop where
  reachable : k.Reachable
  confined : k.Only o m → k.Confined o m

theorem Orderly.step (h : k.Orderly o m) (hstep : Step k k')
    (hconfined : k.Only o m → k.Confined o m → k'.Confined o m) : k'.Orderly o m where
  reachable := h.reachable.step hstep
  confined honly :=
    have honly := honly.of_run hstep.run
    hconfined honly (h.confined honly)

/-- What typing does step by step brings no macro. -/
theorem orderly_preserved (o : String) (m : MacroSpec) : Typer.Preserved (Orderly o m) where
  meet h spec owner span := h.step (.meet _ spec owner span) fun _ hc => hc.meeting rfl
  declare h owner method := h.step (.declare _ owner method) fun _ hc =>
    hc.of_eq rfl (fun p => TypeRegistry.named_define _ owner method p _) fun _ => rfl
  importType h name hnew := h.step (.importType _ name) fun _ hc => hc.importType name hnew
  openType h name superclass persistent :=
    h.step (.openType _ name superclass persistent) fun _ hc => hc.of_eq rfl
      (fun p => TypeRegistry.named_openType _ name superclass persistent p _) fun _ => rfl
  expand h unit call := h.step (.expand _ unit call) fun _ hc =>
    hc.of_eq rfl (fun _ => rfl) fun _ => rfl
  record h e he := h.step (.record _ e he) fun _ hc => hc.of_eq rfl (fun _ => rfl) fun _ => rfl

namespace Orderly

variable {id : Nat} {d : MacroDefinition} {unit : String} (h : k.Orderly o m)
include h

/-- The definition that is being built changes, but not back to one that nobody has begun to
    build. -/
theorem modify (hbuild : k.BuildOf id d unit) {f : MacroDefinition → MacroDefinition}
    (hstep : Step k { k with session := k.session.modifyDefinition id f })
    (hf : ∀ d, (f d).spec = d.spec ∧ (f d).state ≠ .unresolved ∧ (f d).unit = d.unit)
    (hlisted : k.Only o m → d.spec.name = m.name → ∀ d, (f d).state = .resolved →
      k.session.types.named o m.name ≠ []) :
    Orderly o m { k with session := k.session.modifyDefinition id f } := by
  obtain ⟨d', hd', hspec, -⟩ := hbuild
  exact h.step hstep fun honly hc => hc.modify hd' (hf d').1 (fun _ => (hf d').2)
    fun hname hs => hlisted honly (hspec ▸ hname) d' hs

theorem noting (hbuild : k.BuildOf id d unit) {state : BuildState}
    (hstate : state.isBuilding = true) : (k.noting id state).Orderly o m := by
  have hne : state ≠ .unresolved := by
    rintro rfl
    cases hstate
  refine h.modify hbuild (.transition k id state hne) (fun _ => ⟨rfl, hne, rfl⟩) fun _ _ _ hs => ?_
  subst hs
  cases hstate

/-- A definition that nobody has begun to build gets its unit. -/
theorem begin (hd : k.session.definition? id = some d) (hs : d.state = .unresolved) :
    ((k.noting id .extending).naming id d.owner).Orderly o m := by
  have hrun := k.run_begin id d
  have hdefinitions := k.definitions_begin id d.owner
  refine ⟨h.reachable.run hrun, fun honly => ?_⟩
  have hc := (h.confined (honly.of_run hrun)).modify hd
    (f := fun d' => { d' with
      state := .extending, unit := some ((k.noting id .extending).nextUnit d.owner) })
    rfl (fun hne => absurd hs hne) fun _ hresolved => by cases hresolved
  exact hc.of_eq hdefinitions (fun _ => rfl) fun _ => rfl

theorem loadUnit (unit : String) (files : Artifacts) :
    ((SessionM.loadUnit unit files).run k).2.Orderly o m := by
  have hstep := Step.load k unit files
  obtain ⟨units, hk⟩ := SessionM.keeps_loadUnit unit files k
  rw [hk] at hstep ⊢
  exact h.step hstep fun _ hc => hc.of_eq (by simp) (by simp) (by simp)

/-- **Registration.** The macro is listed on its owner, or it is another one. -/
theorem registerMacro (hbuild : k.BuildOf id d unit) {loaded : LoadedUnit}
    (hloaded : k.units.get? unit = some loaded) :
    ((Typer.registerMacro d unit loaded).run k).2.Orderly o m ∧
    (((Typer.registerMacro d unit loaded).run k).1 = .ok () →
      ((Typer.registerMacro d unit loaded).run k).2.Only o m → d.spec.name = m.name →
        ((Typer.registerMacro d unit loaded).run k).2.session.types.named o m.name ≠ []) := by
  have hstep := Step.registerMacro k d unit loaded hloaded
  have hkeyed : loaded.name = unit := h.reachable.consistent.keyed _ _ hloaded
  obtain ⟨d₁, hd₁, hspec, howner, hunit, hbuilding⟩ := hbuild
  have hthis (honly : k.Only o m) (hname : d.spec.name = m.name) : d.owner = o ∧ d.spec = m := by
    rw [← howner, ← hspec]
    exact honly id d₁ hd₁ (hspec ▸ hname)
  rw [Typer.registerMacro_run] at hstep ⊢
  cases hget : k.session.types.get? d.owner with
  | none => exact ⟨h, nofun⟩
  | some t =>
    rw [hget] at hstep
    have hself (x : String) := TypeRegistry.named_modify_self
      (f := Typer.withMacro d.spec unit loaded) hget x
    have hother {p : String} (hp : p ≠ d.owner) (x : String) :=
      TypeRegistry.named_modify_of_ne k.session.types (Typer.withMacro d.spec unit loaded) hp x
    -- the entries of the macro are those of its name
    have hnamed (hname : d.spec.name = m.name) (honly : k.Only o m) (hc : k.Confined o m) :
        (k.session.types.modify d.owner (Typer.withMacro d.spec unit loaded)).named o m.name =
          m.entries loaded := by
      obtain ⟨ho, hm⟩ := hthis honly hname
      have hentries := hc.entries
      rw [← ho, TypeRegistry.named_of_get? hget] at hentries
      rw [← ho, hself, ← hm]
      rw [← hm] at hentries
      exact OwnerType.named_withMacro (hentries.imp_right fun ⟨u, _, hu⟩ => ⟨u, hu⟩)
    refine ⟨h.step hstep fun honly hc => ?_, fun _ honly hname => ?_⟩
    · by_cases hname : d.spec.name = m.name
      · obtain ⟨ho, hm⟩ := hthis honly hname
        refine ⟨fun p hp => (hother (ho ▸ hp) m.name).trans (hc.elsewhere p hp),
          .inr ⟨loaded, ⟨id, d₁, hd₁, hspec ▸ hname, ?_, hkeyed.symm ▸ hunit⟩,
            hnamed hname honly hc⟩, fun _ _ _ _ _ => ?_, hc.files⟩
        · intro hs
          rw [hs] at hbuilding
          cases hbuilding
        · rw [hnamed hname honly hc]
          exact List.cons_ne_nil _ _
      · refine hc.of_eq rfl (fun p => ?_) fun _ => rfl
        by_cases hp : p = d.owner
        · subst hp
          rw [TypeRegistry.named_of_get? hget]
          exact (hself m.name).trans (OwnerType.named_withMacro_of_ne hname)
        · exact hother hp m.name
    · have honly := honly.of_run hstep.run
      rw [hnamed hname honly (h.confined honly)]
      exact List.cons_ne_nil _ _

/-- Writing the file of a unit changes neither types nor descriptors. -/
theorem persist (files : Artifacts) : ((Typer.persist files).run k).2.Orderly o m := by
  have hstep := Step.persist k files
  have hsession := Typer.session_persist files k
  refine h.step hstep fun _ hc =>
    hc.of_eq (by rw [hsession]) (by simp [hsession]) fun name => ?_
  rw [hsession, find_persist]

end Orderly

end Work

namespace Typer

open Work

/-- Builds keep macros where they belong. -/
theorem orderly_invariant (o : String) (m : MacroSpec) : Invariant (Orderly o m) fun d _ k =>
    k.Only o m → d.spec.name = m.name → k.session.types.named o m.name ≠ [] where
  toPreserved := orderly_preserved o m
  reachable h := h.reachable
  begin h _ _ hd hs := h.begin hd hs
  note h _ _ _ hbuild _ hstate := h.noting hbuild hstate
  scopes {k} h scopes :=
    ⟨h.reachable.aside { k.session with scopes } rfl rfl rfl, fun honly =>
      (h.confined honly).of_eq rfl (fun _ => rfl) fun _ => rfl⟩
  load h unit files := h.loadUnit unit files
  register h _ _ _ hbuild _ hloaded := h.registerMacro hbuild hloaded
  persist {k} h files := by
    refine ⟨h.persist files, fun d unit hlisted honly hname => ?_⟩
    rw [session_persist]
    exact hlisted (honly.of_run (Step.persist k files).run) hname
  resolve {k} h id _ _ hbuild hlisted :=
    h.modify hbuild (.transition k id .resolved (by decide)) (fun _ => ⟨rfl, by simp, rfl⟩)
      fun honly hname _ _ => hlisted honly hname
  fail {k} h id _ _ hbuild e :=
    h.modify hbuild (.fail k id e) (fun _ => ⟨rfl, by simp, rfl⟩) fun _ _ _ hs => by cases hs

end Typer

end Quasiquote
