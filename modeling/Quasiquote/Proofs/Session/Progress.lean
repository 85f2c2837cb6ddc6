import Quasiquote.Proofs.Session.Steps
import Quasiquote.Proofs.Unit.Codec
import Quasiquote.Proofs.Unit.Loading

namespace Quasiquote

/-!
# Progress — builds that succeed

Once the unit of a macro has been typed and compiled, little can go wrong: what was compiled can be
loaded if its numbers can be stored, the macro is registered if its owner exists, and the file of
the unit has to be written only where there is a directory for it.

* `Namespace.exists_load_sealed` — what was compiled can be loaded;
* `Typer.buildDefinition_of_prepared`, `Typer.exists_require_of_prepared` — the build of a definition
  whose unit could be prepared.
-/

/-- An image that can be stored is read from the file that is made of it. -/
theorem Artifact.decode_sealed {image : UnitImage} (h : image.Storable)
    (hdepth : (sealed image).toJson.depth ≤ nesting) :
    decode (sealed image).encode = .ok (sealed image) := by
  have hbytes := decodeBytes_eq_ok_iff.2 ⟨readBytes_encode (a := sealed image) h hdepth, rfl, rfl⟩
  rwa [decodeBytes, Json.ofBytes_bytes] at hbytes

/-- A unit whose name is not taken is loaded from the file that is made of it. -/
theorem Namespace.exists_load_sealed {ns : Namespace} {image : UnitImage} (h : image.Storable)
    (hdepth : (Artifact.sealed image).toJson.depth ≤ Artifact.nesting)
    (hnew : ns.get? image.name = none) : ∃ u ns', ns.load image.name
      ⟨[(image.name, (Artifact.sealed image).encode)]⟩ = .ok (u, ns') := by
  refine exists_load_iff.2 ⟨by simp [NameMap.contains, NameMap.get?, NameMap.find], fun e he => ?_⟩
  obtain rfl := List.mem_singleton.1 he
  refine ⟨⟨(Artifact.sealed image).checksum, image⟩,
    decode_eq_ok_iff.2 ⟨_, Artifact.decode_sealed h hdepth, rfl, rfl⟩, ?_⟩
  rw [conflicts, show LoadedUnit.name _ = image.name from rfl, hnew]

namespace Typer

variable {id : Nat} {d : MacroDefinition} {image : UnitImage} {t t₁ : Typing}

/-- A unit that can be loaded is, and its macro is registered if the owner exists. -/
theorem exists_publish {u : LoadedUnit} {units : Namespace} {unit : String} {files : Artifacts}
    (id : Nat) (haccepts : t.work.accepts = true) (hload : t.work.units.load unit files = .ok (u, units))
    (howner : (t.work.session.types.get? d.owner).isSome = true) :
    ∃ t' f, (publish id d unit files).run t = .ok (.ok (), t') ∧
      t'.work.session.settings = t.work.session.settings ∧
      t'.work.session.types = t.work.session.types.modify d.owner (withMacro d.spec unit u) ∧
      t'.work.session.definitions = t.work.session.definitions.modify id f ∧
      ∀ d, (f d).spec = d.spec ∧ (f d).owner = d.owner := by
  obtain ⟨owner, howner⟩ := Option.isSome_iff_exists.1 howner
  let k := t.work.noting id .loading
  have hrun : (SessionM.loadUnit unit files).run k = (.ok u, k.withUnits units) :=
    SessionM.loadUnit_run (k := k) haccepts hload
  have hget : ((k.withUnits units).noting id .registering).session.types.get? d.owner =
      some owner := by
    show (k.withUnits units).session.types.get? d.owner = _
    rw [Work.types_withUnits]
    exact howner
  rw [publish_run, hrun]
  dsimp only
  rw [TypeM.attempt_apply, registerMacro_run, hget]
  refine ⟨_, fun d => { d with state := .registering }, rfl,
    (Work.settings_withUnits k units).trans rfl, ?_, ?_, fun _ => ⟨rfl, rfl⟩⟩
  · exact congrArg (·.modify d.owner (withMacro d.spec unit u)) (Work.types_withUnits k units)
  show (k.withUnits units).session.definitions.modify id _ = _
  rw [Work.definitions_withUnits]
  show (t.work.session.definitions.modify id _).modify id _ = _
  rw [List.modify_modify_eq]
  rfl

/-- The build of a definition whose unit could be prepared succeeds. -/
theorem buildDefinition_of_prepared {typed : Scope → Node → TypeM (Node × TypeRef)}
    (hprepared : (prepare typed id d).run { t with work := t.work.noting id .extending } =
      .ok (.ok (image.name, ⟨[(image.name, (Artifact.sealed image).encode)]⟩), t₁))
    (hstorable : image.Storable)
    (hdepth : (Artifact.sealed image).toJson.depth ≤ Artifact.nesting)
    (haccepts : t₁.work.accepts = true) (hnew : t₁.work.units.get? image.name = none)
    (howner : (t₁.work.session.types.get? d.owner).isSome = true)
    (hroot : t₁.work.session.settings.destination = none) :
    ∃ t₂ f u, buildDefinition typed id d t = .ok (.ok (), t₂) ∧
      t₂.work.session.types = t₁.work.session.types.modify d.owner (withMacro d.spec image.name u) ∧
      t₂.work.session.definitions = t₁.work.session.definitions.modify id f ∧
      ∀ d, (f d).state = .resolved ∧ (f d).spec = d.spec ∧ (f d).owner = d.owner := by
  obtain ⟨u, units, hload⟩ := Namespace.exists_load_sealed hstorable hdepth hnew
  obtain ⟨s, f, hpublish, hsettings, htypes, hdefinitions, hf⟩ :=
    exists_publish id haccepts hload howner
  let files : Artifacts := ⟨[(image.name, (Artifact.sealed image).encode)]⟩
  have hunwritten : (persist files).run s.work = (.ok (), s.work) := by
    rw [persist_run, hsettings, hroot]
  have hpersist : (step (persist files)).run s = .ok (.ok (), s) := by
    show TypeM.attempt (persist files) s = _
    rw [TypeM.attempt_apply, hunwritten]
  rw [buildDefinition_apply, buildSteps, run_bind, hprepared]
  dsimp only
  rw [run_bind, hpublish]
  dsimp only
  rw [hpersist]
  refine ⟨_, fun d => { f d with state := .resolved }, u, rfl, htypes, ?_, fun d => ⟨rfl, hf d⟩⟩
  show s.work.session.definitions.modify id _ = _
  rw [hdefinitions, List.modify_modify_eq]
  rfl

/-- A definition whose unit can be prepared without any other build is built. -/
theorem exists_require_of_prepared (image : UnitImage) (P : Session → Prop)
    (hd : t.work.session.definition? id = some d) (hs : d.state = .unresolved)
    (hprepared : match (prepare (within (require 0) expansionLimit) id d).run
        { t with work := t.work.noting id .extending } with
      | .ok (.ok p, t) => p = (image.name, ⟨[(image.name, (Artifact.sealed image).encode)]⟩) ∧
        t.work.accepts = true ∧ t.work.units.get? image.name = none ∧
        (t.work.session.types.get? d.owner).isSome = true ∧
        t.work.session.settings.destination = none ∧ P t.work.session
      | .ok (.error _, _) => False
      | .error _ => False)
    (hstorable : image.Storable)
    (hdepth : (Artifact.sealed image).toJson.depth ≤ Artifact.nesting) :
    ∃ t' s f u, require 1 id t = .ok (.ok (), t') ∧ P s ∧
      t'.work.session.types = s.types.modify d.owner (withMacro d.spec image.name u) ∧
      t'.work.session.definitions = s.definitions.modify id f ∧
      ∀ d, (f d).state = .resolved ∧ (f d).spec = d.spec ∧ (f d).owner = d.owner := by
  revert hprepared
  cases hrun : (prepare (within (require 0) expansionLimit) id d).run
    { t with work := t.work.noting id .extending } with
  | error s => exact False.elim
  | ok q =>
    obtain ⟨e | p, t₁⟩ := q
    · exact False.elim
    · rintro ⟨rfl, haccepts, hnew, howner, hroot, hP⟩
      obtain ⟨t₂, f, u, hbuilt, htypes, hmodified, hf⟩ :=
        buildDefinition_of_prepared hrun hstorable hdepth haccepts hnew howner hroot
      exact ⟨t₂, _, f, u, ((require_unresolved hd hs).2 0).trans hbuilt, hP, htypes, hmodified, hf⟩

end Typer

end Quasiquote
