import Quasiquote.Proofs.Session.LifeCycle
import Quasiquote.Proofs.Session.Underway

namespace Quasiquote

/-!
# Unit names — a number for every definition

Each name that a session makes ends in the first number behind the last one under which
nothing is present.  As numbers only grow, no two definitions of a session get units of
one number, whoever owns them and whatever others do to the world meanwhile.

* `Work.Present` — what takes a name;
* `Work.freshName_spec` — the search for a name ends at the first free number;
* `Work.Numbering`, `Work.Numbering.names` — the invariant and its step;
* `Work.History.unit_names` — the units of all definitions over a history.
-/

namespace Work

/-! ### The search -/

/-- Whether there is a unit of a name: one that is loaded, one that has a file where the
    session loads units from, or one that a descriptor records. -/
def Present (k : Work) (unit : String) : Prop :=
  (k.units.get? unit).isSome = true ∨
  (k.accepts = true ∧ ∃ root ∈ k.session.settings.classpath,
    k.world.files.isFile (Path.ofText (unitPath root unit)) = true) ∨
  ∃ d ∈ k.session.types.descriptors, ∃ r ∈ d.macros, r.unit = unit

/-- A name is taken by what is present under it. -/
theorem unitTaken_iff {k : Work} {unit : String} : k.unitTaken unit = true ↔ k.Present unit := by
  have hfile : (Namespace.fileOf k.world.files k.session.settings.classpath unit).isSome = true ↔
      ∃ root ∈ k.session.settings.classpath,
        k.world.files.isFile (Path.ofText (unitPath root unit)) = true := by
    simp only [Namespace.fileOf, List.findSome?_isSome_iff, Files.isFile]
  have hloaded (h : ¬ k.accepts = true) : ¬ (k.units.get? unit).isSome = true := by
    simp [k.get?_units_of_not_accepts h]
  simp only [unitTaken, knowsUnit, recordsUnit, Namespace.knows, NameMap.contains, Present,
    Bool.or_eq_true, Bool.and_eq_true, hfile, List.any_eq_true, beq_iff_eq]
  by_cases h : k.accepts = true
  · simp only [h, true_and, or_assoc]
  · simp [h, hloaded h]

/-- **Freshness.** A new name ends in the first number behind the last one under which nothing
    is present, and that number becomes the last one.  However many numbers are tried, the
    search ends there. -/
theorem freshName_spec (k : Work) (base : String) :
    ∃ n, k.freshName base = (base ++ toString n, { k with session := { k.session with counter := n } }) ∧
      k.session.counter < n ∧ ¬ k.Present (k.unitName (base ++ toString n)) ∧
      (∀ m, k.session.counter < m → m < n → k.Present (k.unitName (base ++ toString m))) ∧
      ∀ tries, k.takenBound ≤ tries → k.freeNumber base tries (k.session.counter + 1) = n := by
  obtain ⟨hlt, hfree, htaken⟩ := k.nextNumber_free base
  refine ⟨k.nextNumber base, rfl, hlt, fun h => hfree (unitTaken_iff.2 h),
    fun m hm hmn => unitTaken_iff.1 (htaken m hm hmn), fun tries htries => ?_⟩
  obtain ⟨hle, -, hbefore, hstop⟩ := k.freeNumber_spec base tries (k.session.counter + 1)
  obtain ⟨-, hbound, -⟩ := k.freeNumber_spec base k.takenBound (k.session.counter + 1)
  have hnext : k.freeNumber base k.takenBound (k.session.counter + 1) = k.nextNumber base := rfl
  -- more tries find a number that is no later, and none before the first free one
  refine Nat.le_antisymm ?_ ?_
  · by_contra hgt
    exact hfree (hbefore _ hlt (Nat.lt_of_not_le hgt))
  · by_contra hgt
    have hgt := Nat.lt_of_not_le hgt
    exact hstop (by omega) (htaken _ hle hgt)

/-! ### The invariant -/

/-- Whether every definition that has a unit in `k'` has it in `k`. -/
def KeepsUnits (k k' : Work) : Prop :=
  ∀ id d' unit, k'.session.definition? id = some d' → d'.unit = some unit →
    ∃ d, k.session.definition? id = some d ∧ d.unit = some unit ∧ d.owner = d'.owner

namespace KeepsUnits

variable {k k' : Work}

theorem of_definitions (h : k'.session.definitions = k.session.definitions) : k.KeepsUnits k' := by
  intro id d' unit hd' hunit
  refine ⟨d', ?_, hunit, rfl⟩
  rwa [Session.definition?, ← h]

/-- A definition changes that keeps its unit. -/
theorem of_modify {id : Nat} {f : MacroDefinition → MacroDefinition}
    (h : k'.session.definitions = k.session.definitions.modify id f)
    (hf : ∀ d, (f d).unit = d.unit ∧ (f d).owner = d.owner) : k.KeepsUnits k' := by
  intro other d' unit hd' hunit
  rcases Session.definition?_modify_cases h hd' with ⟨rfl, d, hd, rfl⟩ | ⟨-, hd⟩
  · exact ⟨d, hd, (hf d).1.symm.trans hunit, (hf d).2.symm⟩
  · exact ⟨d', hd, hunit, rfl⟩

/-- A definition is met, which has no unit. -/
theorem of_meet {d : MacroDefinition} (h : k'.session.definitions = k.session.definitions ++ [d])
    (hd : d.unit = none) : k.KeepsUnits k' := by
  intro id d' unit hd' hunit
  have hd' : k'.session.definitions[id]? = some d' := hd'
  rw [h, List.getElem?_append] at hd'
  split at hd'
  · exact ⟨d', hd', hunit, rfl⟩
  · rw [List.mem_singleton.1 (List.mem_of_getElem? hd'), hd] at hunit
    cases hunit

end KeepsUnits

/-- Whether no definition has got a unit and the last number has not shrunk, or the build of a
    definition has begun, which has got the next unit. -/
def Names (k k' : Work) : Prop :=
  (k.session.counter ≤ k'.session.counter ∧ k.KeepsUnits k') ∨
  ∃ id d, k.session.definition? id = some d ∧ d.state = .unresolved ∧
    k' = (k.noting id .extending).naming id d.owner

/-- Whether the units of definitions have numbers of their own, none behind the last one. -/
structure Numbering (k : Work) : Prop where
  numbered {id : Nat} {d : MacroDefinition} {unit : String}
      (hd : k.session.definition? id = some d) (hunit : d.unit = some unit) :
    ∃ n ≤ k.session.counter, Numbered unit n
  distinct {id id' : Nat} {d d' : MacroDefinition} {unit unit' : String} {n : Nat}
      (hd : k.session.definition? id = some d) (hd' : k.session.definition? id' = some d')
      (hunit : d.unit = some unit) (hunit' : d'.unit = some unit')
      (hn : Numbered unit n) (hn' : Numbered unit' n) : id = id'

namespace Numbering

variable {k k' : Work}

/-- Two definitions do not share a unit. -/
theorem id_eq (h : k.Numbering) {id id' : Nat} {d d' : MacroDefinition} {unit : String}
    (hd : k.session.definition? id = some d) (hd' : k.session.definition? id' = some d')
    (hunit : d.unit = some unit) (hunit' : d'.unit = some unit) : id = id' := by
  obtain ⟨n, -, hn⟩ := h.numbered hd hunit
  exact h.distinct hd hd' hunit hunit' hn hn

/-- No definition gets a unit. -/
theorem kept (h : k.Numbering) (hcounter : k.session.counter ≤ k'.session.counter)
    (hunits : k.KeepsUnits k') : k'.Numbering where
  numbered hd hunit := by
    obtain ⟨d, hd, hunit, -⟩ := hunits _ _ _ hd hunit
    obtain ⟨n, hn, hnumber⟩ := h.numbered hd hunit
    exact ⟨n, Nat.le_trans hn hcounter, hnumber⟩
  distinct hd hd' hunit hunit' hn hn' := by
    obtain ⟨d, hd, hunit, -⟩ := hunits _ _ _ hd hunit
    obtain ⟨d', hd', hunit', -⟩ := hunits _ _ _ hd' hunit'
    exact h.distinct hd hd' hunit hunit' hn hn'

/-- A definition gets the next unit, whose number is behind all others. -/
theorem naming (h : k.Numbering) (id : Nat) (owner : String) : (k.naming id owner).Numbering := by
  have hlt := (k.nextNumber_free (owner ++ Typer.unitSuffix)).1
  have hnew := k.nextUnit_numbered owner
  have hold {other : Nat} {d : MacroDefinition} {unit : String}
      (hd : (k.naming id owner).session.definition? other = some d) (hunit : d.unit = some unit) :
      other = id ∧ unit = k.nextUnit owner ∨
        ∃ d, k.session.definition? other = some d ∧ d.unit = some unit := by
    have hchanged : (k.naming id owner).session.definitions = k.session.definitions.modify id
        fun d => { d with unit := some (k.nextUnit owner) } := rfl
    rcases Session.definition?_modify_cases hchanged hd with ⟨hid, d₀, -, rfl⟩ | ⟨-, hd⟩
    · exact .inl ⟨hid, (Option.some.inj hunit).symm⟩
    · exact .inr ⟨d, hd, hunit⟩
  -- an older unit has another number
  have hother {other : Nat} {d : MacroDefinition} {unit : String} {n : Nat}
      (hd : k.session.definition? other = some d) (hunit : d.unit = some unit)
      (hn : Numbered unit n) (hn' : Numbered (k.nextUnit owner) n) : False := by
    obtain ⟨m, hm, hnumber⟩ := h.numbered hd hunit
    have hnm := hn.inj hnumber
    have := hnew.inj hn'
    omega
  refine ⟨fun hd hunit => ?_, fun hd hd' hunit hunit' hn hn' => ?_⟩
  · rcases hold hd hunit with ⟨rfl, rfl⟩ | ⟨d, hd, hunit⟩
    · exact ⟨_, Nat.le_refl _, hnew⟩
    · obtain ⟨n, hn, hnumber⟩ := h.numbered hd hunit
      exact ⟨n, Nat.le_trans hn (Nat.le_of_lt hlt), hnumber⟩
  · rcases hold hd hunit with ⟨hid, hnext⟩ | ⟨d₀, hd₀, hunit₀⟩ <;>
      rcases hold hd' hunit' with ⟨hid', hnext'⟩ | ⟨d₁, hd₁, hunit₁⟩
    · exact hid.trans hid'.symm
    · exact (hother hd₁ hunit₁ hn' (hnext ▸ hn)).elim
    · exact (hother hd₀ hunit₀ hn (hnext' ▸ hn')).elim
    · exact h.distinct hd₀ hd₁ hunit₀ hunit₁ hn hn'

/-- **Invariant.** What gives units as names are drawn keeps their numbers apart. -/
theorem names (h : k.Numbering) (hnames : k.Names k') : k'.Numbering := by
  rcases hnames with ⟨hcounter, hunits⟩ | ⟨id, d, -, -, rfl⟩
  · exact h.kept hcounter hunits
  · have hnoted : (k.noting id .extending).Numbering :=
      h.kept (Nat.le_refl _) (.of_modify rfl fun _ => ⟨rfl, rfl⟩)
    exact hnoted.naming id d.owner

end Numbering

/-! ### Histories -/

/-- A step of a history gives units as names are drawn. -/
theorem Advance.names {e : Event} {k k' : Work} (h : k.Advance e k') : k.Names k' := by
  have hload {unit : String} {files : Artifacts} {r : Except Diagnostic LoadedUnit} {k' : Work}
      (hrun : (SessionM.loadUnit unit files).run k = (r, k')) :
      k'.session.counter = k.session.counter := by
    rcases SessionM.loadUnit_cases unit files k with ⟨_, hsame⟩ | ⟨_, _, -, -, -, hmore⟩
    · rw [hsame] at hrun
      cases hrun
      rfl
    · rw [hmore] at hrun
      cases hrun
      exact counter_withUnits _ _
  have hsame (hdefinitions : k'.session.definitions = k.session.definitions)
      (hcounter : k'.session.counter = k.session.counter) :=
    And.intro (Nat.le_of_eq hcounter.symm) (KeepsUnits.of_definitions hdefinitions)
  cases h
  case begin id d hd hs => exact .inr ⟨id, d, hd, hs, rfl⟩
  case meet => exact .inl ⟨Nat.le_refl _, .of_meet rfl rfl⟩
  case importType name =>
    obtain ⟨types, units, h⟩ := SessionM.keeps_importType name k
    rw [h] at hsame ⊢
    exact .inl (hsame (definitions_withUnits _ _) (counter_withUnits _ _))
  case compiling => exact .inl ⟨Nat.le_refl _, .of_modify rfl fun _ => ⟨rfl, rfl⟩⟩
  case generated hrun | notGenerated hrun _ =>
    obtain rfl : _ = _ := congrArg Prod.snd hrun
    exact .inl ⟨Nat.le_refl _, .of_modify rfl fun _ => ⟨rfl, rfl⟩⟩
  case loaded id d hd hs unit hunit files u k' hrun =>
    have hnoted : (k'.noting id .registering).session.definitions =
        k.session.definitions.modify id fun d => { d with state := .registering } :=
      definitions_of_loadUnit hrun ▸ rfl
    exact .inl ⟨Nat.le_of_eq (hload hrun).symm, .of_modify hnoted fun _ => ⟨rfl, rfl⟩⟩
  case notLoaded id d hd hs unit hunit files e k' hrun failure =>
    have hnoted : (k'.failing id failure).session.definitions = k.session.definitions.modify id
        fun d => { d with state := .failed, failure := some failure } :=
      definitions_of_loadUnit hrun ▸ rfl
    exact .inl ⟨Nat.le_of_eq (hload hrun).symm, .of_modify hnoted fun _ => ⟨rfl, rfl⟩⟩
  case register =>
    rw [Typer.registerMacro_run] at hsame ⊢
    split at hsame <;> exact .inl (hsame rfl rfl)
  case persist =>
    rw [Typer.persist_run] at hsame ⊢
    split at hsame <;> exact .inl (hsame rfl rfl)
  case resolve | fail => exact .inl ⟨Nat.le_refl _, .of_modify rfl fun _ => ⟨rfl, rfl⟩⟩
  case freshName base =>
    exact .inl ⟨Nat.le_of_lt (k.nextNumber_free base).1, .of_definitions rfl⟩
  all_goals exact .inl (hsame rfl rfl)

theorem History.numbering {e : Event} {k : Work} {past : List (Event × Work)}
    (h : History ((e, k) :: past)) : k.Numbering := by
  generalize hms : (e, k) :: past = ms at h
  induction h generalizing e k past with
  | start =>
    cases hms
    exact ⟨nofun, nofun⟩
  | step _ hstep ih =>
    cases hms
    exact (ih rfl).names hstep.names

/-! ### Where units come from -/

/-- How far a definition is makes no difference to the search for a name. -/
theorem nextUnit_noting (k : Work) (id : Nat) (state : BuildState) (owner : String) :
    (k.noting id state).nextUnit owner = k.nextUnit owner := by
  have hsearch (base : String) (tries n : Nat) :
      (k.noting id state).freeNumber base tries n = k.freeNumber base tries n := by
    induction tries generalizing n with
    | zero => rfl
    | succ tries ih =>
      simp only [freeNumber, ih]
      rfl
  exact congrArg (fun n => k.unitName (owner ++ Typer.unitSuffix ++ toString n)) (hsearch _ _ _)

/-- Whether the unit of a definition was drawn in a step of a history: the first number was
    taken under which nothing was present, and the build of the definition began. -/
def Drawn (ms : List (Event × Work)) (id : Nat) (owner unit : String) : Prop :=
  ∃ e k e' past, (e', (k.noting id .extending).naming id owner) :: (e, k) :: past <:+ ms ∧
    unit = k.unitName (k.freshName (owner ++ Typer.unitSuffix)).1 ∧ ¬ k.Present unit

theorem Drawn.mono {ms ms' : List (Event × Work)} {id : Nat} {owner unit : String}
    (h : Drawn ms id owner unit) (hsuffix : ms <:+ ms') : Drawn ms' id owner unit := by
  obtain ⟨e, k, e', past, hstep, hunit⟩ := h
  exact ⟨e, k, e', past, hstep.trans hsuffix, hunit⟩

/-- The unit of every definition was drawn. -/
theorem History.drawn {e : Event} {k : Work} {past : List (Event × Work)}
    (h : History ((e, k) :: past)) {id : Nat} {d : MacroDefinition} {unit : String}
    (hd : k.session.definition? id = some d) (hunit : d.unit = some unit) :
    Drawn ((e, k) :: past) id d.owner unit := by
  generalize hms : (e, k) :: past = ms at h
  induction h generalizing e k past d with
  | start =>
    cases hms
    cases hd
  | @step e e' k k' past _ hstep ih =>
    cases hms
    rcases hstep.names with ⟨-, hunits⟩ | ⟨new, d', hnew, -, rfl⟩
    · obtain ⟨d₀, hd₀, hunit₀, howner⟩ := hunits _ _ _ hd hunit
      exact howner ▸ (ih hd₀ hunit₀ rfl).mono (List.suffix_cons _ _)
    · have hchanged : ((k.noting new .extending).naming new d'.owner).session.definitions =
          k.session.definitions.modify new _ := List.modify_modify_eq ..
      rcases Session.definition?_modify_cases hchanged hd with ⟨rfl, d₀, hd₀, rfl⟩ | ⟨-, hd⟩
      · -- the unit of the definition is the next one
        obtain rfl : d' = d₀ := Option.some.inj (hnew.symm.trans hd₀)
        have hnext : unit = k.nextUnit d'.owner :=
          (Option.some.inj hunit).symm.trans (k.nextUnit_noting id .extending d'.owner)
        refine ⟨_, k, _, _, List.suffix_refl _, hnext, fun hpresent => ?_⟩
        have hfree := k.nextUnit_free d'.owner
        rw [← hnext, unitTaken_iff.2 hpresent] at hfree
        cases hfree
      · exact (ih hd hunit rfl).mono (List.suffix_cons _ _)

end Work

end Quasiquote
