import Quasiquote.Proofs.Session.Names
import Quasiquote.Proofs.Session.Termination
import Quasiquote.Proofs.Typing.Units

namespace Quasiquote

/-!
# Rings — macros that need each other

Each of some macros calls one of them in its body, so none of them can be built.  Whichever
is built first requires another one, and so on, until one is required that is being built.
That one failure is a failure of the macro that requires it, which makes all that wait for it
fail in turn.

* `MacroSpec.Requires` — a macro whose body consists of literals and one call;
* `Work.Clear` — no macro of a ring is visible, nor anything that the calls could mean;
* `Work.Fails` — a session in which more definitions have failed, and nothing else is new
  that could be found;
* `Work.Ring` — the definitions of a ring in a session, and what they are found with;
* `Typer.fails_findMacro` — a call of a macro of the ring;
* `Typer.fails_require` — every build of one fails, and one of the failures says that a macro
  is required too early.
-/

/-- Whether the body of a macro consists of literals and one call, of the macro `next`.  The
    arguments are literals or names that define no macros. -/
structure MacroSpec.Requires (inline : InlineMacros) (m : MacroSpec) (next : String) : Prop where
  body : ∃ sb pre s args post, m.body = ⟨sb, .body (pre ++ ⟨s, .invoke next args none⟩ :: post)⟩ ∧
    (∀ n ∈ pre, n.isLiteral = true) ∧ (∀ n ∈ post, n.isLiteral = true) ∧
    ∀ n ∈ args, n.isLiteral = true ∨
      ∃ s x, n = ⟨s, .ident x⟩ ∧ inline.get? x ≠ some .definition
  defaults : ∀ name d, Argument.optional name d ∈ m.args → d.holeFree = true

/-- Whether a definition is as it was, or has failed in the meantime. -/
def MacroDefinition.Fails (d d' : MacroDefinition) : Prop :=
  d' = d ∨ d.state = .unresolved ∧
    ∃ unit e, d' = { d with state := .failed, unit, failure := some e }

namespace Work

/-- Whether a unit may be the next one of an owner's macros, now or later. -/
def IsNewUnit (k : Work) (owner unit : String) : Prop :=
  ∃ n, k.session.counter < n ∧ unit = k.unitName (owner ++ Typer.unitSuffix ++ toString n)

/-- Whether no macro of `names` is visible from a type, and whether nothing is known of them, or
    of the method that holds the bodies of macros, where the units to come look first. -/
structure Clear (k : Work) (owner : String) (names : List String) : Prop where
  visible : ∀ x ∈ names, k.session.types.Hides x owner
  extension : ∀ x ∈ Extension.bodyMethod :: names, k.session.types.Hides x extensionType
  units : ∀ x ∈ Extension.bodyMethod :: names, ∀ unit, k.IsNewUnit owner unit →
    k.session.Unknown x unit
  method : ∀ o ∈ [owner, k.session.types.scriptType], k.session.Unknown Extension.bodyMethod o

/-- Everything is clear where no macro is registered or defined. -/
theorem clear_of_new {k : Work} (hunits : k.session.types.units = [])
    (hdefinitions : k.session.definitions = []) (owner : String) (names : List String) :
    k.Clear owner names := by
  have hunknown (x o : String) : k.session.Unknown x o :=
    ⟨TypeRegistry.hides_of_units hunits x o, by simp [Session.pending, hdefinitions]⟩
  exact ⟨fun x _ => (hunknown x _).hidden, fun x _ => (hunknown x _).hidden,
    fun x _ unit _ => hunknown x unit, fun o _ => hunknown _ o⟩

/-! ### Sessions in which builds fail -/

/-- Whether a session differs from an earlier one in definitions, types and the number of the
    last name, where every definition that is not resolved still waits for its macro. -/
structure Evolves (k k' : Work) : Prop where
  only : ∃ definitions types counter,
    k' = ⟨{ k.session with definitions, types, counter }, k.world⟩
  types : k.session.types.Extends k'.session.types
  counter : k.session.counter ≤ k'.session.counter
  definitions : ∀ id d', k'.session.definition? id = some d' →
    ∃ d, k.session.definition? id = some d ∧ d'.owner = d.owner ∧ d'.spec = d.spec ∧
      (d.state = .resolved → d'.state = .resolved)

/-- Whether a session differs from an earlier one by failures of definitions, and by what their
    builds have put into the registry. -/
structure Fails (k k' : Work) : Prop where
  only : ∃ definitions types counter,
    k' = ⟨{ k.session with definitions, types, counter }, k.world⟩
  types : k.session.types.Extends k'.session.types
  counter : k.session.counter ≤ k'.session.counter
  met : k'.met = k.met
  begun : k.begun ≤ k'.begun
  definitions : ∀ id d, k.session.definition? id = some d →
    ∃ d', k'.session.definition? id = some d' ∧ d.Fails d'

namespace Fails

variable {k k' k'' : Work}

theorem refl (k : Work) : Fails k k :=
  ⟨⟨_, _, _, rfl⟩, .refl _, Nat.le_refl _, rfl, Nat.le_refl _, fun _ d h => ⟨d, h, .inl rfl⟩⟩

theorem trans (h : Fails k k') (h' : Fails k' k'') : Fails k k'' where
  only := by
    obtain ⟨_, _, _, rfl⟩ := h.only
    obtain ⟨_, _, _, rfl⟩ := h'.only
    exact ⟨_, _, _, rfl⟩
  types := h.types.trans h'.types
  counter := Nat.le_trans h.counter h'.counter
  met := h'.met.trans h.met
  begun := Nat.le_trans h.begun h'.begun
  definitions id d hd := by
    obtain ⟨d', hd', hfails⟩ := h.definitions id d hd
    obtain ⟨d'', hd'', hfails'⟩ := h'.definitions id d' hd'
    refine ⟨d'', hd'', ?_⟩
    rcases hfails with rfl | ⟨hopen, unit, e, rfl⟩
    · exact hfails'
    · rcases hfails' with rfl | ⟨hopen', -⟩
      · exact .inr ⟨hopen, unit, e, rfl⟩
      · cases hopen'

/-- Only the registry has changed. -/
theorem of_types {r : TypeRegistry} (h : k.session.types.Extends r) :
    Fails k ⟨{ k.session with types := r }, k.world⟩ :=
  ⟨⟨_, _, _, rfl⟩, h, Nat.le_refl _, rfl, Nat.le_refl _, fun _ d h => ⟨d, h, .inl rfl⟩⟩

/-- What has failed stays as it is. -/
theorem failed (h : Fails k k') {id : Nat} {d : MacroDefinition}
    (hd : k.session.definition? id = some d) (hs : d.state ≠ .unresolved) :
    k'.session.definition? id = some d := by
  obtain ⟨d', hd', rfl | ⟨hopen, -⟩⟩ := h.definitions id d hd
  · exact hd'
  · exact absurd hopen hs

/-- A definition was there before, and is as it was or has failed. -/
theorem before (h : Fails k k') {id : Nat} {d' : MacroDefinition}
    (hd' : k'.session.definition? id = some d') :
    ∃ d, k.session.definition? id = some d ∧ d.Fails d' := by
  have hid : id < k.met := by
    rw [← h.met]
    exact (List.getElem?_eq_some_iff.1 hd').1
  obtain ⟨d'', hd'', hfails⟩ := h.definitions id _ (List.getElem?_eq_getElem hid)
  rw [hd'] at hd''
  cases hd''
  exact ⟨_, List.getElem?_eq_getElem hid, hfails⟩

theorem evolves (h : Fails k k') : Evolves k k' := by
  refine ⟨h.only, h.types, h.counter, fun id d' hd' => ?_⟩
  obtain ⟨d, hd, rfl | ⟨hopen, unit, e, rfl⟩⟩ := h.before hd'
  · exact ⟨_, hd, rfl, rfl, fun hs => hs⟩
  · exact ⟨d, hd, rfl, rfl, fun hs => by rw [hopen] at hs; cases hs⟩

end Fails

/-! ### Rings -/

/-- Whether the definitions from number `first` on are those of a ring: they belong to one owner,
    none is resolved, and each requires one of `names`, all of which are defined. -/
structure Ring (owner : String) (names : List String) (first : Nat) (k : Work) : Prop where
  clear : k.Clear owner names
  inline : ∀ x ∈ ["mirah", "call", Extension.bodyMethod] ++ names, k.session.inline.get? x = none
  earlier : ∀ id d, id < first → k.session.definition? id = some d → d.state.isFinal = true
  members : ∀ id d, first ≤ id → k.session.definition? id = some d → d.owner = owner ∧
    d.state ≠ .resolved ∧ (d.state = .failed → d.failure.isSome = true) ∧
    ∃ next ∈ names, d.spec.Requires k.session.inline next
  named : ∀ x ∈ names, ∃ id d, first ≤ id ∧ k.session.definition? id = some d ∧ d.spec.name = x

/-- Whether a macro of a ring has failed since one was required too early. -/
def Detected (first : Nat) (k : Work) : Prop :=
  ∃ id d e x, first ≤ id ∧ k.session.definition? id = some d ∧ d.state = .failed ∧
    d.failure = some e ∧ e.cause = .requiredTooEarly x

/-- Whether no macro of a ring has failed unless one was required too early. -/
def Alert (first : Nat) (k : Work) : Prop :=
  ∀ id d, first ≤ id → k.session.definition? id = some d → d.state = .failed → k.Detected first

variable {owner : String} {names : List String} {first : Nat} {k k' : Work}

theorem Detected.fails (h : k.Detected first) (hk : k.Fails k') : k'.Detected first := by
  obtain ⟨id, d, e, x, hid, hd, hs, he⟩ := h
  exact ⟨id, d, e, x, hid, hk.failed hd (by rw [hs]; decide), hs, he⟩

theorem unknown_evolves {x o : String} (h : k.session.Unknown x o)
    (hextension : k.session.types.Hides x extensionType) (hk : k.Evolves k') :
    k'.session.Unknown x o where
  hidden := hk.types.hides h.hidden hextension
  pending := by
    rw [List.eq_nil_iff_forall_not_mem]
    rintro ⟨id, state⟩ hmem
    obtain ⟨d', hd', rfl, rfl, rfl, hs⟩ := Session.mem_pending.1 hmem
    obtain ⟨d, hd, howner, hspec, hresolved⟩ := hk.definitions id d' hd'
    have hbefore : (id, d.state) ∈ k.session.pending d'.owner d'.spec.name :=
      Session.mem_pending.2 ⟨d, hd, howner.symm, by rw [hspec], rfl, fun hs' => hs (hresolved hs')⟩
    rw [h.pending] at hbefore
    cases hbefore

theorem Evolves.isNewUnit (hk : k.Evolves k') {unit : String} (h : k'.IsNewUnit owner unit) :
    k.IsNewUnit owner unit := by
  obtain ⟨n, hn, rfl⟩ := h
  refine ⟨n, Nat.lt_of_le_of_lt hk.counter hn, ?_⟩
  obtain ⟨_, _, _, rfl⟩ := hk.only
  rfl

theorem Clear.evolves (h : k.Clear owner names) (hk : k.Evolves k') : k'.Clear owner names where
  visible x hx := hk.types.hides (h.visible x hx) (h.extension x (List.mem_cons_of_mem _ hx))
  extension x hx := hk.types.hides (h.extension x hx) (h.extension x hx)
  units x hx unit hunit :=
    unknown_evolves (h.units x hx unit (hk.isNewUnit hunit)) (h.extension x hx) hk
  method o ho := by
    rw [hk.types.scriptType] at ho
    exact unknown_evolves (h.method o ho) (h.extension _ List.mem_cons_self) hk

theorem Ring.fails (h : k.Ring owner names first) (hk : k.Fails k') :
    k'.Ring owner names first where
  clear := h.clear.evolves hk.evolves
  inline := by
    obtain ⟨_, _, _, rfl⟩ := hk.only
    exact h.inline
  earlier id d' hid hd' := by
    obtain ⟨d, hd, rfl | ⟨hopen, -⟩⟩ := hk.before hd'
    · exact h.earlier id d' hid hd
    · have := h.earlier id d hid hd
      rw [hopen] at this
      cases this
  members id d' hid hd' := by
    have hinline : k'.session.inline = k.session.inline := by
      obtain ⟨_, _, _, rfl⟩ := hk.only
      rfl
    rw [hinline]
    obtain ⟨d, hd, rfl | ⟨hopen, unit, e, rfl⟩⟩ := hk.before hd'
    · exact h.members id d' hid hd
    · obtain ⟨howner, -, -, hnext⟩ := h.members id d hid hd
      exact ⟨howner, by simp, fun _ => rfl, hnext⟩
  named x hx := by
    obtain ⟨id, d, hid, hd, hname⟩ := h.named x hx
    obtain ⟨d', hd', rfl | ⟨-, unit, e, rfl⟩⟩ := hk.definitions id d hd
    · exact ⟨id, d', hid, hd', hname⟩
    · exact ⟨id, _, hid, hd', hname⟩

/-! ### The start of a build -/

/-- The session in which the unit of a definition is typed. -/
def preparing (k : Work) (id : Nat) (owner : String) : Work :=
  ((k.noting id .extending).naming id owner).noting id .compiling

variable {id : Nat} {d : MacroDefinition}

theorem definition?_preparing (k : Work) (id : Nat) (owner : String) : ∃ unit, ∀ other,
    (k.preparing id owner).session.definition? other =
      if other = id then (k.session.definition? id).map fun d =>
        { d with state := .compiling, unit := some unit }
      else k.session.definition? other := by
  refine ⟨(k.noting id .extending).nextUnit owner, fun other => ?_⟩
  have hmodify : (k.preparing id owner).session.definitions = k.session.definitions.modify id fun d =>
      { d with state := .compiling, unit := some ((k.noting id .extending).nextUnit owner) } := by
    simp only [preparing, noting, naming, Session.modifyDefinition, List.modify_modify_eq]
    rfl
  exact Session.definition?_modify hmodify other

/-- The number of a new unit is a new one. -/
theorem counter_lt_preparing (k : Work) (id : Nat) (owner : String) :
    k.session.counter < (k.preparing id owner).session.counter :=
  ((k.noting id .extending).nextNumber_free (owner ++ Typer.unitSuffix)).1

theorem isNewUnit_nextUnit (k : Work) (id : Nat) (owner : String) :
    k.IsNewUnit owner ((k.noting id .extending).nextUnit owner) :=
  ⟨_, counter_lt_preparing k id owner, rfl⟩

theorem evolves_preparing (hd : k.session.definition? id = some d) (hs : d.state = .unresolved) :
    k.Evolves (k.preparing id owner) where
  only := ⟨_, _, _, rfl⟩
  types := .refl _
  counter := Nat.le_of_lt (counter_lt_preparing k id owner)
  definitions other d' hd' := by
    obtain ⟨unit, hdefinition⟩ := k.definition?_preparing id owner
    rw [hdefinition] at hd'
    split at hd'
    · rename_i hother
      subst hother
      rw [hd, Option.map_some] at hd'
      cases hd'
      exact ⟨d, hd, rfl, rfl, fun hres => by rw [hs] at hres; cases hres⟩
    · exact ⟨d', hd', rfl, rfl, fun h => h⟩

theorem met_preparing : (k.preparing id owner).met = k.met := by
  simp [met, preparing, noting, naming, Session.modifyDefinition]

theorem begun_preparing (hd : k.session.definition? id = some d) (hs : d.state = .unresolved) :
    (k.preparing id owner).begun = k.begun + 1 := by
  simp only [begun, preparing, noting, naming, Session.modifyDefinition, List.modify_modify_eq]
  exact countP_modify_of_new hd (by simp [hasBegun, hs]) (by simp [hasBegun])

/-- A ring stays one when the build of one of its macros begins. -/
theorem Ring.preparing (h : k.Ring owner names first) (hid : first ≤ id)
    (hd : k.session.definition? id = some d) (hs : d.state = .unresolved) :
    (k.preparing id owner).Ring owner names first := by
  obtain ⟨unit, hdefinition⟩ := k.definition?_preparing id owner
  refine ⟨h.clear.evolves (evolves_preparing hd hs), h.inline, fun other d' hother hd' => ?_,
    fun other d' hother hd' => ?_, fun x hx => ?_⟩
  · rw [hdefinition, if_neg (by omega)] at hd'
    exact h.earlier other d' hother hd'
  · rw [hdefinition] at hd'
    split at hd'
    · rw [hd, Option.map_some] at hd'
      cases hd'
      obtain ⟨howner, -, -, hnext⟩ := h.members id d hid hd
      exact ⟨howner, by simp, by simp, hnext⟩
    · exact h.members other d' hother hd'
  · obtain ⟨other, d', hother, hd', hname⟩ := h.named x hx
    by_cases heq : other = id
    · subst heq
      refine ⟨other, _, hother, by rw [hdefinition, if_pos rfl, hd', Option.map_some], ?_⟩
      exact hname
    · exact ⟨other, d', hother, by rw [hdefinition, if_neg heq, hd'], hname⟩

/-- No macro fails by beginning to be built. -/
theorem Alert.preparing (h : k.Alert first) (hs : ∀ d, k.session.definition? id = some d → d.state = .unresolved) :
    (k.preparing id owner).Alert first := by
  obtain ⟨unit, hdefinition⟩ := k.definition?_preparing id owner
  intro other d' hother hd' hfailed
  rw [hdefinition] at hd'
  split at hd'
  · rename_i heq
    obtain ⟨d, hd, rfl⟩ := Option.map_eq_some_iff.1 hd'
    cases hfailed
  · obtain ⟨j, d, e, x, hj, hd, hstate, he⟩ := h other d' hother hd' hfailed
    refine ⟨j, d, e, x, hj, ?_, hstate, he⟩
    have hne : j ≠ id := by
      rintro rfl
      rw [hs d hd] at hstate
      cases hstate
    rw [hdefinition, if_neg hne, hd]

/-- The session in which it is noted that a build has failed. -/
def concluding (k : Work) (id : Nat) (e : Diagnostic) : Work :=
  { k with session := k.session.modifyDefinition id fun d =>
    { d with state := .failed, failure := some e } }

theorem definition?_concluding (k : Work) (id : Nat) (e : Diagnostic) (other : Nat) :
    (k.concluding id e).session.definition? other =
      if other = id then (k.session.definition? id).map fun d =>
        { d with state := .failed, failure := some e }
      else k.session.definition? other := Session.definition?_modify rfl other

/-- A definition whose unit is typed is being built as long as that takes. -/
theorem compiling_of_fails (hd : k.session.definition? id = some d)
    (hk : (k.preparing id owner).Fails k') : ∃ unit, k'.session.definition? id =
      some { d with state := .compiling, unit := some unit } := by
  obtain ⟨unit, hdefinition⟩ := k.definition?_preparing id owner
  exact ⟨unit, hk.failed (by rw [hdefinition, if_pos rfl, hd, Option.map_some]) (by simp)⟩

/-- A build that fails is one more failure. -/
theorem fails_concluding (hd : k.session.definition? id = some d) (hs : d.state = .unresolved)
    (hk : (k.preparing id owner).Fails k') (e : Diagnostic) :
    k.Fails (k'.concluding id e) ∧ ∃ d', (k'.concluding id e).session.definition? id = some d' ∧
      d'.state = .failed ∧ d'.failure = some e := by
  obtain ⟨_, hdefinition⟩ := k.definition?_preparing id owner
  obtain ⟨unit, hbuilding⟩ := compiling_of_fails hd hk
  have hfailed : (k'.concluding id e).session.definition? id =
      some { d with state := .failed, unit := some unit, failure := some e } := by
    rw [definition?_concluding, if_pos rfl, hbuilding, Option.map_some]
  refine ⟨⟨?_, hk.types, ?_, ?_, ?_, fun other d' hd' => ?_⟩, _, hfailed, rfl, rfl⟩
  · obtain ⟨_, _, _, rfl⟩ := hk.only
    exact ⟨_, _, _, rfl⟩
  · exact Nat.le_trans (Nat.le_of_lt (counter_lt_preparing k id owner)) hk.counter
  · have hsame : (k'.concluding id e).met = k'.met := List.length_modify _ _ _
    rw [hsame, hk.met, met_preparing]
  · have hmore : k'.begun ≤ (k'.concluding id e).begun :=
      countP_modify_le (fun _ _ => by simp [hasBegun]) _ _
    have hbegun := hk.begun
    rw [begun_preparing hd hs] at hbegun
    omega
  · by_cases hother : other = id
    · subst hother
      rw [hd] at hd'
      cases hd'
      exact ⟨_, hfailed, .inr ⟨hs, some unit, e, rfl⟩⟩
    · rw [definition?_concluding, if_neg hother]
      exact hk.definitions other d' (by rw [hdefinition, if_neg hother, hd'])

/-- A ring is detected when one of its macros fails for the sake of one that is required too
    early, or when that had happened before. -/
theorem detected_concluding (hid : first ≤ id) (hd : k.session.definition? id = some d)
    (hs : d.state = .unresolved) (hk : (k.preparing id owner).Fails k') (e : Diagnostic)
    (h : k'.Detected first ∨ ∃ x, e.cause = .requiredTooEarly x) :
    (k'.concluding id e).Detected first := by
  obtain ⟨-, d₁, hd₁, hfailed₁, he₁⟩ := fails_concluding hd hs hk e
  rcases h with ⟨other, d', e', x, hother, hd', hfailed, he'⟩ | ⟨x, hx⟩
  · have hne : other ≠ id := by
      rintro rfl
      obtain ⟨unit, hbuilding⟩ := compiling_of_fails hd hk
      rw [hbuilding] at hd'
      cases hd'
      cases hfailed
    exact ⟨other, d', e', x, hother, by rw [definition?_concluding, if_neg hne, hd'], hfailed, he'⟩
  · exact ⟨id, d₁, e, x, hid, hd₁, hfailed₁, he₁, hx⟩

end Work

namespace Typer

open TypeM

variable {owner : String} {names : List String} {first n : Nat} {env : Typer} {t : Typing}

/-! ### Calls -/

section Calls

/-- Whether every build of a macro of a ring fails, if no more than `n` builds are to begin. -/
def BuildsFail (owner : String) (names : List String) (first n : Nat)
    (build : Nat → TypeM (Except Diagnostic Unit)) : Prop :=
  ∀ (t : Typing) (id : Nat) (d : MacroDefinition), t.work.Ring owner names first →
    t.work.Alert first → t.work.met ≤ t.work.begun + n → first ≤ id →
    t.work.session.definition? id = some d → d.state = .unresolved ∨ d.state = .failed →
    ∃ e work, build id t = .ok (.error e, { t with work }) ∧ t.work.Fails work ∧
      work.Detected first ∧
      ∃ d', work.session.definition? id = some d' ∧ d'.state = .failed ∧ d'.failure = some e

variable (hbuild : BuildsFail owner names first n env.build)
include hbuild

/-- Every definition that waits is built, and fails, unless one is being built. -/
theorem fails_buildPending {ps : List (Nat × BuildState)} (hring : t.work.Ring owner names first)
    (halert : t.work.Alert first) (hn : t.work.met ≤ t.work.begun + n)
    (hps : ∀ p ∈ ps, p.2 ≠ .resolved ∧ ∃ d, t.work.session.definition? p.1 = some d ∧
      (p.2 = .failed → d.state = .failed) ∧
      (p.2 = .unresolved → first ≤ p.1 ∧ (d.state = .unresolved ∨ d.state = .failed))) :
    ∃ all work, env.buildPending ps t = .ok (all, { t with work }) ∧ t.work.Fails work ∧
      work.Alert first ∧ (all = true → ∀ p ∈ ps, ∃ d, work.session.definition? p.1 = some d ∧
        d.state = .failed) := by
  induction ps generalizing t with
  | nil => exact ⟨true, t.work, rfl, .refl _, halert, fun _ p hp => absurd hp List.not_mem_nil⟩
  | cons p ps ih =>
    obtain ⟨id, state⟩ := p
    obtain ⟨hresolved, d, hd, hfailed, hopen⟩ := hps _ List.mem_cons_self
    have hrest := fun p hp => hps p (List.mem_cons_of_mem _ hp)
    by_cases hbuilding : state.isBuilding = true
    · refine ⟨false, t.work, ?_, .refl _, halert, by simp⟩
      rw [buildPending, if_pos hbuilding]
      rfl
    · have hstate : state = .unresolved ∨ state = .failed := by
        cases state with
      | unresolved => exact .inl rfl
      | failed => exact .inr rfl
      | resolved => exact absurd rfl hresolved
      | _ => exact absurd rfl hbuilding
      rcases hstate with rfl | rfl
      · -- this one is built now, and the others are as they were or have failed
        obtain ⟨hid, hs⟩ := hopen rfl
        obtain ⟨e, work, hrun, hfails, hdetected, d', hd', hs', -⟩ :=
          hbuild t id d hring halert hn hid hd hs
        obtain ⟨all, work', hrun', hfails', halert', hall⟩ := ih (t := { t with work })
          (hring.fails hfails) (fun _ _ _ _ _ => hdetected)
          (by have := hfails.begun; have := hfails.met; simp only; omega) fun p hp => by
            obtain ⟨hresolved, d₁, hd₁, hfailed₁, hopen₁⟩ := hrest p hp
            refine ⟨hresolved, ?_⟩
            obtain ⟨d₂, hd₂, rfl | ⟨hs₁, unit, e, rfl⟩⟩ := hfails.definitions p.1 d₁ hd₁
            · exact ⟨d₂, hd₂, hfailed₁, hopen₁⟩
            · exact ⟨_, hd₂, fun _ => rfl, fun hp => ⟨(hopen₁ hp).1, .inr rfl⟩⟩
        refine ⟨all, work', ?_, hfails.trans hfails', halert', fun h p hp => ?_⟩
        · rw [buildPending, if_neg hbuilding, if_pos rfl]
          simp only [TypeM.bind_apply, hrun]
          exact hrun'
        · rcases List.mem_cons.1 hp with rfl | hp
          · exact ⟨d', hfails'.failed hd' (by rw [hs']; decide), hs'⟩
          · exact hall h p hp
      · obtain ⟨all, work', hrun', hfails', halert', hall⟩ := ih hring halert hn hrest
        refine ⟨all, work', ?_, hfails', halert', fun h p hp => ?_⟩
        · rw [buildPending, if_neg hbuilding, if_neg (by simp)]
          exact hrun'
        · rcases List.mem_cons.1 hp with rfl | hp
          · exact ⟨d, hfails'.failed hd (by rw [hfailed rfl]; decide), hfailed rfl⟩
          · exact hall h p hp

/-- A call of a macro of a ring builds it, which fails, or it comes too early. -/
theorem fails_findMacro {x : String} (hx : x ∈ names) (argc : Nat) (block : Bool) (s : Span)
    (owners : List String) (hring : t.work.Ring owner names first) (halert : t.work.Alert first)
    (hn : t.work.met ≤ t.work.begun + n) :
    ∃ e work, env.findMacro x argc block s (owner :: owners) t =
        .ok (.error e, { t with work }) ∧ t.work.Fails work ∧ work.Alert first ∧
      (work.Detected first ∨ ∃ x, e.cause = .requiredTooEarly x) := by
  have hps : ∀ p ∈ t.work.session.pending owner x, p.2 ≠ .resolved ∧
      ∃ d, t.work.session.definition? p.1 = some d ∧ (p.2 = .failed → d.state = .failed) ∧
      (p.2 = .unresolved → first ≤ p.1 ∧ (d.state = .unresolved ∨ d.state = .failed)) := by
    rintro ⟨id, state⟩ hmem
    obtain ⟨d, hd, -, -, rfl, hresolved⟩ := Session.mem_pending.1 hmem
    refine ⟨hresolved, d, hd, fun h => h, fun h => ⟨?_, .inl h⟩⟩
    by_contra hlt
    have := hring.earlier id d (Nat.lt_of_not_le hlt) hd
    rw [show d.state = .unresolved from h] at this
    cases this
  obtain ⟨all, work, hrun, hfails, halert', hall⟩ :=
    fails_buildPending hbuild hring halert hn hps
  have hring' := hring.fails hfails
  cases all with
  | false =>
    refine ⟨.report "typer" work.session.source (.requiredTooEarly x) s, work, ?_, hfails, halert',
      .inr ⟨x, rfl⟩⟩
    rw [findMacro]
    simp only [TypeM.bind_apply, TypeM.session_apply, hrun, Bool.false_eq_true, if_false]
    rfl
  | true =>
    -- some definition of the name waited, and has failed now
    obtain ⟨id, d, hid, hd, hname⟩ := hring.named x hx
    obtain ⟨howner, hresolved, -, -⟩ := hring.members id d hid hd
    have hmem : (id, d.state) ∈ t.work.session.pending owner x :=
      Session.mem_pending.2 ⟨d, hd, howner, hname, rfl, hresolved⟩
    obtain ⟨d', hd', hs'⟩ := hall rfl _ hmem
    have hafter : (id, BuildState.failed) ∈ work.session.pending owner x := by
      obtain ⟨d₂, hd₂, hd₂fails⟩ := hfails.definitions id d hd
      rw [hd'] at hd₂
      cases hd₂
      have hsame : d'.owner = d.owner ∧ d'.spec = d.spec := by
        rcases hd₂fails with rfl | ⟨-, unit, e, rfl⟩ <;> exact ⟨rfl, rfl⟩
      exact Session.mem_pending.2 ⟨d', hd', hsame.1.trans howner, by rw [hsame.2, hname], hs', by simp⟩
    have hany : (work.session.pending owner x).any (fun p => p.2 == .failed) = true :=
      List.any_eq_true.2 ⟨_, hafter, rfl⟩
    refine ⟨.report "typer" work.session.source (.unknownMacro x owner) s, work, ?_, hfails, halert',
      .inl (halert' id d' hid hd' hs')⟩
    rw [findMacro]
    simp only [TypeM.bind_apply, TypeM.session_apply, hrun, if_true,
      TypeRegistry.lookupMacro_of_hides (hring'.clear.visible x hx), hany]
    rfl

omit hbuild in
/-- A call for which the search fails is left alone. -/
theorem leads_invoke_of_error {scope : Scope} {x : String} {args : List Node} {block : Option Node}
    {s : Span} {t' : Typing} {e : Diagnostic}
    (h : env.findMacro x args.length block.isSome s scope.macroOwners t = .ok (.error e, t')) :
    Leads (env.infer scope ⟨s, .invoke x args block⟩) t { t' with errors := t'.errors ++ [e] } := by
  rw [infer]
  exact .bind_eq h (.bind_eq rfl (.pure _))

omit hbuild in
theorem exists_macroOwners {scope : Scope} (h : scope.selfType.owner = some owner) :
    ∃ owners, scope.macroOwners = owner :: owners := by
  simp only [Scope.macroOwners, h, Option.toList_some, List.cons_append, List.nil_append,
    List.eraseDups_cons]
  exact ⟨_, rfl⟩

omit hbuild in
/-- The code of a unit searches the class of the unit first, and then the owner of the macro. -/
theorem macroOwners_inside {unit scriptType : String}
    (hunit : (TypeRef.ofName unit).owner = some unit) : ∃ owners,
    (inside unit owner scriptType).macroOwners = unit :: owner :: owners ∨
      unit = owner ∧ (inside unit owner scriptType).macroOwners = owner :: owners := by
  have hself : (inside unit owner scriptType).selfType.owner = some unit := hunit
  have hall : (inside unit owner scriptType).macroOwners = [unit, owner, scriptType].eraseDups := by
    rw [Scope.macroOwners, hself]
    rfl
  by_cases hne : owner = unit
  · obtain ⟨owners, howners⟩ := exists_macroOwners hself
    exact ⟨owners, .inr ⟨hne.symm, hne ▸ howners⟩⟩
  · have hfilter : (!owner == unit) = true := by simpa using hne
    rw [hall, List.eraseDups_cons, List.filter_cons, if_pos hfilter, List.eraseDups_cons]
    exact ⟨_, .inl rfl⟩

/-- The authored body of a macro of a ring fails with its call. -/
theorem fails_body {unit scriptType x : String} {sb s : Span} {pre post args : List Node}
    (hunit : (TypeRef.ofName unit).owner = some unit) (hx : x ∈ names)
    (hpre : ∀ n ∈ pre, n.isLiteral = true) (hpost : ∀ n ∈ post, n.isLiteral = true)
    (hunknown : t.work.session.Unknown x unit) (hring : t.work.Ring owner names first)
    (halert : t.work.Alert first) (hn : t.work.met ≤ t.work.begun + n) :
    ∃ e work, Leads (env.infer (inside unit owner scriptType)
        ⟨sb, .body (pre ++ ⟨s, .invoke x args none⟩ :: post)⟩) t
        { t with work, errors := t.errors ++ [e] } ∧ t.work.Fails work ∧
      (work.Detected first ∨ ∃ x, e.cause = .requiredTooEarly x) := by
  obtain ⟨owners, howners⟩ := @macroOwners_inside owner _ scriptType hunit
  obtain ⟨e, work, hfind, hfails, -, hcause⟩ :=
    fails_findMacro hbuild hx args.length false s owners hring halert hn
  have hsearch : env.findMacro x args.length false s (inside unit owner scriptType).macroOwners t =
      .ok (.error e, { t with work }) := by
    rcases howners with howners | ⟨-, howners⟩
    · rw [howners, findMacro_cons_of_unknown hunknown, hfind]
    · rw [howners, hfind]
  refine ⟨e, work, ?_, hfails, hcause⟩
  have hdeclares : ∀ n ∈ pre ++ ⟨s, .invoke x args none⟩ :: post, n.declares = false := by
    intro m hm
    rcases List.mem_append.1 hm with hm | hm
    · exact Node.declares_of_isLiteral (hpre m hm)
    · rcases List.mem_cons.1 hm with rfl | hm
      · rfl
      · exact Node.declares_of_isLiteral (hpost m hm)
  refine leads_body hdeclares (leads_append hpre (leads_cons (fun _ _ _ _ h => by cases h)
    (leads_invoke_of_error hsearch) fun type ids => ?_))
  rw [← List.append_nil post]
  exact leads_append hpost (fun type ids => leads_nil type ids _) type ids

end Calls

/-! ### Builds -/

section Inline

open Node

variable {inline : InlineEnv}

/-- Literals are left alone in front of what is expanded. -/
theorem expandInline_literals {pre ns ns' : List Node} (hpre : ∀ n ∈ pre, n.isLiteral = true)
    (hns : expandInlineListM (m := Except Diagnostic) inline throw false ns = .ok ns') :
    expandInlineListM (m := Except Diagnostic) inline throw false (pre ++ ns) = .ok (pre ++ ns') := by
  induction pre with
  | nil => exact hns
  | cons n pre ih =>
    have hrest := ih fun m hm => hpre m (List.mem_cons_of_mem _ hm)
    have hn : expandInlineM (m := Except Diagnostic) inline throw false n = .ok n := by
      have hliteral := hpre n List.mem_cons_self
      obtain ⟨s, f⟩ := n
      cases f <;> first | rfl | cases hliteral
    rw [List.cons_append, expandInlineListM, hrest, hn]
    rfl

/-- Names that define no macros can be expanded. -/
theorem expandInline_args {args : List Node} (hargs : ∀ n ∈ args, n.isLiteral = true ∨
      ∃ s y, n = ⟨s, .ident y⟩ ∧ inline.macros.get? y ≠ some .definition) :
    ∃ args', expandInlineListM (m := Except Diagnostic) inline throw false args = .ok args' := by
  induction args with
  | nil => exact ⟨[], rfl⟩
  | cons n args ih =>
    obtain ⟨args', hargs'⟩ := ih fun m hm => hargs m (List.mem_cons_of_mem _ hm)
    rcases hargs n List.mem_cons_self with hliteral | ⟨s, y, rfl, hy⟩
    · exact ⟨_, @expandInline_literals _ [n] _ _ (fun m hm => by rwa [List.mem_singleton.1 hm]) hargs'⟩
    · have hident : ∃ n', expandInlineM (m := Except Diagnostic) inline throw false ⟨s, .ident y⟩ =
          .ok n' := by
        simp only [expandInlineM, Bool.false_eq_true, if_false]
        rcases hget : inline.macros.get? y with _ | _ | method
        · exact ⟨_, rfl⟩
        · exact absurd hget hy
        · exact ⟨_, rfl⟩
      obtain ⟨n', hn'⟩ := hident
      refine ⟨n' :: args', ?_⟩
      rw [expandInlineListM, hargs', hn']
      rfl

/-- Expanding inline macros keeps the one call of a body that requires a macro. -/
theorem expandInline_requires {x : String} {s : Span} {pre post args : List Node}
    (hx : inline.macros.get? x = none) (hpre : ∀ n ∈ pre, n.isLiteral = true)
    (hpost : ∀ n ∈ post, n.isLiteral = true) (hargs : ∀ n ∈ args, n.isLiteral = true ∨
      ∃ s y, n = ⟨s, .ident y⟩ ∧ inline.macros.get? y ≠ some .definition) :
    ∃ args', expandInlineListM (m := Except Diagnostic) inline throw false
        (pre ++ ⟨s, .invoke x args none⟩ :: post) =
      .ok (pre ++ ⟨s, .invoke x args' none⟩ :: post) := by
  obtain ⟨args', hargs'⟩ := expandInline_args hargs
  have hrest : expandInlineListM (m := Except Diagnostic) inline throw false post = .ok post := by
    rw [← List.append_nil post]
    exact expandInline_literals hpost rfl
  refine ⟨args', expandInline_literals hpre ?_⟩
  simp only [expandInlineListM, expandInlineM, expandInlineOptM, Bool.false_eq_true, if_false, hx,
    hargs', hrest]
  rfl

end Inline

/-- The first error of a unit is the failure of its build. -/
theorem inferUnit_of_error {typed : Scope → Node → TypeM (Node × TypeRef)} {scope : Scope}
    {tree : Node} {t' : Typing} {e : Diagnostic} {es : List Diagnostic}
    (h : Leads (typed scope tree) { t with locals := {}, errors := [] } t')
    (he : t'.errors = e :: es) :
    (inferUnit typed scope tree).run t = .ok (.error e, { t with work := t'.work }) := by
  obtain ⟨p, hp⟩ := h
  simp only [inferUnit, ExceptT.run, ExceptT.mk, TypeM.bind_apply, TypeM.get_apply,
    TypeM.modify_apply, hp, he]
  rfl

/-- A build ends with the first error of its unit. -/
theorem buildSteps_of_error {typed : Scope → Node → TypeM (Node × TypeRef)} {id : Nat}
    {d : MacroDefinition} {tree : Node} {t' : Typing} {e : Diagnostic} {es : List Diagnostic}
    (hexpand : (Extension.ofSpec (t.work.nextUnit d.owner) d.spec d.span).expandInline
      t.work.session.inlineEnv = .ok tree)
    (htyped : Leads (typed (Scope.unit (t.work.nextUnit d.owner) d.owner
      t.work.session.types.scriptType) tree) { work := (t.work.naming id d.owner).noting id .compiling } t')
    (he : t'.errors = e :: es) :
    (buildSteps typed id d).run t = .ok (.error e, { t with work := t'.work }) := by
  let start : Typing := { t with work := (t.work.naming id d.owner).noting id .compiling }
  have hunit : (inferUnit typed (Scope.unit (t.work.nextUnit d.owner) d.owner
      t.work.session.types.scriptType) tree).run start =
      .ok (.error e, { start with work := t'.work }) := inferUnit_of_error htyped he
  have hprepare : (prepare typed id d).run t = .ok (.error e, { t with work := t'.work }) := by
    rw [prepare, step_bind, extend_run, hexpand]
    show (ExceptT.lift (transition id .compiling) >>= _).run
      { t with work := t.work.naming id d.owner } = _
    rw [lift_bind, TypeM.bind_apply]
    show (ExceptT.lift TypeM.session >>= _).run start = _
    rw [lift_bind, TypeM.bind_apply, TypeM.session_apply]
    show (inferUnit typed (Scope.unit (t.work.nextUnit d.owner) d.owner
      t.work.session.types.scriptType) tree >>= _).run start = _
    rw [run_bind, hunit]
  rw [buildSteps, run_bind, hprepare]

/-- The class of a unit is not one of the types that have no methods. -/
theorem owner_unitName (k : Work) (name : String) :
    (TypeRef.ofName (k.unitName name)).owner = some (k.unitName name) := by
  have hdot : '.' ∈ (k.unitName name).toList := by simp [Work.unitName]
  refine TypeRef.owner_ofName ?_ ?_ <;> intro h <;> rw [h] at hdot <;> revert hdot <;> decide

/-- The build of a macro of a ring gets as far as the call in its body. -/
theorem fails_buildSteps {build : Nat → TypeM (Except Diagnostic Unit)}
    (hbuild : BuildsFail owner names first n build) {id : Nat} {d : MacroDefinition}
    (hring : t.work.Ring owner names first) (halert : t.work.Alert first)
    (hn : t.work.met ≤ t.work.begun + (n + 1)) (hid : first ≤ id)
    (hd : t.work.session.definition? id = some d) (hs : d.state = .unresolved) :
    ∃ e work, (buildSteps (within build expansionLimit) id d).run
        { t with work := t.work.noting id .extending } = .ok (.error e, { t with work }) ∧
      (t.work.preparing id owner).Fails work ∧
      (work.Detected first ∨ ∃ x, e.cause = .requiredTooEarly x) := by
  obtain ⟨howner, -, -, next, hnext, hrequires⟩ := hring.members id d hid hd
  obtain rfl : d.owner = owner := howner
  obtain ⟨sb, pre, s, args, post, hbody, hpre, hpost, hargs⟩ := hrequires.body
  obtain ⟨args', hitems⟩ := @expandInline_requires t.work.session.inlineEnv _ s _ _ _
    (hring.inline next (List.mem_append_right _ hnext)) hpre hpost hargs
  let unit := (t.work.noting id .extending).nextUnit d.owner
  let spec : MacroSpec :=
    { d.spec with body := ⟨sb, .body (pre ++ ⟨s, .invoke next args' none⟩ :: post)⟩ }
  have hexpand : (Extension.ofSpec unit d.spec d.span).expandInline t.work.session.inlineEnv =
      .ok (Extension.ofSpec unit spec d.span) :=
    Extension.expandInline_ofSpec (fun x hx => hring.inline x (List.mem_append_left _ hx))
      hrequires.defaults hbody hitems
  let scriptType := t.work.session.types.scriptType
  let start : Typing := { work := t.work.preparing id d.owner }
  have hunit : (TypeRef.ofName unit).owner = some unit := owner_unitName _ _
  have hring' : start.work.Ring d.owner names first := hring.preparing hid hd hs
  have halert' : start.work.Alert first :=
    halert.preparing fun d' hd' => by rw [hd] at hd'; cases hd'; exact hs
  -- nothing is known where the class looks before it looks at the owner
  have hevolves : t.work.Evolves start.work := Work.evolves_preparing hd hs
  have hunknown {r : TypeRegistry} (hr : start.work.session.types.Extends r) {x : String}
      (hx : x ∈ Extension.bodyMethod :: names) : (start.withTypes r).work.session.Unknown x unit :=
    Work.unknown_evolves (Work.unknown_evolves (hring.clear.units x hx unit
      (Work.isNewUnit_nextUnit t.work id d.owner)) (hring.clear.extension x hx) hevolves)
      (hring'.clear.extension x hx) (Work.Fails.of_types hr).evolves
  have hmethod (r : TypeRegistry) (hr : start.work.session.types.Extends r) (o : String)
      (ho : o ∈ (inside unit d.owner scriptType).macroOwners) :
      (start.withTypes r).work.session.Unknown Extension.bodyMethod o := by
    have hmem : o ∈ [unit, d.owner, scriptType] := by
      have hself : (inside unit d.owner scriptType).selfType.owner = some unit := hunit
      rw [Scope.macroOwners, hself] at ho
      exact List.mem_eraseDups.1 ho
    rcases List.mem_cons.1 hmem with rfl | ho
    · exact hunknown hr List.mem_cons_self
    · exact Work.unknown_evolves (hring'.clear.method o ho) (hring'.clear.extension _ List.mem_cons_self)
        (Work.Fails.of_types hr).evolves
  -- the class is typed up to the authored body, which fails
  obtain ⟨r, hr, hclass⟩ := @leads_ofSpec (outermost build) _ _ _ spec d.span start
    hunit hrequires.defaults hmethod
  have hfirst := Work.Fails.of_types hr
  obtain ⟨e, work, hleads, hfails, hcause⟩ := @fails_body _ _ _ _ (outermost build)
    ((start.withTypes r).withLocals (authoredLocals spec)) hbuild _ scriptType _ sb s _ _ args'
    hunit hnext hpre hpost
    (hunknown hr (List.mem_cons_of_mem _ hnext)) (hring'.fails hfirst)
    (fun other d' hother hd' hfailed => halert' other d' hother hd' hfailed) (by
      have hmet : start.work.met = t.work.met := Work.met_preparing
      have hbegun : start.work.begun = t.work.begun + 1 := Work.begun_preparing hd hs
      show start.work.met ≤ start.work.begun + n
      omega)
  obtain ⟨r', hr', htyped⟩ := hclass _ hleads
  refine ⟨e, _, buildSteps_of_error hexpand htyped rfl, (hfirst.trans hfails).trans (.of_types hr'), hcause⟩

/-- A build that has failed is not tried again. -/
theorem fails_require_failed {id : Nat} {d : MacroDefinition} (hring : t.work.Ring owner names first)
    (halert : t.work.Alert first) (hid : first ≤ id) (hd : t.work.session.definition? id = some d)
    (hs : d.state = .failed) (n : Nat) :
    ∃ e work, require n id t = .ok (.error e, { t with work }) ∧ t.work.Fails work ∧
      work.Detected first ∧
      ∃ d', work.session.definition? id = some d' ∧ d'.state = .failed ∧ d'.failure = some e := by
  obtain ⟨-, -, hfailure, -⟩ := hring.members id d hid hd
  obtain ⟨e, he⟩ := Option.isSome_iff_exists.1 (hfailure hs)
  refine ⟨e, t.work, ?_, .refl _, halert id d hid hd hs, d, hd, hs, he⟩
  rw [require]
  simp only [TypeM.bind_apply, TypeM.session_apply, hd, hs, he, TypeM.pure_apply, Option.getD_some]

/-- A failure that is due to a macro that is required too early remains one. -/
theorem cause_buildFailure {d : MacroDefinition} {unit : Option String} {e : Diagnostic} {x : String}
    (h : e.cause = .requiredTooEarly x) : (buildFailure d unit e).cause = .requiredTooEarly x := by
  simp [buildFailure, h]

/-- **Rings.** Every build of a macro of a ring fails, however deep builds may nest, and since
    one of them is required too early. -/
theorem fails_require (n : Nat) : BuildsFail owner names first n (require n) := by
  induction n with
  | zero =>
    intro t id d hring halert hn hid hd hs
    rcases hs with hs | hs
    · -- nothing is left to be built
      have hle := Work.begun_le_met (t.work.preparing id owner)
      rw [Work.met_preparing, Work.begun_preparing hd hs] at hle
      omega
    · exact fails_require_failed hring halert hid hd hs 0
  | succ n ih =>
    intro t id d hring halert hn hid hd hs
    rcases hs with hs | hs
    · obtain ⟨e, work, hsteps, hfails, hcause⟩ := fails_buildSteps ih hring halert hn hid hd hs
      let e' := buildFailure d ((work.session.definition? id).bind MacroDefinition.unit) e
      have hbuild : require (n + 1) id t = .ok (.error e', { t with work := work.concluding id e' }) := by
        rw [(require_unresolved hd hs).2, buildDefinition_apply, hsteps]
        exact conclude_error id d e { t with work }
      obtain ⟨hrest, hfailed⟩ := Work.fails_concluding hd hs hfails e'
      exact ⟨e', _, hbuild, hrest, Work.detected_concluding hid hd hs hfails e'
        (hcause.imp_right (Exists.imp fun _ hx => cause_buildFailure hx)), hfailed⟩
    · exact fails_require_failed hring halert hid hd hs (n + 1)

end Typer

end Quasiquote
