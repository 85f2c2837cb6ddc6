import Quasiquote.Proofs.Session.Assertions
import Quasiquote.Proofs.Session.Settling

namespace Quasiquote

/-!
# The life of a definition — from meeting it to its end

Definitions are built one inside the other, and while one is built others come and go.  Each
of them goes through the same stages nevertheless, once, and stops at the last one or fails
on the way.

* `MacroDefinition.Later` — what never changes about a definition, and what does not change
  again;
* `MacroDefinition.Turn` — how a step may change a definition;
* `Work.Advance`, `Work.History` — the steps of a session, with the code generations and
  loads among them, and what a session has gone through;
* `Work.History.along_require`, `Work.History.along_inferWithin`,
  `Work.History.along_reached` — building, typing and compiling continue histories, cut off
  or not;
* `Work.History.life_cycle` — the life of a definition.
-/

/-! ### Definitions -/

namespace BuildState

/-- The stages of a build that succeeds. -/
def stages : List BuildState :=
  [.unresolved, .extending, .compiling, .loading, .registering, .resolved]

/-- How many stages precede one. -/
def rank : BuildState → Nat
  | .unresolved => 0
  | .extending => 1
  | .compiling => 2
  | .loading => 3
  | .registering => 4
  | .resolved => 5
  | .failed => 6

/-- The stages up to one end with it. -/
theorem getLast?_take_rank {b : BuildState} (h : b ≠ .failed) :
    (stages.take (b.rank + 1)).getLast? = some b := by
  cases b
  case failed => exact absurd rfl h
  all_goals rfl

/-- The stages up to one are those before it and the stage itself. -/
theorem take_rank_append {b : BuildState} (h : b ≠ .failed) :
    stages.take b.rank ++ [b] = stages.take (b.rank + 1) := by
  cases b
  case failed => exact absurd rfl h
  all_goals rfl

/-- Whether the stages that a definition goes through are the first ones of a build that
    succeeds, or some that precede success and then failure. -/
def IsLife (l : List BuildState) : Prop :=
  l <+: stages ∨ ∃ p, p <+: stages.dropLast ∧ l = p ++ [.failed]

end BuildState

/-- What happens in a step of a session: the code of the unit of a definition is generated,
    the unit is loaded, or anything else. -/
inductive Event where
  | generate (id : Nat)
  | load (id : Nat)
  | other
deriving DecidableEq

namespace MacroDefinition

/-- Whether `d'` may be what has become of `d`. -/
structure Later (d d' : MacroDefinition) : Prop where
  spec : d'.spec = d.spec
  owner : d'.owner = d.owner
  span : d'.span = d.span
  source : d'.source = d.source
  /-- The name of the unit is given once. -/
  unit : ∀ unit, d.unit = some unit → d'.unit = some unit
  final : d.state.isFinal = true → d' = d

namespace Later

theorem refl (d : MacroDefinition) : Later d d := ⟨rfl, rfl, rfl, rfl, fun _ h => h, fun _ => rfl⟩

theorem trans {d d' d'' : MacroDefinition} (h : Later d d') (h' : Later d' d'') : Later d d'' where
  spec := h'.spec.trans h.spec
  owner := h'.owner.trans h.owner
  span := h'.span.trans h.span
  source := h'.source.trans h.source
  unit unit hunit := h'.unit unit (h.unit unit hunit)
  final hfinal := by
    obtain rfl := h.final hfinal
    exact h'.final hfinal

end Later

/-- How the definition with number `id` changes in a step. -/
inductive Turn (id : Nat) : Event → MacroDefinition → MacroDefinition → Prop
  /-- The build begins, and the unit gets its name. -/
  | begin (d : MacroDefinition) (unit : String) (h : d.state = .unresolved) :
    Turn id .other d { d with state := .extending, unit := some unit }
  | compiling (d : MacroDefinition) (h : d.state = .extending) :
    Turn id .other d { d with state := .compiling }
  | generated (d : MacroDefinition) (h : d.state = .compiling) :
    Turn id (.generate id) d { d with state := .loading }
  | notGenerated (d : MacroDefinition) (e : Diagnostic) (h : d.state = .compiling) :
    Turn id (.generate id) d { d with state := .failed, failure := some e }
  | loaded (d : MacroDefinition) (h : d.state = .loading) :
    Turn id (.load id) d { d with state := .registering }
  | notLoaded (d : MacroDefinition) (e : Diagnostic) (h : d.state = .loading) :
    Turn id (.load id) d { d with state := .failed, failure := some e }
  | resolve (d : MacroDefinition) (h : d.state = .registering) :
    Turn id .other d { d with state := .resolved }
  | fail (d : MacroDefinition) (e : Diagnostic)
      (h : d.state = .extending ∨ d.state = .compiling ∨ d.state = .registering) :
    Turn id .other d { d with state := .failed, failure := some e }

/-- Whether a definition has a unit as soon as it is built, and a failure if it has failed. -/
structure WellFormed (d : MacroDefinition) : Prop where
  unit : d.unit = none ↔ d.state = .unresolved
  failure : d.state = .failed → ∃ e, d.failure = some e

namespace Turn

variable {id : Nat} {e : Event} {d d' : MacroDefinition}

/-- A definition that is to be built, or is built, changes. -/
theorem not_final (h : Turn id e d d') : d.state.isFinal = false := by
  cases h
  case fail h => rcases h with h | h | h <;> rw [h] <;> rfl
  all_goals
    rename_i h
    rw [h]
    rfl

/-- The code and the unit of no other definition are concerned. -/
theorem event_ne (h : Turn id e d d') {other : Nat} (hne : id ≠ other) :
    e ≠ .generate other ∧ e ≠ .load other := by
  cases h <;> simp [hne]

/-- A build goes on by one stage, or it fails. -/
theorem rank_cases (h : Turn id e d d') :
    d'.state = .failed ∧ d.state.rank < 5 ∨
      d'.state ≠ .failed ∧ d'.state.rank = d.state.rank + 1 ∧ d.state.rank < 5 := by
  cases h
  case fail h => rcases h with h | h | h <;> simp [h, BuildState.rank]
  all_goals
    rename_i h
    simp [h, BuildState.rank]

/-- Code is generated before a unit is loaded, and each is done at a stage of its own. -/
theorem rank_of_event (h : Turn id e d d') :
    (e = .generate id → d.state.rank = 2) ∧ (e = .load id → d.state.rank = 3) := by
  cases h
  case generated h | notGenerated h | loaded h | notLoaded h => simp [h, BuildState.rank]
  all_goals exact ⟨nofun, nofun⟩

theorem later (h : Turn id e d d') (hd : d.WellFormed) : d.Later d' := by
  have hfinal : d.state.isFinal = true → d' = d := by
    intro hd
    rw [h.not_final] at hd
    cases hd
  cases h
  case begin unit hopen =>
    refine ⟨rfl, rfl, rfl, rfl, fun unit hunit => ?_, hfinal⟩
    rw [hd.unit.2 hopen] at hunit
    cases hunit
  all_goals exact ⟨rfl, rfl, rfl, rfl, fun _ hunit => hunit, hfinal⟩

theorem wellFormed (h : Turn id e d d') (hd : d.WellFormed) : d'.WellFormed := by
  have hunit (h : d.state ≠ .unresolved) : d.unit ≠ none := fun hnone => h (hd.unit.1 hnone)
  cases h
  case begin unit hopen => exact ⟨by simp, nofun⟩
  case notGenerated e h | notLoaded e h =>
    exact ⟨by simpa using hunit (by rw [h]; decide), fun _ => ⟨e, rfl⟩⟩
  case fail e h =>
    have hne : d.state ≠ .unresolved := by rcases h with h | h | h <;> rw [h] <;> decide
    exact ⟨by simpa using hunit hne, fun _ => ⟨e, rfl⟩⟩
  case compiling h | generated h | loaded h | resolve h =>
    exact ⟨by simpa using hunit (by rw [h]; decide), nofun⟩

end Turn

end MacroDefinition

namespace Work

/-- The session in which a definition has failed. -/
def failing (k : Work) (id : Nat) (e : Diagnostic) : Work :=
  { k with session := k.session.modifyDefinition id fun d =>
    { d with state := .failed, failure := some e } }

/-- One step of a session, or of the world around it. -/
inductive Advance (k : Work) : Event → Work → Prop
  | meet (spec : MacroSpec) (owner : String) (span : Span) :
    Advance k .other { k with session := { k.session with definitions :=
      k.session.definitions ++ [{ spec, owner, span, source := k.session.source }] } }
  | declare (owner : String) (m : Method) :
    Advance k .other { k with session := { k.session with
      types := k.session.types.modify owner (·.define m) } }
  | importType (name : String) :
    Advance k .other ((SessionM.importType name).run k).2
  | openType (name : String) (superclass : Option String) (persistent : Bool) :
    Advance k .other { k with session := { k.session with
      types := k.session.types.openType name superclass persistent } }
  | expand (unit : LoadedUnit) (call : Node) :
    Advance k .other ⟨{ k.session with scopes := (k.expanded unit call).scopes },
      { k.world with printed := k.world.printed ++ (k.expanded unit call).output }⟩
  | record (e : ExpansionStep) :
    Advance k .other { k with session := { k.session with
      expansions := k.session.expansions ++ [e] } }
  -- the build of a definition
  | begin {id : Nat} {d : MacroDefinition} (hd : k.session.definition? id = some d)
      (hs : d.state = .unresolved) :
    Advance k .other ((k.noting id .extending).naming id d.owner)
  | compiling {id : Nat} {d : MacroDefinition}
      (hd : k.session.definition? id = some d) (hs : d.state = .extending) :
    Advance k .other (k.noting id .compiling)
  | generated {id : Nat} {d : MacroDefinition}
      (hd : k.session.definition? id = some d) (hs : d.state = .compiling) {n : Node}
      {files : Artifacts} {k' : Work}
      (hrun : (SessionM.onScopes (Artifacts.ofProgram n)).run k = (.ok files, k')) :
    Advance k (.generate id) (k'.noting id .loading)
  | notGenerated {id : Nat} {d : MacroDefinition}
      (hd : k.session.definition? id = some d) (hs : d.state = .compiling) {n : Node}
      {e : Diagnostic} {k' : Work}
      (hrun : (SessionM.onScopes (Artifacts.ofProgram n)).run k = (.error e, k'))
      (failure : Diagnostic) :
    Advance k (.generate id) (k'.failing id failure)
  | loaded {id : Nat} {d : MacroDefinition}
      (hd : k.session.definition? id = some d) (hs : d.state = .loading) {unit : String}
      (hunit : d.unit = some unit) {files : Artifacts} {u : LoadedUnit} {k' : Work}
      (hrun : (SessionM.loadUnit unit files).run k = (.ok u, k')) :
    Advance k (.load id) (k'.noting id .registering)
  | notLoaded {id : Nat} {d : MacroDefinition}
      (hd : k.session.definition? id = some d) (hs : d.state = .loading) {unit : String}
      (hunit : d.unit = some unit) {files : Artifacts} {e : Diagnostic} {k' : Work}
      (hrun : (SessionM.loadUnit unit files).run k = (.error e, k')) (failure : Diagnostic) :
    Advance k (.load id) (k'.failing id failure)
  | register {id : Nat} {d d₀ : MacroDefinition}
      (hd : k.session.definition? id = some d) (hs : d.state = .registering)
      (hd₀ : d₀.Later d) {unit : String} (hunit : d.unit = some unit) (u : LoadedUnit) :
    Advance k .other ((Typer.registerMacro d₀ unit u).run k).2
  | persist {id : Nat} {d : MacroDefinition}
      (hd : k.session.definition? id = some d) (hs : d.state = .registering) (files : Artifacts) :
    Advance k .other ((Typer.persist files).run k).2
  | resolve {id : Nat} {d : MacroDefinition}
      (hd : k.session.definition? id = some d) (hs : d.state = .registering) :
    Advance k .other (k.noting id .resolved)
  | fail {id : Nat} {d : MacroDefinition} (hd : k.session.definition? id = some d)
      (hs : d.state = .extending ∨ d.state = .compiling ∨ d.state = .registering)
      (failure : Diagnostic) : Advance k .other (k.failing id failure)
  -- other uses of a session
  | enter (source : String) : Advance k .other (k.enter source)
  | template (text label : String) (values : List Node) :
    Advance k .other
      ((SessionM.onScopes ((TypeM.evaluation k.session).template text label values)).run k).2
  | freshName (base : String) : Advance k .other (k.freshName base).2
  | bindInline (inline : InlineMacros) :
    Advance k .other { k with session := { k.session with inline } }
  /-- Files are written, by the session or by others, and units are shared by others. -/
  | world (world : World) : Advance k .other { k with world }

theorem definitions_of_loadUnit {k k' : Work} {unit : String} {files : Artifacts}
    {r : Except Diagnostic LoadedUnit} (h : (SessionM.loadUnit unit files).run k = (r, k')) :
    k'.session.definitions = k.session.definitions := by
  obtain ⟨units, hunits⟩ := SessionM.keeps_loadUnit unit files k
  have hk' : k' = k.withUnits units := by
    rw [← hunits]
    exact (congrArg Prod.snd h).symm
  rw [hk', definitions_withUnits]

/-- A step leaves all definitions alone, meets a new one, or makes one of them take a turn. -/
theorem Advance.definitions_cases {e : Event} {k k' : Work} (h : k.Advance e k') :
    e = .other ∧ k'.session.definitions = k.session.definitions ∨
    (∃ d : MacroDefinition, e = .other ∧ d.state = .unresolved ∧ d.unit = none ∧
      k'.session.definitions = k.session.definitions ++ [d]) ∨
    ∃ id f d, k.session.definition? id = some d ∧ d.Turn id e (f d) ∧
      k'.session.definitions = k.session.definitions.modify id f := by
  cases h
  case meet => exact .inr (.inl ⟨_, rfl, rfl, rfl, rfl⟩)
  case importType name =>
    obtain ⟨types, units, h⟩ := SessionM.keeps_importType name k
    exact .inl ⟨rfl, by rw [h, definitions_withUnits]⟩
  case begin id d hd hs =>
    let unit := (k.noting id .extending).nextUnit d.owner
    refine .inr (.inr ⟨id, fun d => { d with state := .extending, unit := some unit }, d, hd,
      .begin d unit hs, ?_⟩)
    exact List.modify_modify_eq _ _ _ _
  case compiling id d hd hs => exact .inr (.inr ⟨id, _, d, hd, .compiling d hs, rfl⟩)
  case generated id d hd hs n files k' hrun =>
    obtain rfl : _ = k' := congrArg Prod.snd hrun
    exact .inr (.inr ⟨id, _, d, hd, .generated d hs, rfl⟩)
  case notGenerated id d hd hs n e k' hrun failure =>
    obtain rfl : _ = k' := congrArg Prod.snd hrun
    exact .inr (.inr ⟨id, _, d, hd, .notGenerated d failure hs, rfl⟩)
  case loaded id d hd hs unit hunit files u k' hrun =>
    refine .inr (.inr ⟨id, fun d => { d with state := .registering }, d, hd, .loaded d hs, ?_⟩)
    rw [← definitions_of_loadUnit hrun]
    rfl
  case notLoaded id d hd hs unit hunit files e k' hrun failure =>
    refine .inr (.inr ⟨id, fun d => { d with state := .failed, failure := some failure }, d, hd,
      .notLoaded d failure hs, ?_⟩)
    rw [← definitions_of_loadUnit hrun]
    rfl
  case register id d d₀ hd hs hd₀ unit hunit u =>
    refine .inl ⟨rfl, ?_⟩
    rw [Typer.registerMacro_run]
    split <;> rfl
  case persist id d hd hs files =>
    refine .inl ⟨rfl, ?_⟩
    rw [Typer.persist_run]
    split <;> rfl
  case resolve id d hd hs => exact .inr (.inr ⟨id, _, d, hd, .resolve d hs, rfl⟩)
  case fail id d hd hs failure => exact .inr (.inr ⟨id, _, d, hd, .fail d failure hs, rfl⟩)
  all_goals exact .inl ⟨rfl, rfl⟩

/-- What a step does to one definition: nothing, or it meets it, or it makes it take a turn. -/
theorem Advance.definition_cases {e : Event} {k k' : Work} (h : k.Advance e k') (id : Nat) :
    (k'.session.definition? id = k.session.definition? id ∧ e ≠ .generate id ∧ e ≠ .load id) ∨
    (∃ d : MacroDefinition, k.session.definition? id = none ∧ d.state = .unresolved ∧
      d.unit = none ∧ e = .other ∧ k'.session.definition? id = some d) ∨
    ∃ d d', k.session.definition? id = some d ∧ k'.session.definition? id = some d' ∧
      d.Turn id e d' := by
  unfold Session.definition?
  rcases h.definitions_cases with ⟨rfl, hsame⟩ | ⟨d, rfl, hs, hunit, hmore⟩ |
    ⟨other, f, d, hd, hturn, hmod⟩
  · exact .inl ⟨by rw [hsame], nofun, nofun⟩
  · rw [hmore]
    by_cases hid : id = k.session.definitions.length
    · subst hid
      exact .inr (.inl ⟨d, List.getElem?_eq_none (Nat.le_refl _), hs, hunit, rfl,
        List.getElem?_concat_length⟩)
    · refine .inl ⟨?_, nofun, nofun⟩
      rcases Nat.lt_or_gt_of_ne hid with hlt | hgt
      · exact List.getElem?_append_left hlt
      · rw [List.getElem?_eq_none (by simp; omega), List.getElem?_eq_none (by omega)]
  · by_cases hid : other = id
    · subst hid
      exact .inr (.inr ⟨d, f d, hd, Session.definition?_modify_self hmod hd, hturn⟩)
    · exact .inl ⟨Session.definition?_modify_ne hmod (Ne.symm hid), hturn.event_ne hid⟩

/-- What a session has gone through, the last step first: after each step, what happened in
    it and the session that it led to. -/
inductive History : List (Event × Work) → Prop
  | start (settings : Settings) (backend : Backend) (inline : InlineMacros) (world : World) :
    History [(.other, ⟨{ Session.start settings backend with inline }, world⟩)]
  | step {e e' : Event} {k k' : Work} {past : List (Event × Work)} (h : History ((e, k) :: past))
      (hstep : k.Advance e' k') : History ((e', k') :: (e, k) :: past)

/-- Whether a session comes after a history, that is, ends one that continues it. -/
def Along (ms : List (Event × Work)) (k : Work) : Prop :=
  ∃ e past, History ((e, k) :: past) ∧ ms <:+ (e, k) :: past

theorem Along.step {ms : List (Event × Work)} {k k' : Work} {e : Event} (h : Along ms k)
    (hstep : k.Advance e k') : Along ms k' := by
  obtain ⟨e₀, past, hpast, hsuffix⟩ := h
  exact ⟨e, _, hpast.step hstep, hsuffix.trans (List.suffix_cons _ _)⟩

theorem History.along {e : Event} {k : Work} {past : List (Event × Work)}
    (h : History ((e, k) :: past)) : Along ((e, k) :: past) k := ⟨e, past, h, List.suffix_refl _⟩

/-! ### Invariants of histories -/

/-- Definitions are well-formed at all times. -/
theorem History.wellFormed {ms : List (Event × Work)} (h : History ms) {m : Event × Work}
    (hm : m ∈ ms) {id : Nat} {d : MacroDefinition} (hd : m.2.session.definition? id = some d) :
    d.WellFormed := by
  induction h generalizing m d with
  | start =>
    cases List.mem_singleton.1 hm
    cases hd
  | @step e e' k k' past _ hstep ih =>
    rcases List.mem_cons.1 hm with rfl | hm
    · rcases hstep.definition_cases id with ⟨hsame, -⟩ | ⟨d', -, hs, hunit, -, hd'⟩ |
        ⟨d₀, d', hd₀, hd', hturn⟩
      · exact ih List.mem_cons_self (hsame ▸ hd)
      · rw [hd'] at hd
        cases hd
        exact ⟨by simp [hs, hunit], by simp [hs]⟩
      · rw [hd'] at hd
        cases hd
        exact hturn.wellFormed (ih List.mem_cons_self hd₀)
    · exact ih hm hd

/-- A definition stays, and it becomes what it may become. -/
theorem History.later {ms : List (Event × Work)} (h : History ms) :
    ms.Pairwise fun m' m => ∀ id d, m.2.session.definition? id = some d →
      ∃ d', m'.2.session.definition? id = some d' ∧ d.Later d' := by
  induction h with
  | start => exact List.pairwise_singleton _ _
  | @step e e' k k' past hpast hstep ih =>
    have hnext : ∀ id d, k.session.definition? id = some d →
        ∃ d', k'.session.definition? id = some d' ∧ d.Later d' := by
      intro id d hd
      rcases hstep.definition_cases id with ⟨hsame, -⟩ | ⟨_, hnone, -⟩ | ⟨d₀, d', hd₀, hd', hturn⟩
      · exact ⟨d, hsame.trans hd, .refl d⟩
      · rw [hnone] at hd
        cases hd
      · rw [hd₀] at hd
        cases hd
        exact ⟨d', hd', hturn.later (hpast.wellFormed List.mem_cons_self hd₀)⟩
    refine List.pairwise_cons.2 ⟨fun m hm id d hd => ?_, ih⟩
    rcases List.mem_cons.1 hm with rfl | hm
    · exact hnext id d hd
    · obtain ⟨d₁, hd₁, hlater⟩ := (List.pairwise_cons.1 ih).1 m hm id d hd
      obtain ⟨d₂, hd₂, hlater'⟩ := hnext id d₁ hd₁
      exact ⟨d₂, hd₂, hlater.trans hlater'⟩

/-- What comes after a session has its definitions, or what has become of them. -/
theorem Along.definition {e : Event} {k k' : Work} {past : List (Event × Work)}
    (h : Along ((e, k) :: past) k') {id : Nat} {d : MacroDefinition}
    (hd : k.session.definition? id = some d) :
    ∃ d', k'.session.definition? id = some d' ∧ d.Later d' := by
  obtain ⟨e', past', hhistory, hsuffix⟩ := h
  rcases List.suffix_cons_iff.1 hsuffix with heq | hsuffix
  · cases heq
    exact ⟨d, hd, .refl d⟩
  · exact (List.pairwise_cons.1 hhistory.later).1 (e, k) (hsuffix.subset List.mem_cons_self) id d hd

theorem Along.trans {ms ms' : List (Event × Work)} {k : Work} (hsuffix : ms <:+ ms')
    (h : Along ms' k) : Along ms k := by
  obtain ⟨e, past, hhistory, hsuffix'⟩ := h
  exact ⟨e, past, hhistory, hsuffix.trans hsuffix'⟩

/-! ### Stages -/

/-- The stages that a definition has gone through, each noted when it is reached. -/
def visited (id : Nat) : List (Event × Work) → List BuildState
  | [] => []
  | m :: past => match m.2.stateOf id with
    | none => visited id past
    | some s => if (visited id past).getLast? = some s then visited id past
      else visited id past ++ [s]

/-- How often the code of a definition's unit was generated. -/
def generations (id : Nat) (ms : List (Event × Work)) : Nat :=
  (ms.map Prod.fst).count (.generate id)

/-- How often the unit of a definition was loaded. -/
def loads (id : Nat) (ms : List (Event × Work)) : Nat := (ms.map Prod.fst).count (.load id)

/-- What a definition has gone through when it has reached some stage, or is not met. -/
structure Course (id : Nat) (ms : List (Event × Work)) (s : Option BuildState) : Prop where
  unmet : s = none → visited id ms = []
  passed : ∀ b, s = some b → b ≠ .failed → visited id ms = BuildState.stages.take (b.rank + 1)
  failed : s = some .failed → ∃ n < 5, visited id ms = BuildState.stages.take (n + 1) ++ [.failed]
  generations : generations id ms ≤ if (s.map BuildState.rank).getD 0 < 3 then 0 else 1
  loads : loads id ms ≤ if (s.map BuildState.rank).getD 0 < 4 then 0 else 1

namespace Course

variable {id : Nat} {ms : List (Event × Work)} {s : Option BuildState} {e : Event} {k : Work}

/-- The stage that is noted last is the present one. -/
theorem getLast?_visited (h : Course id ms s) : (visited id ms).getLast? = s := by
  cases s with
  | none =>
    rw [h.unmet rfl]
    rfl
  | some b =>
    by_cases hb : b = .failed
    · subst hb
      obtain ⟨n, -, hvisited⟩ := h.failed rfl
      rw [hvisited, List.getLast?_concat]
    · rw [h.passed b rfl hb]
      exact BuildState.getLast?_take_rank hb

/-- Nothing happens to the definition. -/
theorem stay (h : Course id ms (k.stateOf id)) (hgenerate : e ≠ .generate id)
    (hload : e ≠ .load id) : Course id ((e, k) :: ms) (k.stateOf id) := by
  have hvisited : visited id ((e, k) :: ms) = visited id ms := by
    have hlast := h.getLast?_visited
    cases hs : k.stateOf id with
    | none => simp only [visited, hs]
    | some b =>
      rw [hs] at hlast
      simp only [visited, hs, if_pos hlast]
  exact {
    unmet hs := hvisited.trans (h.unmet hs)
    passed b hb hne := hvisited.trans (h.passed b hb hne)
    failed hs := hvisited ▸ h.failed hs
    generations := by simpa [Work.generations, hgenerate] using h.generations
    loads := by simpa [Work.loads, hload] using h.loads }

/-- The definition reaches a stage. -/
theorem visited_reach (h : Course id ms s) {b : BuildState} (hk : k.stateOf id = some b)
    (hne : s ≠ some b) : visited id ((e, k) :: ms) = visited id ms ++ [b] := by
  have hlast : (visited id ms).getLast? ≠ some b := h.getLast?_visited ▸ hne
  simp only [visited, hk, if_neg hlast]

/-- The definition is met. -/
theorem meet (h : Course id ms none) (hk : k.stateOf id = some .unresolved) (hother : e = .other) :
    Course id ((e, k) :: ms) (some .unresolved) where
  unmet := nofun
  passed b hb _ := by
    cases hb
    rw [h.visited_reach hk nofun, h.unmet rfl]
    rfl
  failed := nofun
  generations := by simpa [Work.generations, hother, BuildState.rank] using h.generations
  loads := by simpa [Work.loads, hother, BuildState.rank] using h.loads

/-- The definition takes a turn. -/
theorem turn {d d' : MacroDefinition} (h : Course id ms (some d.state)) (hturn : d.Turn id e d')
    (hk : k.stateOf id = some d'.state) : Course id ((e, k) :: ms) (some d'.state) := by
  obtain ⟨hgenerate, hload⟩ := hturn.rank_of_event
  have hgenerations : Work.generations id ((e, k) :: ms) =
      Work.generations id ms + if e = .generate id then 1 else 0 := by
    simp [Work.generations, List.count_cons]
  have hloads : Work.loads id ((e, k) :: ms) =
      Work.loads id ms + if e = .load id then 1 else 0 := by
    simp [Work.loads, List.count_cons]
  have hd : d.state ≠ .failed := by
    intro hd
    have := hturn.not_final
    rw [hd] at this
    cases this
  have hpassed := h.passed _ rfl hd
  have hcases := hturn.rank_cases
  have hlater : d.state.rank < d'.state.rank := by
    rcases hcases with ⟨hfailed, hrank⟩ | ⟨-, hnext, -⟩
    · rw [hfailed]
      exact Nat.lt_succ_of_lt hrank
    · omega
  have hg := h.generations
  have hl := h.loads
  simp only [Option.map_some, Option.getD_some] at hg hl
  -- each of the two is done at one stage, and not before
  have hg' : Work.generations id ((e, k) :: ms) ≤ if d'.state.rank < 3 then 0 else 1 := by
    rw [hgenerations]
    split at hg <;> split <;> split <;> grind
  have hl' : Work.loads id ((e, k) :: ms) ≤ if d'.state.rank < 4 then 0 else 1 := by
    rw [hloads]
    split at hl <;> split <;> split <;> grind
  rcases hcases with ⟨hfailed, hrank⟩ | ⟨hne, hnext, -⟩
  · have hreach : visited id ((e, k) :: ms) = visited id ms ++ [d'.state] :=
      h.visited_reach hk fun heq => hd ((Option.some.inj heq).trans hfailed)
    rw [hpassed, hfailed] at hreach
    exact {
      unmet := nofun
      passed b hb hne := absurd ((Option.some.inj hb).symm.trans hfailed) hne
      failed _ := ⟨d.state.rank, hrank, hreach⟩
      generations := hg'
      loads := hl' }
  · have hreach : visited id ((e, k) :: ms) = visited id ms ++ [d'.state] :=
      h.visited_reach hk fun heq => by
        rw [Option.some.inj heq] at hnext
        omega
    rw [hpassed, ← hnext, BuildState.take_rank_append hne] at hreach
    exact {
      unmet := nofun
      passed b hb _ := Option.some.inj hb ▸ hreach
      failed hb := absurd (Option.some.inj hb) hne
      generations := hg'
      loads := hl' }

/-- A definition has lived as far as it has. -/
theorem isLife (h : Course id ms s) : BuildState.IsLife (visited id ms) := by
  cases s with
  | none =>
    rw [h.unmet rfl]
    exact .inl List.nil_prefix
  | some b =>
    by_cases hb : b = .failed
    · obtain ⟨n, hn, hvisited⟩ := h.failed (congrArg some hb)
      refine .inr ⟨_, ?_, hvisited⟩
      exact List.take_prefix_take_left (show n + 1 ≤ 5 by omega)
    · rw [h.passed b rfl hb]
      exact .inl (List.take_prefix _ _)

end Course

/-- Every definition takes its course. -/
theorem History.course {ms : List (Event × Work)} (h : History ms) (id : Nat) :
    ∃ e k past, ms = (e, k) :: past ∧ Course id ms (k.stateOf id) := by
  induction h with
  | start settings backend inline world =>
    refine ⟨_, _, _, rfl, ?_⟩
    exact {
      unmet _ := rfl
      passed _ hb _ := by cases hb
      failed hs := by cases hs
      generations := Nat.zero_le _
      loads := Nat.zero_le _ }
  | @step e e' k k' past _ hstep ih =>
    obtain ⟨_, _, _, heq, hcourse⟩ := ih
    cases heq
    refine ⟨e', k', _, rfl, ?_⟩
    rcases hstep.definition_cases id with ⟨hsame, hgenerate, hload⟩ |
      ⟨d, hnone, hs, -, hother, hd⟩ | ⟨d, d', hd, hd', hturn⟩
    · have hstate : k'.stateOf id = k.stateOf id := congrArg (Option.map _) hsame
      rw [← hstate] at hcourse
      exact hcourse.stay hgenerate hload
    · have hstate : k'.stateOf id = some .unresolved := by rw [stateOf, hd, Option.map_some, hs]
      rw [stateOf, hnone] at hcourse
      exact hstate ▸ hcourse.meet hstate hother
    · have hstate : k'.stateOf id = some d'.state := by rw [stateOf, hd', Option.map_some]
      rw [stateOf, hd] at hcourse
      exact hstate ▸ hcourse.turn hturn hstate

end Work

namespace Typer

open Work TypeM

/-! ### Computations continue histories -/

/-- What typing does step by step continues a history. -/
theorem preserved_along (ms : List (Event × Work)) : Preserved (Along ms) where
  meet h spec owner span := h.step (.meet spec owner span)
  declare h owner m := h.step (.declare owner m)
  importType h name _ := h.step (.importType name)
  openType h name superclass persistent := h.step (.openType name superclass persistent)
  expand h unit call := h.step (.expand unit call)
  record h e _ := h.step (.record e)

/-- Whether a session continues a history, and a definition that is being built, known as
    `d₀` when its build began, stands at a stage of it. -/
structure Stands (ms : List (Event × Work)) (id : Nat) (d₀ : MacroDefinition) (unit : String)
    (state : BuildState) (k : Work) : Prop where
  along : Along ms k
  definition : ∃ d, k.session.definition? id = some d ∧ d.state = state ∧ d.unit = some unit ∧
    d₀.Later d

namespace Stands

variable {ms : List (Event × Work)} {id : Nat} {d₀ : MacroDefinition} {unit : String}
  {state state' : BuildState} {k k' : Work}

/-- A later session, in which the definition is known to be at a stage. -/
theorem later (h : Stands ms id d₀ unit state k)
    (hlater : ∀ ms', Along ms' k → Along ms' k') (hstate : k'.stateOf id = some state') :
    Stands ms id d₀ unit state' k' := by
  obtain ⟨⟨e, past, hhistory, hsuffix⟩, d, hd, -, hunit, hd₀⟩ := h
  have hk' := hlater _ hhistory.along
  obtain ⟨d', hd', hdd'⟩ := hk'.definition hd
  refine ⟨hk'.trans hsuffix, d', hd', ?_, hdd'.unit _ hunit, hd₀.trans hdd'⟩
  rw [stateOf, hd'] at hstate
  exact Option.some.inj hstate

/-- Typing that ends leaves the definition where it is. -/
theorem typed {typed : Scope → Node → TypeM (Node × TypeRef)}
    (halong : ∀ ms scope n, Preserves (Along ms) (typed scope n))
    (hsettling : ∀ scope n, Settling (fun _ => False) (typed scope n)) {scope : Scope} {n : Node}
    {t s : Typing} {p : Node × TypeRef} (hbuilding : state.isBuilding = true)
    (h : Stands ms id d₀ unit state t.work) (hrun : typed scope n t = .ok (p, s)) :
    Stands ms id d₀ unit state s.work := by
  have hbefore : t.work.stateOf id = some state := by
    obtain ⟨-, d, hd, rfl, -⟩ := h
    rw [stateOf, hd, Option.map_some]
  refine h.later (fun ms' hms' => ?_) ?_
  · have := halong ms' scope n t hms'
    rwa [hrun] at this
  · -- a definition that is being built is not open
    rcases (hsettling scope n t p s hrun).states id not_false with hsame | ⟨hopen, -⟩
    · rw [hsame, hbefore]
    · rw [hbefore] at hopen
      rcases hopen with hopen | hopen
      · cases hopen
      · cases hopen
        cases hbuilding

/-- The definition takes a step of its build. -/
theorem step {e : Event} (h : Stands ms id d₀ unit state k)
    (hstep : ∀ d, k.session.definition? id = some d → d.state = state → d.unit = some unit →
      d₀.Later d → k.Advance e k')
    (hstate : k.stateOf id = some state → k'.stateOf id = some state') :
    Stands ms id d₀ unit state' k' := by
  have ⟨d, hd, hs, hunit, hd₀⟩ := h.definition
  refine h.later (fun ms' hms' => hms'.step (hstep d hd hs hunit hd₀)) (hstate ?_)
  rw [stateOf, hd, Option.map_some, hs]

/-- A build may fail at most of its stages, whatever the failure. -/
theorem fails (h : Stands ms id d₀ unit state k)
    (hstate : state = .extending ∨ state = .compiling ∨ state = .registering) (e : Diagnostic) :
    Along ms (k.failing id e) := by
  have ⟨d, hd, hs, _⟩ := h.definition
  exact h.along.step (.fail hd (hs ▸ hstate) e)

end Stands

section Build

variable {ms : List (Event × Work)} {id : Nat} {d : MacroDefinition} {unit : String}

theorem stateOf_noting {k : Work} {state : BuildState} (h : k.stateOf id = some state)
    (state' : BuildState) : (k.noting id state').stateOf id = some state' := by
  obtain ⟨d, hd, -⟩ := exists_of_stateOf h
  have hnoted : (k.noting id state').session.definition? id = some { d with state := state' } :=
    Session.definition?_modifyDefinition hd
  rw [stateOf, hnoted]
  rfl

/-- A build begins. -/
theorem stands_begin {k : Work} (hk : Along ms k) (hd : k.session.definition? id = some d)
    (hs : d.state = .unresolved) :
    Stands ms id d ((k.noting id .extending).nextUnit d.owner) .extending
      ((k.noting id .extending).naming id d.owner) where
  along := hk.step (.begin hd hs)
  definition := by
    obtain ⟨e, past, hhistory, -⟩ := hk
    let unit := (k.noting id .extending).nextUnit d.owner
    refine ⟨{ d with state := .extending, unit := some unit }, ?_, rfl, rfl, ?_⟩
    · have hnoted : (k.noting id .extending).session.definition? id =
          some { d with state := .extending } := Session.definition?_modifyDefinition hd
      exact Session.definition?_modifyDefinition hnoted
    · have hturn : MacroDefinition.Turn id .other d { d with state := .extending, unit := some unit } := .begin d unit hs
      exact hturn.later (hhistory.wellFormed List.mem_cons_self hd)

variable {typed : Scope → Node → TypeM (Node × TypeRef)}
  (halong : ∀ ms scope n, Preserves (Along ms) (typed scope n))
  (hsettling : ∀ scope n, Settling (fun _ => False) (typed scope n))
include halong hsettling

/-- Typing a unit leaves its definition where it is. -/
theorem holds_inferUnit (scope : Scope) (n : Node) :
    Holds (Stands ms id d unit .compiling) (inferUnit typed scope n)
      (fun _ => Stands ms id d unit .compiling) (fun _ k => ∀ e, Along ms (k.failing id e))
      (Along ms) := by
  intro t ht
  have hcut := halong ms scope n { t with locals := {}, errors := [] } ht.along
  have hends {p : Node × TypeRef} {s : Typing}
      (hrun : typed scope n { t with locals := {}, errors := [] } = .ok (p, s)) :
      Stands ms id d unit .compiling s.work :=
    have ht : Stands ms id d unit .compiling
        ({ t with locals := {}, errors := [] } : Typing).work := ht
    ht.typed halong hsettling rfl hrun
  simp only [inferUnit, ExceptT.run, ExceptT.mk, TypeM.bind_apply, TypeM.get_apply,
    TypeM.modify_apply]
  revert hcut hends
  rcases typed scope n { t with locals := {}, errors := [] } with s | ⟨p, s⟩
  · exact fun hcut _ => hcut
  · intro _ hends
    have hstands := hends rfl
    dsimp only
    cases s.errors with
    | nil => exact hstands
    | cons e _ => exact hstands.fails (.inr (.inl rfl))

/-- What precedes loading continues a history, and leaves a definition that is about to be
    loaded. -/
theorem holds_prepare {k₀ : Work} (hk₀ : Along ms k₀)
    (hd : k₀.session.definition? id = some d) (hs : d.state = .unresolved) :
    Holds (· = k₀.noting id .extending) (prepare typed id d)
      (fun p k => Stands ms id d p.1 .loading (k.noting id .loading))
      (fun _ k => ∀ e, Along ms (k.failing id e)) (Along ms) := by
  refine .bind (Q := fun p => Stands ms id d p.1 .extending) (.step ?_ ?_) fun ⟨unit, n⟩ => ?_
  · rintro _ p rfl hok
    rw [extend_run] at hok ⊢
    cases hn : (Extension.ofSpec ((k₀.noting id .extending).nextUnit d.owner) d.spec
        d.span).expandInline (k₀.noting id .extending).session.inlineEnv with
    | error e =>
      rw [hn] at hok
      cases hok
    | ok n =>
      rw [hn] at hok
      cases hok
      exact stands_begin hk₀ hd hs
  · rintro _ e rfl -
    rw [extend_run]
    exact (stands_begin hk₀ hd hs).fails (.inl rfl)
  · refine .bind (Q := fun _ => Stands ms id d unit .compiling) (.note id _ fun k hk => ?_)
      fun _ => ?_
    · exact hk.step (fun _ hd hs _ _ => .compiling hd hs) fun h => stateOf_noting h _
    refine .bind (Q := fun _ => Stands ms id d unit .compiling)
      (.lift fun t ht => ⟨_, t, rfl, ht⟩) fun s => ?_
    refine .bind (holds_inferUnit halong hsettling _ n) fun n => ?_
    refine .bind (Q := fun _ k => Stands ms id d unit .loading (k.noting id .loading))
      (.step ?_ ?_) fun files => .pure _ fun k hk => hk
    · intro k files hk hok
      refine hk.step (fun _ hd hs _ _ => .generated hd hs (Prod.ext hok rfl)) fun h => ?_
      exact stateOf_noting (k := (_ : Work)) h _
    · intro k e hk herror failure
      have ⟨d', hd', hs', _⟩ := hk.definition
      exact hk.along.step (.notGenerated hd' hs' (Prod.ext herror rfl) failure)

omit halong hsettling in
/-- Loading and registering continue a history. -/
theorem holds_publish (files : Artifacts) :
    Holds (fun k => Stands ms id d unit .loading (k.noting id .loading))
      (publish id d unit files) (fun _ => Stands ms id d unit .registering)
      (fun _ k => ∀ e, Along ms (k.failing id e)) (Along ms) := by
  refine .bind (Q := fun _ => Stands ms id d unit .loading) (.note id _ fun k hk => hk) fun _ => ?_
  refine .bind (Q := fun _ k => Stands ms id d unit .registering (k.noting id .registering))
    (.step ?_ ?_) fun u => ?_
  · intro k u hk hok
    refine hk.step (fun _ hd hs hunit _ => .loaded hd hs hunit (Prod.ext hok rfl)) fun h => ?_
    have hsame := stateOf_congr (definitions_of_loadUnit
      (rfl : (SessionM.loadUnit unit files).run k = _)) id
    exact stateOf_noting (hsame.trans h) _
  · intro k e hk herror failure
    have ⟨d', hd', hs', hunit, _⟩ := hk.definition
    exact hk.along.step (.notLoaded hd' hs' hunit (Prod.ext herror rfl) failure)
  · refine .bind (Q := fun _ => Stands ms id d unit .registering) (.note id _ fun k hk => hk)
      fun _ => ?_
    have hregister (k : Work) (hk : Stands ms id d unit .registering k) :
        Stands ms id d unit .registering ((registerMacro d unit u).run k).2 := by
      refine hk.step (fun _ hd hs hunit hlater => .register hd hs hlater hunit u) fun h => ?_
      rw [registerMacro_run]
      split <;> exact h
    exact .step (fun k _ hk _ => hregister k hk)
      fun k _ hk _ => (hregister k hk).fails (.inr (.inr rfl))

omit halong hsettling in
/-- Writing the unit continues a history. -/
theorem holds_persist (files : Artifacts) :
    Holds (Stands ms id d unit .registering) (Typer.step (persist files))
      (fun _ => Stands ms id d unit .registering) (fun _ k => ∀ e, Along ms (k.failing id e))
      (Along ms) := by
  have hpersist (k : Work) (hk : Stands ms id d unit .registering k) :
      Stands ms id d unit .registering ((persist files).run k).2 := by
    refine hk.step (fun _ hd hs _ _ => .persist hd hs files) fun h => ?_
    rw [persist_run]
    split <;> exact h
  exact .step (fun k _ hk _ => hpersist k hk)
    fun k _ hk _ => (hpersist k hk).fails (.inr (.inr rfl))

/-- The build of a definition continues a history, and so does each of its failures. -/
theorem along_buildDefinition {t : Typing} (ht : Along ms t.work)
    (hd : t.work.session.definition? id = some d) (hs : d.state = .unresolved) :
    Along ms (last (buildDefinition typed id d t)).work := by
  have hsteps : Holds (· = t.work.noting id .extending) (buildSteps typed id d)
      (fun _ k => ∃ unit, Stands ms id d unit .registering k)
      (fun _ k => ∀ e, Along ms (k.failing id e)) (Along ms) := by
    refine .bind (holds_prepare halong hsettling ht hd hs) fun ⟨unit, files⟩ => ?_
    refine .bind (holds_publish files) fun _ => ?_
    exact fun t' ht' => by
      have hpersist := holds_persist files t' ht'
      revert hpersist
      rcases (Typer.step (persist files)).run t' with s | ⟨_ | _, s⟩
      · exact fun h => h
      · exact fun h => h
      · exact fun h => ⟨unit, h⟩
  have hrun := hsteps { t with work := t.work.noting id .extending } rfl
  rw [buildDefinition_apply]
  revert hrun
  rcases (buildSteps typed id d).run { t with work := t.work.noting id .extending } with
    s | ⟨e | _, s⟩
  · exact fun h => h
  · exact fun h => h _
  · rintro ⟨unit, hstands⟩
    have ⟨d', hd', hs', _⟩ := hstands.definition
    exact hstands.along.step (.resolve hd' hs')

end Build

/-- Building continues histories, cut off or not. -/
theorem along_require (n id : Nat) (ms : List (Event × Work)) :
    Preserves (Along ms) (require n id) := by
  induction n generalizing id ms with
  | zero =>
    intro t ht
    rcases require_cases id t with ⟨r, hr⟩ | ⟨d, -, -, hcut, -⟩
    · rw [hr]; exact ht
    · rw [hcut]; exact ht
  | succ n ih =>
    intro t ht
    rcases require_cases id t with ⟨r, hr⟩ | ⟨d, hd, hs, -, hbuild⟩
    · rw [hr]; exact ht
    · rw [hbuild]
      exact along_buildDefinition
        (fun ms => preserves_within (preserved_along ms) (fun id => ih id ms) expansionLimit)
        (settling_within (settling_require n) expansionLimit) ht hd hs

/-- Typing continues histories, cut off or not. -/
theorem along_inferWithin (n : Nat) (scope : Scope) (tree : Node) (ms : List (Event × Work)) :
    Preserves (Along ms) (inferWithin n scope tree) :=
  preserves_within (preserved_along ms) (fun id => along_require n id ms) expansionLimit scope tree

end Typer

namespace Work

/-- Compiling continues histories, cut off or not. -/
theorem along_reached {ms : List (Event × Work)} {k : Work} (h : Along ms k) (n : Nat)
    (source text : String) : Along ms (k.reached n source text) := by
  have henter : Along ms (k.enter source) := h.step (.enter source)
  rcases k.compileWithin_cases source text with ⟨d, hd⟩ | ⟨markers, scope, tree, hrun⟩
  · rw [Work.reached, hd]
    exact henter
  · rw [Work.reached, hrun]
    have hinfer := Typer.along_inferWithin n scope tree ms { work := k.enter source } henter
    revert hinfer
    rcases Typer.inferWithin n scope tree { work := k.enter source } with t | ⟨p, t⟩
    · exact id
    · intro hinfer
      let c : Compilation := {
        program := p.1
        errors := markers ++ t.errors
        warnings := t.work.session.warnings.drop (k.enter source).session.warnings.length
        expansions := t.work.session.expansions.drop (k.enter source).session.expansions.length }
      obtain ⟨⟨files, hfiles⟩, -⟩ := finish_cases t.work c
      show Along ms (t.work.finish c).2
      rw [hfiles]
      exact Along.step hinfer (.world _)

/-- A definition that is not open is not built again, and nothing changes. -/
theorem require_settled {id : Nat} {d : MacroDefinition} (hd : d.WellFormed) {t : Typing}
    (ht : t.work.session.definition? id = some d) (n : Nat) :
    (d.state = .resolved → Typer.require n id t = .ok (.ok (), t)) ∧
    (d.state = .failed → ∃ e, d.failure = some e ∧ Typer.require n id t = .ok (.error e, t)) ∧
    (d.state.isBuilding = true →
      Typer.require n id t = .ok (.error (Typer.reentrant d), t)) := by
  refine ⟨fun hs => ?_, fun hs => ?_, fun hs => ?_⟩
  · unfold Typer.require
    simp only [TypeM.bind_apply, TypeM.session_apply, ht, hs, TypeM.pure_apply]
  · obtain ⟨e, he⟩ := hd.failure hs
    refine ⟨e, he, ?_⟩
    unfold Typer.require
    simp only [TypeM.bind_apply, TypeM.session_apply, ht, hs, TypeM.pure_apply, he,
      Option.getD_some]
  · unfold Typer.require
    cases hstate : d.state
    case unresolved | resolved | failed =>
      rw [hstate] at hs
      cases hs
    all_goals simp only [TypeM.bind_apply, TypeM.session_apply, ht, hstate, TypeM.pure_apply]

end Work

end Quasiquote
