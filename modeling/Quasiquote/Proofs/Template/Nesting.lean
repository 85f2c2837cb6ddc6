import Quasiquote.Template.Program

namespace Quasiquote

/-!
# Nesting — an inner scope is on its own

A program of template steps works on the innermost scope.  Steps inside further scopes work on
those, and close them again on every path.  So whatever steps do depends on the innermost scope
alone, up to the number of open scopes that they may ask for, and changes no other one.

* `TemplateStep.outcome` — what a run answers, leaves and reports;
* `TemplateEvent.raise` — what is reported with more scopes around;
* `TemplateStep.Inner` — runs that see and change the innermost scope alone;
* `TemplateStep.inner_runAll` — every program is such a run;
* `TemplateStep.scopes_nest` — what follows for extraction and injection.
-/

/-- The same report with `count` more scopes around. -/
def TemplateEvent.raise {α : Type} (count : Nat) : TemplateEvent α → TemplateEvent α
  | .depth n => .depth (n + count)
  | e => e

theorem TemplateEvent.raise_raise {α : Type} (e : TemplateEvent α) (m n : Nat) :
    (e.raise n).raise m = e.raise (m + n) := by
  cases e with
  | depth count => exact congrArg TemplateEvent.depth (by omega)
  | _ => rfl

namespace TemplateStep

variable {α β γ : Type}

/-- What a run answers, with the scopes that it leaves and all that has been reported then. -/
def outcome (x : Run α β) (scopes : Scopes α) (log : List (TemplateEvent α)) :
    (Except TemplateError β × Scopes α) × List (TemplateEvent α) :=
  (x.run.run scopes).run log

/-- A run goes on with the result of its first part. -/
theorem outcome_mk (x : Run α β)
    (k : Except TemplateError β → StateT (Scopes α) (StateM (List (TemplateEvent α)))
      (Except TemplateError γ)) (scopes : Scopes α) (log : List (TemplateEvent α)) :
    outcome (ExceptT.mk (x.run >>= k)) scopes log =
      ((k (outcome x scopes log).1.1).run (outcome x scopes log).1.2).run
        (outcome x scopes log).2 := rfl

theorem outcome_bind (x : Run α β) (g : β → Run α γ) (scopes : Scopes α)
    (log : List (TemplateEvent α)) :
    outcome (x >>= g) scopes log = match outcome x scopes log with
      | ((.ok b, scopes), log) => outcome (g b) scopes log
      | ((.error e, scopes), log) => ((.error e, scopes), log) := by
  refine (outcome_mk x (ExceptT.bindCont g) scopes log).trans ?_
  rcases outcome x scopes log with ⟨⟨e | b, scopes⟩, log⟩ <;> rfl

theorem outcome_tolerate (tolerant : Bool) (x : Run α Unit) (scopes : Scopes α)
    (log : List (TemplateEvent α)) :
    outcome (tolerate tolerant x) scopes log = match outcome x scopes log with
      | ((.ok (), scopes), log) => ((.ok (), scopes), log)
      | ((.error e, scopes), log) =>
        ((if tolerant then .ok () else .error e, scopes), log) := by
  refine (outcome_mk x _ scopes log).trans ?_
  rcases outcome x scopes log with ⟨⟨e | ⟨⟩, scopes⟩, log⟩
  · cases tolerant <;> rfl
  · rfl

theorem outcome_logged (event : β → TemplateEvent α) (x : Run α β) (scopes : Scopes α)
    (log : List (TemplateEvent α)) :
    outcome (logged event x) scopes log = match outcome x scopes log with
      | ((.ok b, scopes), log) => ((.ok (), scopes), log ++ [event b])
      | ((.error e, scopes), log) => ((.error e, scopes), log ++ [.failed e]) := by
  refine (outcome_mk x _ scopes log).trans ?_
  rcases outcome x scopes log with ⟨⟨e | b, scopes⟩, log⟩ <;> rfl

/-! ### Runs that see the innermost scope alone -/

/-- Whether a run sees and changes the innermost scope alone, the number of scopes around it in
    what it reports aside. -/
def Inner (x : Run α β) : Prop :=
  ∀ f, ∃ (r : Except TemplateError β) (f' : Frame α) (events : List (TemplateEvent α)),
    ∀ outer log, outcome x (f :: outer) log =
      ((r, f' :: outer), log ++ events.map (.raise outer.length))

namespace Inner

theorem pure (b : β) : Inner (Pure.pure b : Run α β) := fun f =>
  ⟨.ok b, f, [], fun _ log => by simp; rfl⟩

theorem throw (e : TemplateError) : Inner (throw e : Run α β) := fun f =>
  ⟨.error e, f, [], fun _ log => by simp; rfl⟩

theorem bind {x : Run α β} {g : β → Run α γ} (hx : Inner x) (hg : ∀ b, Inner (g b)) :
    Inner (x >>= g) := by
  intro f
  obtain ⟨r, f', events, hrun⟩ := hx f
  cases r with
  | error e =>
    refine ⟨.error e, f', events, fun outer log => ?_⟩
    rw [outcome_bind, hrun]
  | ok b =>
    -- the second part starts from the scope that the first one leaves
    obtain ⟨r, f'', events', hrun'⟩ := hg b f'
    refine ⟨r, f'', events ++ events', fun outer log => ?_⟩
    rw [outcome_bind, hrun]
    dsimp only
    rw [hrun', List.map_append, List.append_assoc]

theorem tolerate {x : Run α Unit} (hx : Inner x) (tolerant : Bool) :
    Inner (tolerate tolerant x) := by
  intro f
  obtain ⟨r, f', events, hrun⟩ := hx f
  cases r with
  | error e =>
    refine ⟨if tolerant then .ok () else .error e, f', events, fun outer log => ?_⟩
    rw [outcome_tolerate, hrun]
  | ok u =>
    refine ⟨.ok (), f', events, fun outer log => ?_⟩
    rw [outcome_tolerate, hrun]

theorem logged {x : Run α β} (hx : Inner x) {event : β → TemplateEvent α}
    (hevent : ∀ b count, (event b).raise count = event b) : Inner (logged event x) := by
  intro f
  obtain ⟨r, f', events, hrun⟩ := hx f
  cases r with
  | error e =>
    refine ⟨.error e, f', events ++ [.failed e], fun outer log => ?_⟩
    rw [outcome_logged, hrun]
    simp [TemplateEvent.raise]
  | ok b =>
    refine ⟨.ok (), f', events ++ [event b], fun outer log => ?_⟩
    rw [outcome_logged, hrun]
    simp [hevent]

theorem capture (v : α) : Inner (Scopes.capture v : Run α Nat) := by
  intro f
  cases f <;> exact ⟨_, _, [], fun outer log => by simp; rfl⟩

theorem resolve (i : Nat) : Inner (Scopes.resolve i : Run α α) := by
  intro f
  cases f with
  | extract vs => exact ⟨_, _, [], fun outer log => by simp; rfl⟩
  | inject values used =>
    have hrun (outer : Scopes α) (log : List (TemplateEvent α)) :
        outcome (Scopes.resolve i : Run α α) (.inject values used :: outer) log =
          (Scopes.resolved i (.inject values used :: outer), log) := rfl
    cases hv : values[i]? with
    | some v =>
      refine ⟨.ok v, .inject values (used.set i true), [], fun outer log => ?_⟩
      simp [hrun, Scopes.resolved, hv]
    | none =>
      refine ⟨.error (.outOfRange i values.length), .inject values used, [], fun outer log => ?_⟩
      simp [hrun, Scopes.resolved, hv]

end Inner

/-! ### Scopes that are opened and closed -/

/-- A run in a new extraction scope, and what is done with its result behind the scope. -/
theorem outcome_extract (x : Run α β) (k : Except TemplateError β × List α →
      StateT (Scopes α) (StateM (List (TemplateEvent α))) (Except TemplateError γ))
    (scopes : Scopes α) (log : List (TemplateEvent α)) :
    outcome (ExceptT.mk (Scopes.extract x.run >>= k)) scopes log =
      match outcome x (.extract [] :: scopes) log with
      | ((r, inner), log) =>
        ((k (r, Scopes.collected inner)).run (Scopes.closeTo scopes.length inner)).run log := by
  rfl

/-- A run in a new injection scope. -/
theorem outcome_inject (values : List α) (x : Run α β) (scopes : Scopes α)
    (log : List (TemplateEvent α)) :
    outcome (Scopes.inject values id x) scopes log =
      match outcome x (.inject values (values.map fun _ => false) :: scopes) log with
      | ((.error e, inner), log) => ((.error e, Scopes.closeTo scopes.length inner), log)
      | ((.ok b, inner), log) =>
        ((if Scopes.consumed inner = values.length then .ok b
          else .error (.countMismatch values.length (Scopes.consumed inner)),
          Scopes.closeTo scopes.length inner), log) := by
  have hbind {δ ε : Type} (y : StateM (List (TemplateEvent α)) δ)
      (k : δ → StateM (List (TemplateEvent α)) ε) :
      (y >>= k).run log = (k (y.run log).1).run (y.run log).2 := rfl
  refine (hbind (x.run.run (.inject values (values.map fun _ => false) :: scopes)) _).trans ?_
  generalize hp : (x.run.run (.inject values (values.map fun _ => false) :: scopes)).run log = p
  rw [show outcome x (.inject values (values.map fun _ => false) :: scopes) log = p from hp]
  rcases p with ⟨⟨e | b, inner⟩, log⟩ <;> rfl

namespace Inner

/-- What is reported inside a scope has one scope more around it. -/
theorem raise_map {f : Frame α} (events : List (TemplateEvent α)) (outer : Scopes α) :
    events.map (TemplateEvent.raise (f :: outer).length) =
      (events.map (TemplateEvent.raise 1)).map (TemplateEvent.raise outer.length) := by
  rw [List.map_map]
  exact List.map_congr_left fun e _ => (e.raise_raise outer.length 1).symm

/-- A run in a new scope sees and changes that one alone. -/
theorem extract {body : List (TemplateStep α)} (h : Inner (runAll body)) (tolerant : Bool) :
    Inner (run (.extract body tolerant)) := by
  rw [run]
  refine .tolerate (fun f => ?_) tolerant
  -- the body has a scope of its own, and the scope `f` is one of its outer scopes
  obtain ⟨r, f', events, hrun⟩ := h (.extract [])
  refine ⟨r, f, events.map (.raise 1) ++ [.captured (Scopes.collected [f'])], fun outer log => ?_⟩
  rw [outcome_extract, hrun]
  have hclose : Scopes.closeTo (f :: outer).length (f' :: f :: outer) = f :: outer :=
    Scopes.closeTo_cons_length f' (f :: outer)
  have hcollected : Scopes.collected (f' :: f :: outer) = Scopes.collected [f'] := by
    cases f' <;> rfl
  dsimp only
  rw [hclose, hcollected, raise_map events outer, List.map_append, ← List.append_assoc]
  rfl

/-- A run in a new scope sees and changes that one alone. -/
theorem inject {body : List (TemplateStep α)} (h : Inner (runAll body)) (values : List α)
    (tolerant : Bool) : Inner (run (.inject values body tolerant)) := by
  rw [run]
  refine .tolerate (.logged (fun f => ?_) fun _ _ => rfl) tolerant
  obtain ⟨r, f', events, hrun⟩ := h (.inject values (values.map fun _ => false))
  have hclose (outer : Scopes α) :
      Scopes.closeTo (f :: outer).length (f' :: f :: outer) = f :: outer :=
    Scopes.closeTo_cons_length f' (f :: outer)
  have hconsumed (outer : Scopes α) :
      Scopes.consumed (f' :: f :: outer) = Scopes.consumed [f'] := by
    cases f' <;> rfl
  -- what a failing body has used is not counted
  cases r with
  | error e =>
    refine ⟨.error e, f, events.map (.raise 1), fun outer log => ?_⟩
    rw [outcome_inject, hrun]
    dsimp only
    rw [hclose, raise_map events outer]
  | ok u =>
    refine ⟨if Scopes.consumed [f'] = values.length then .ok u
      else .error (.countMismatch values.length (Scopes.consumed [f'])), f,
      events.map (.raise 1), fun outer log => ?_⟩
    rw [outcome_inject, hrun]
    dsimp only
    rw [hclose, hconsumed, raise_map events outer]

end Inner

mutual

/-- A step sees and changes the innermost scope alone. -/
theorem inner_run : ∀ s : TemplateStep α, Inner (run s)
  | .depth => by
    -- the one step that sees the outer scopes, of which it reports the number
    rw [run]
    refine fun f => ⟨.ok (), f, [.depth 1], fun outer log => ?_⟩
    rw [List.map_singleton, TemplateEvent.raise, Nat.add_comm]
    rfl
  | .capture v tolerant => by
    rw [run]
    exact .tolerate (.logged (.capture v) fun _ _ => rfl) tolerant
  | .resolve i tolerant => by
    rw [run]
    exact .tolerate (.logged (.resolve i) fun _ _ => rfl) tolerant
  | .extract body tolerant => .extract (inner_runAll body) tolerant
  | .inject values body tolerant => .inject (inner_runAll body) values tolerant
  | .fail hole tolerant => by
    rw [run]
    exact .tolerate (.throw _) tolerant

/-- A program sees and changes the innermost scope alone. -/
theorem inner_runAll : ∀ steps : List (TemplateStep α), Inner (runAll steps)
  | [] => by
    rw [runAll]
    exact .pure ()
  | s :: rest => by
    rw [runAll]
    exact .bind (inner_run s) fun _ => inner_runAll rest

end

/-! ### Nested scopes -/

/-- A call that extracts values leaves every scope as it found it. -/
theorem extract_keeps_scopes (body : List (TemplateStep α)) (scopes : Scopes α)
    (log : List (TemplateEvent α)) :
    (((Scopes.extract (runAll body).run).run scopes).run log).1.2 = scopes := by
  obtain ⟨r, f', events, hrun⟩ := inner_runAll body (.extract [])
  show Scopes.closeTo scopes.length (outcome (runAll body) (.extract [] :: scopes) log).1.2 = _
  rw [hrun, Scopes.closeTo_cons_length]

/-- A call that injects values leaves every scope as it found it. -/
theorem inject_keeps_scopes (values : List α) (body : List (TemplateStep α)) (scopes : Scopes α)
    (log : List (TemplateEvent α)) :
    (outcome (Scopes.inject values id (runAll body)) scopes log).1.2 = scopes := by
  obtain ⟨r, f', events, hrun⟩ := inner_runAll body (.inject values (values.map fun _ => false))
  rw [outcome_inject, hrun]
  cases r <;> exact Scopes.closeTo_cons_length f' scopes

/-- Scopes nest.  Whatever runs inside and however it ends, a call that extracts values and one
    that injects them leave every scope as they found it.  And what a step or a program does in a
    scope, with its failures, depends on that scope alone and leaves the outer ones as they are:
    they may be exchanged for others without any difference but the number of open scopes that
    is reported. -/
theorem scopes_nest (body : List (TemplateStep α)) :
    (∀ (scopes : Scopes α) (log : List (TemplateEvent α)),
      (((Scopes.extract (runAll body).run).run scopes).run log).1.2 = scopes ∧
      ∀ values : List α, (outcome (Scopes.inject values id (runAll body)) scopes log).1.2 = scopes) ∧
    (∀ s : TemplateStep α, Inner (run s)) ∧ Inner (runAll body) :=
  ⟨fun scopes log => ⟨extract_keeps_scopes body scopes log,
    fun values => inject_keeps_scopes values body scopes log⟩, inner_run, inner_runAll body⟩

end TemplateStep

end Quasiquote
