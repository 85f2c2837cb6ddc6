import Quasiquote.Proofs.Template.Nesting

namespace Quasiquote

/-!
# Ordinals — what a scope takes and hands out

The values of a scope are numbered.  Those that are captured in it are numbered one after the
other, and those that are injected into it are asked for by number.  Only the steps of a program
that run directly in the scope count, however many scopes are opened and closed between them.

* `TemplateStep.begun` — the steps of a program that run;
* `Frame.touch` — what a step does to its own scope;
* `TemplateStep.outcome_begun` — a scope after any part of a program;
* `TemplateStep.outcome_resolves` — all values handed out in order;
* `TemplateStep.ordinals_match` — extraction and injection by the steps that run.
-/

/-- A scope after one step in it. -/
def Frame.touch {α : Type} : Frame α → TemplateStep α → Frame α
  | .extract vs, .capture v _ => .extract (vs ++ [v])
  | .inject values used, .resolve i _ =>
    .inject values (if i < values.length then used.set i true else used)
  | f, _ => f

namespace TemplateStep

variable {α : Type}

/-- The steps of a program that run: all up to the first one that fails. -/
def begun : List (TemplateStep α) → Scopes α → List (TemplateStep α)
  | [], _ => []
  | s :: rest, scopes =>
    match (outcome (run s) scopes []).1 with
    | (.ok _, scopes) => s :: begun rest scopes
    | (.error _, _) => [s]

/-- The values of the steps that capture one. -/
def captures (steps : List (TemplateStep α)) : List α :=
  steps.filterMap fun
    | .capture v _ => some v
    | _ => none

/-- The numbers of the steps that ask for a value. -/
def ordinals (steps : List (TemplateStep α)) : List Nat :=
  steps.filterMap fun
    | .resolve i _ => some i
    | _ => none

/-! ### One step -/

/-- A captured value gets the number of values that its scope has taken before. -/
theorem outcome_capture (v : α) (vs : List α) (outer : Scopes α) (log : List (TemplateEvent α)) :
    outcome (Scopes.capture v) (.extract vs :: outer) log =
      ((.ok vs.length, .extract (vs ++ [v]) :: outer), log) := rfl

/-- A value is asked for by its number. -/
theorem outcome_resolve (i : Nat) (values : List α) (used : List Bool) (outer : Scopes α)
    (log : List (TemplateEvent α)) :
    outcome (Scopes.resolve i) (.inject values used :: outer) log =
      ((match values[i]? with
        | some v => .ok v
        | none => .error (.outOfRange i values.length),
        (Frame.inject values used).touch (.resolve i false) :: outer), log) := by
  have hrun : outcome (Scopes.resolve i : Run α α) (.inject values used :: outer) log =
      (Scopes.resolved i (.inject values used :: outer), log) := rfl
  rw [hrun]
  by_cases hi : i < values.length
  · simp [Scopes.resolved, Frame.touch, hi]
  · simp [Scopes.resolved, Frame.touch, hi]

/-- The scopes that a tolerated or reported run leaves. -/
theorem outcome_tolerate_scopes (tolerant : Bool) (x : Run α Unit) (scopes : Scopes α)
    (log : List (TemplateEvent α)) :
    (outcome (tolerate tolerant x) scopes log).1.2 = (outcome x scopes log).1.2 := by
  rw [outcome_tolerate]
  rcases outcome x scopes log with ⟨⟨e | u, scopes⟩, log⟩ <;> rfl

theorem outcome_logged_scopes {β : Type} (event : β → TemplateEvent α) (x : Run α β)
    (scopes : Scopes α) (log : List (TemplateEvent α)) :
    (outcome (logged event x) scopes log).1.2 = (outcome x scopes log).1.2 := by
  rw [outcome_logged]
  rcases outcome x scopes log with ⟨⟨e | b, scopes⟩, log⟩ <;> rfl

/-- A step in a scope captures or resolves there itself, or leaves the scope as it was. -/
theorem outcome_run_scopes (s : TemplateStep α) (f : Frame α) (outer : Scopes α)
    (log : List (TemplateEvent α)) :
    (outcome (run s) (f :: outer) log).1.2 = f.touch s :: outer := by
  cases s with
  | depth => cases f <;> rfl
  | capture v tolerant =>
    rw [run, outcome_tolerate_scopes, outcome_logged_scopes]
    cases f <;> rfl
  | resolve i tolerant =>
    rw [run, outcome_tolerate_scopes, outcome_logged_scopes]
    cases f with
    | extract vs => rfl
    | inject values used => rw [outcome_resolve]; rfl
  | extract body tolerant =>
    -- captures inside are not its own
    rw [run, outcome_tolerate_scopes]
    have h := extract_keeps_scopes body (f :: outer) log
    cases f <;> exact h
  | inject values body tolerant =>
    rw [run, outcome_tolerate_scopes, outcome_logged_scopes]
    have h := inject_keeps_scopes values body (f :: outer) log
    cases f <;> exact h
  | fail hole tolerant =>
    rw [run, outcome_tolerate_scopes]
    cases f <;> rfl

/-- A step in a scope ends the same way whatever has been reported before. -/
theorem outcome_run (s : TemplateStep α) (f : Frame α) (outer : Scopes α) :
    ∃ r, ∀ log, ∃ log', outcome (run s) (f :: outer) log = ((r, f.touch s :: outer), log') := by
  obtain ⟨r, f', events, hrun⟩ := inner_run s f
  refine ⟨r, fun log => ⟨log ++ events.map (.raise outer.length), ?_⟩⟩
  have hscopes : f' :: outer = f.touch s :: outer := by
    have h := outcome_run_scopes s f outer log
    rwa [hrun] at h
  rw [hrun, hscopes]

/-! ### Programs -/

/-- The scopes after a program are those after its steps that run. -/
theorem outcome_runAll_scopes (body : List (TemplateStep α)) (f : Frame α) (outer : Scopes α)
    (log : List (TemplateEvent α)) :
    (outcome (runAll body) (f :: outer) log).1.2 =
      (begun body (f :: outer)).foldl .touch f :: outer := by
  -- the rest runs in the scope that the first step leaves, so the scope is arbitrary
  induction body generalizing f log with
  | nil => rw [runAll]; rfl
  | cons s rest ih =>
    obtain ⟨r, hrun⟩ := outcome_run s f outer
    obtain ⟨log', hlog⟩ := hrun log
    obtain ⟨log'', hnil⟩ := hrun []
    rw [runAll, outcome_bind, hlog, begun, hnil]
    cases r with
    | error e => rfl
    | ok u => exact ih (f.touch s) log'

/-- The steps before one that runs have succeeded, and the scope is as they leave it. -/
theorem outcome_begun {pre post body : List (TemplateStep α)} {s : TemplateStep α} {f : Frame α}
    {outer : Scopes α} (h : begun body (f :: outer) = pre ++ s :: post)
    (log : List (TemplateEvent α)) :
    ∃ log', outcome (runAll pre) (f :: outer) log =
      ((.ok (), pre.foldl .touch f :: outer), log') := by
  induction pre generalizing body f log with
  | nil => exact ⟨log, by rw [runAll]; rfl⟩
  | cons s' pre ih =>
    cases body with
    | nil => rw [begun] at h; cases h
    | cons s'' rest =>
      obtain ⟨r, hrun⟩ := outcome_run s'' f outer
      obtain ⟨log', hlog⟩ := hrun log
      obtain ⟨log'', hnil⟩ := hrun []
      -- `begun` looks at a run without reports, which ends like the one with `log`
      rw [begun, hnil] at h
      cases r with
      | error e =>
        -- a failing step is the last one
        obtain ⟨-, htail⟩ := List.cons.inj h
        exact absurd htail (by simp)
      | ok u =>
        obtain ⟨rfl, htail⟩ := List.cons.inj h
        rw [runAll, outcome_bind, hlog]
        exact ih htail log'

/-! ### Extraction -/

/-- Steps add the values that they capture to their scope. -/
theorem foldl_touch_extract (steps : List (TemplateStep α)) (vs : List α) :
    steps.foldl Frame.touch (.extract vs) = Frame.extract (vs ++ captures steps) := by
  induction steps generalizing vs with
  | nil => simp [captures]
  | cons s steps ih =>
    rw [List.foldl_cons]
    cases s with
    | capture v tolerant =>
      refine (ih (vs ++ [v])).trans ?_
      simp [captures]
    | _ => exact ih vs

/-- Extraction answers the values that are captured in its own scope. -/
theorem outcome_extract_captures (body : List (TemplateStep α)) (scopes : Scopes α)
    (log : List (TemplateEvent α)) :
    (((Scopes.extract (runAll body).run).run scopes).run log).1.1.2 =
      captures (begun body (.extract [] :: scopes)) := by
  show Scopes.collected (outcome (runAll body) (.extract [] :: scopes) log).1.2 = _
  rw [outcome_runAll_scopes, foldl_touch_extract]
  rfl

/-! ### Injection -/

/-- Which of `count` values have been asked for by these numbers. -/
def marks (count : Nat) (asked : List Nat) : List Bool :=
  (List.range count).map fun i => decide (i ∈ asked)

theorem marks_nil (values : List α) : values.map (fun _ => false) = marks values.length [] := by
  simp [marks, List.map_const']

/-- One more value is asked for. -/
theorem marks_concat (count : Nat) (asked : List Nat) (i : Nat) :
    (if i < count then (marks count asked).set i true else marks count asked) =
      marks count (asked ++ [i]) := by
  -- a number that is too large marks nothing, and none of the marks is about it
  refine List.ext_getElem (by split <;> simp [marks]) fun j hj hj' => ?_
  have hlt : j < count := by simpa [marks] using hj'
  by_cases hij : i = j
  · subst hij
    simp [marks, hlt]
  · have hne : ¬ j = i := fun h => hij h.symm
    split <;> simp [marks, hij, hne]

/-- A step that asks for a value marks it. -/
theorem touch_resolve (values : List α) (asked : List Nat) (i : Nat) (tolerant : Bool) :
    (Frame.inject values (marks values.length asked)).touch (.resolve i tolerant) =
      .inject values (marks values.length (asked ++ [i])) :=
  congrArg (Frame.inject values) (marks_concat values.length asked i)

/-- Steps mark the values that they ask for. -/
theorem foldl_touch_inject (steps : List (TemplateStep α)) (values : List α) (asked : List Nat) :
    steps.foldl Frame.touch (.inject values (marks values.length asked)) =
      Frame.inject values (marks values.length (asked ++ ordinals steps)) := by
  induction steps generalizing asked with
  | nil => simp [ordinals]
  | cons s steps ih =>
    rw [List.foldl_cons]
    cases s with
    | resolve i tolerant =>
      rw [touch_resolve, ih]
      simp [ordinals]
    | _ => exact ih asked

/-- How many values have been asked for. -/
theorem count_marks (count : Nat) (asked : List Nat) :
    (marks count asked).count true = (List.range count).countP (· ∈ asked) := by
  rw [marks, List.count, List.countP_map]
  exact List.countP_congr fun i _ => by simp

/-- All values have been asked for if each number has been. -/
theorem count_marks_eq_iff (count : Nat) (asked : List Nat) :
    (marks count asked).count true = count ↔ ∀ i < count, i ∈ asked := by
  have h := List.countP_eq_length (p := (decide <| · ∈ asked)) (l := List.range count)
  rw [List.length_range] at h
  rw [count_marks, h]
  simp

/-- Injection fails with its body.  Otherwise each of its values must have been asked for. -/
theorem outcome_inject_ordinals (values : List α) (body : List (TemplateStep α))
    (scopes : Scopes α) (log : List (TemplateEvent α)) :
    let start := Frame.inject values (values.map fun _ => false) :: scopes
    let asked := ordinals (begun body start)
    (outcome (Scopes.inject values id (runAll body)) scopes log).1.1 =
      match (outcome (runAll body) start log).1.1 with
      | .error e => .error e
      | .ok u => if ∀ i < values.length, i ∈ asked then .ok u
        else .error (.countMismatch values.length
          ((List.range values.length).countP (· ∈ asked))) := by
  intro start asked
  -- the marks of the scope when its body is done
  have hscopes := outcome_runAll_scopes body (.inject values (values.map fun _ => false)) scopes log
  rw [marks_nil, foldl_touch_inject, List.nil_append, ← marks_nil] at hscopes
  rw [outcome_inject]
  show _ = match (outcome (runAll body) start log).1.1 with
    | .error e => _
    | .ok u => _
  revert hscopes
  generalize outcome (runAll body) start log = result
  rcases result with ⟨⟨e | u, inner⟩, log'⟩
  · exact fun _ => rfl
  · rintro rfl
    show (if (marks values.length asked).count true = values.length then Except.ok u
      else .error (TemplateError.countMismatch values.length
        ((marks values.length asked).count true))) = _
    by_cases hall : ∀ i < values.length, i ∈ asked
    · rw [if_pos ((count_marks_eq_iff _ _).2 hall)]
      exact (if_pos hall).symm
    · rw [if_neg (mt (count_marks_eq_iff _ _).1 hall), count_marks]
      exact (if_neg hall).symm

/-! ### Handing out in order -/

/-- A step that asks for a value reports it. -/
theorem outcome_run_resolve (i : Nat) {values : List α} {v : α} (h : values[i]? = some v)
    (asked : List Nat) (outer : Scopes α) (log : List (TemplateEvent α)) :
    outcome (run (.resolve i false)) (.inject values (marks values.length asked) :: outer) log =
      ((.ok (), .inject values (marks values.length (asked ++ [i])) :: outer),
        log ++ [.value v]) := by
  rw [run, outcome_tolerate, outcome_logged, outcome_resolve, h, touch_resolve]

/-- Values that are asked for one after the other are reported in order. -/
theorem outcome_resolves (values : List α) (outer : Scopes α) (count : Nat) :
    ∀ (first : Nat) (log : List (TemplateEvent α)), first + count = values.length →
      outcome (runAll ((List.range' first count).map (.resolve · false)))
          (.inject values (marks values.length (List.range first)) :: outer) log =
        ((.ok (), .inject values (marks values.length (List.range values.length)) :: outer),
          log ++ (values.drop first).map .value) := by
  -- on the number of values that are left: those before `first` have been asked for
  induction count with
  | zero =>
    intro first log hfirst
    rw [Nat.add_zero] at hfirst
    subst hfirst
    rw [List.range'_zero, List.map_nil, runAll, List.drop_length, List.map_nil, List.append_nil]
    rfl
  | succ count ih =>
    intro first log hfirst
    have hlt : first < values.length := by omega
    rw [List.range'_succ, List.map_cons, runAll, outcome_bind,
      outcome_run_resolve first (List.getElem?_eq_getElem hlt), ← List.range_succ]
    dsimp only
    rw [ih (first + 1) _ (by omega), List.drop_eq_getElem_cons hlt, List.map_cons,
      List.append_assoc, List.singleton_append]

/-- Values that are injected and asked for in order are reported in order. -/
theorem outcome_inject_resolves (values : List α) (scopes : Scopes α)
    (log : List (TemplateEvent α)) :
    outcome (run (.inject values ((List.range values.length).map (.resolve · false)) false))
        scopes log =
      ((.ok (), scopes), log ++ values.map .value ++ [.injected]) := by
  have hresolves := outcome_resolves values scopes values.length 0 log (Nat.zero_add _)
  rw [← List.range_eq_range', List.drop_zero, List.range_zero, ← marks_nil] at hresolves
  have hconsumed : (marks values.length (List.range values.length)).count true = values.length :=
    (count_marks_eq_iff _ _).mpr fun i hi => List.mem_range.mpr hi
  rw [run, outcome_tolerate, outcome_logged, outcome_inject, hresolves]
  simp [Scopes.consumed, hconsumed]

/-! ### Extraction and injection by ordinals -/

/-- Values match by their ordinals.  Extraction answers the values captured by the steps that run
    directly in its scope, and each capture answers how many captures have run there before.
    Injection fails as its body does; otherwise it succeeds if each of its values is asked for by
    a step that runs directly in its scope, and else it fails with how many of them are.  A step
    that asks for a value gets the one with its number if there is one, and fails otherwise.  So
    values that are extracted, injected and asked for one after the other come back in order. -/
theorem ordinals_match (body : List (TemplateStep α)) (scopes : Scopes α)
    (log : List (TemplateEvent α)) :
    let extraction := ((Scopes.extract (runAll body).run).run scopes).run log
    let opened : Scopes α := .extract [] :: scopes
    extraction.1.1.2 = captures (begun body opened) ∧
    (∀ pre v tolerant post, begun body opened = pre ++ .capture v tolerant :: post →
      ∃ inner log', outcome (runAll pre) opened log = ((.ok (), inner), log') ∧
        (outcome (Scopes.capture v) inner log').1.1 = .ok (captures pre).length) ∧
    (∀ values : List α,
      let start : Scopes α := .inject values (values.map fun _ => false) :: scopes
      let asked := ordinals (begun body start)
      ((outcome (Scopes.inject values id (runAll body)) scopes log).1.1 =
        match (outcome (runAll body) start log).1.1 with
        | .error e => .error e
        | .ok u => if ∀ i < values.length, i ∈ asked then .ok u
          else .error (.countMismatch values.length
            ((List.range values.length).countP (· ∈ asked)))) ∧
      ∀ pre i tolerant post, begun body start = pre ++ .resolve i tolerant :: post →
        ∃ inner log', outcome (runAll pre) start log = ((.ok (), inner), log') ∧
          (outcome (Scopes.resolve i) inner log').1.1 = match values[i]? with
            | some v => .ok v
            | none => .error (.outOfRange i values.length)) ∧
    let values := extraction.1.1.2
    outcome (run (.inject values ((List.range values.length).map (.resolve · false)) false))
        scopes log =
      ((.ok (), scopes), log ++ values.map .value ++ [.injected]) := by
  intro extraction opened
  refine ⟨outcome_extract_captures body scopes log, fun pre v tolerant post h => ?_,
    fun values => ⟨outcome_inject_ordinals values body scopes log,
      fun pre i tolerant post h => ?_⟩, outcome_inject_resolves _ scopes log⟩
  · obtain ⟨log', hpre⟩ := outcome_begun h log
    rw [foldl_touch_extract, List.nil_append] at hpre
    refine ⟨_, log', hpre, ?_⟩
    rw [outcome_capture]
  · obtain ⟨log', hpre⟩ := outcome_begun h log
    rw [marks_nil, foldl_touch_inject] at hpre
    refine ⟨_, log', by rw [marks_nil]; exact hpre, ?_⟩
    rw [outcome_resolve]

/-- Two values are captured around a scope that captures one of its own. -/
theorem ordinals_match_nested :
    let body : List (TemplateStep Nat) :=
      [.capture 5 false, .extract [.capture 6 false] false, .capture 7 false]
    begun body [.extract []] = body.take 2 ++ .capture 7 false :: [] ∧
    (((Scopes.extract (runAll body).run).run []).run []).1.1.2 = captures (begun body [.extract []]) ∧
    ∃ inner log', outcome (runAll (body.take 2)) [.extract []] [] = ((.ok (), inner), log') ∧
      (outcome (Scopes.capture 7) inner log').1.1 = .ok 1 :=
  have h := ordinals_match
    [.capture 5 false, .extract [.capture 6 false] false, .capture 7 false] [] []
  ⟨by rfl, h.1, h.2.1 _ 7 false [] (by rfl)⟩

end TemplateStep

end Quasiquote
