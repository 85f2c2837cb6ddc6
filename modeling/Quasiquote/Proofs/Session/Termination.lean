import Quasiquote.Proofs.Session.Runs

namespace Quasiquote

/-!
# Termination — which compilations end

Expansions that come from each other are cut off at a limit, and a macro that is
needed while it is built is an error.  Builds have no such limit: each one types its
unit from the start, with all expansions left.  So a compilation that does not end
has to begin the builds of more and more definitions, and it has to meet them first.

* `Work.met`, `Work.begun` — how many definitions there are, and how many of them were
  ever built;
* `Typer.require_mono` — deeper nesting only continues what was cut off;
* `Typer.delays_require` — where builds nest too deep, as many builds have begun;
* `Work.compile_ends_iff` — a compilation ends exactly if it meets finitely many
  definitions.
-/

namespace Work

/-- How many definitions the session has met. -/
def met (k : Work) : Nat := k.session.definitions.length

/-- Whether the build of a definition has begun. -/
def hasBegun (d : MacroDefinition) : Bool := d.state != .unresolved

/-- How many definitions there are whose builds have begun. -/
def begun (k : Work) : Nat := k.session.definitions.countP hasBegun

theorem begun_le_met (k : Work) : k.begun ≤ k.met := List.countP_le_length

end Work

/-! ### Counting definitions -/

/-- A change to one definition that does not make it new again. -/
theorem countP_modify_le {f : MacroDefinition → MacroDefinition}
    (hf : ∀ d, Work.hasBegun d → Work.hasBegun (f d)) (ds : List MacroDefinition) (id : Nat) :
    ds.countP Work.hasBegun ≤ (ds.modify id f).countP Work.hasBegun := by
  induction ds generalizing id with
  | nil => simp
  | cons d ds ih =>
    cases id with
    | zero =>
      have := hf d
      rw [List.modify_zero_cons, List.countP_cons, List.countP_cons]
      split <;> simp_all
    | succ id =>
      rw [List.modify_succ_cons, List.countP_cons, List.countP_cons]
      exact Nat.add_le_add_right (ih id) _

/-- A definition whose build begins counts. -/
theorem countP_modify_of_new {f : MacroDefinition → MacroDefinition} {ds : List MacroDefinition}
    {id : Nat} {d : MacroDefinition} (hd : ds[id]? = some d) (hnew : ¬ Work.hasBegun d)
    (hf : Work.hasBegun (f d)) :
    (ds.modify id f).countP Work.hasBegun = ds.countP Work.hasBegun + 1 := by
  induction ds generalizing id with
  | nil => simp at hd
  | cons e ds ih =>
    cases id with
    | zero =>
      obtain rfl : e = d := by simpa using hd
      simp [hnew, hf]
    | succ id =>
      rw [List.modify_succ_cons, List.countP_cons, List.countP_cons, ih hd]
      omega

namespace Work

/-- A step meets and begins builds, and forgets none. -/
theorem Step.counts {k k' : Work} (h : Step k k') :
    k.met ≤ k'.met ∧ k.begun ≤ k'.begun := by
  rcases h.definitions_cases with hsame | ⟨d, -, hmore⟩ | ⟨id, f, hmod, hf⟩
  · simp [met, begun, hsame]
  · simp [met, begun, hmore]
  · have hbegun (d : MacroDefinition) (hd : hasBegun d) : hasBegun (f d) := by
      rcases hf d with hsame | hnew
      · simpa [hasBegun, hsame] using hd
      · simpa [hasBegun] using hnew
    simpa [met, begun, hmod] using countP_modify_le hbegun k.session.definitions id

theorem Run.counts {k k' : Work} (h : k.Run k') : k.met ≤ k'.met ∧ k.begun ≤ k'.begun := by
  induction h with
  | refl => exact ⟨Nat.le_refl _, Nat.le_refl _⟩
  | tail _ hstep ih =>
    exact ⟨Nat.le_trans ih.1 hstep.counts.1, Nat.le_trans ih.2 hstep.counts.2⟩

end Work

/-! ### Deeper nesting -/

namespace Typer

open TypeM

/-- Whether a computation continues another one: it has the same result, or the other
    one was cut off and it goes on from there. -/
def Continues {α : Type} (x y : TypeM α) : Prop :=
  Runs x ∧ Runs y ∧
    ∀ t, x t = y t ∨ ∃ s, x t = .error s ∧ s.work.Run (last (y t)).work

theorem Continues.refl {α : Type} {x : TypeM α} (h : Runs x) : Continues x x :=
  ⟨h, h, fun _ => .inl rfl⟩

theorem Continues.bind {α β : Type} {x y : TypeM α} {f g : α → TypeM β} (h : Continues x y)
    (hf : ∀ a, Continues (f a) (g a)) : Continues (x >>= f) (y >>= g) := by
  obtain ⟨hx, hy, hxy⟩ := h
  refine ⟨hx.bind fun a => (hf a).1, hy.bind fun a => (hf a).2.1, fun t => ?_⟩
  rw [bind_apply, bind_apply]
  rcases hxy t with hsame | ⟨s, hs, hrun⟩
  · rw [hsame]
    cases y t with
    | error s => exact .inl rfl
    | ok p => exact (hf p.1).2.2 p.2
  · refine .inr ⟨s, by rw [hs], hrun.trans ?_⟩
    cases y t with
    | error s => exact .refl _
    | ok p => exact (hf p.1).2.1 p.2

theorem Continues.trans {α : Type} {x y z : TypeM α} (h : Continues x y) (h' : Continues y z) :
    Continues x z := by
  refine ⟨h.1, h'.2.1, fun t => ?_⟩
  rcases h.2.2 t with hxy | ⟨s, hs, hrun⟩
  · rw [hxy]; exact h'.2.2 t
  · refine .inr ⟨s, hs, ?_⟩
    rcases h'.2.2 t with hyz | ⟨s', hs', hrun'⟩
    · rwa [← hyz]
    · rw [hs'] at hrun
      exact hrun.trans hrun'

/-- Continuing is a congruence. -/
def continuing : BuildCongruence :=
  TypeM.Ends.congruence Continues (fun h => .refl h.runs) Continues.bind

/-- Where builds may nest deeper by one, what was cut off is continued. -/
theorem require_succ (n id : Nat) : Continues (require n id) (require (n + 1) id) := by
  induction n generalizing id with
  | zero =>
    refine ⟨runs_require 0 id, runs_require 1 id, fun t => ?_⟩
    rcases require_cases id t with ⟨r, hr⟩ | ⟨d, -, -, hcut, -⟩
    · exact .inl (by rw [hr, hr])
    · exact .inr ⟨t, hcut, runs_require 1 id t⟩
  | succ n ih =>
    refine ⟨runs_require _ id, runs_require _ id, fun t => ?_⟩
    rcases require_cases id t with ⟨r, hr⟩ | ⟨d, -, -, -, hbuild⟩
    · exact .inl (by rw [hr, hr])
    · have hunit (scope : Scope) (tree : Node) :
          continuing.Rel (within (require n) expansionLimit scope tree)
            (within (require (n + 1)) expansionLimit scope tree) :=
        Congruence.rel_within (C := continuing.toCongruence) ih expansionLimit scope tree
      have hcontinues : Continues (buildDefinition (within (require n) expansionLimit) id d)
          (buildDefinition (within (require (n + 1)) expansionLimit) id d) :=
        continuing.rel_buildDefinition hunit id d
      rw [hbuild, hbuild]
      exact hcontinues.2.2 t

/-- **Monotonicity.** Where builds may nest deeper, what was cut off is continued, and
    everything else stays as it is. -/
theorem require_mono {n m : Nat} (h : n ≤ m) (id : Nat) :
    Continues (require n id) (require m id) := by
  induction h with
  | refl => exact .refl (runs_require n id)
  | step _ ih => exact ih.trans (require_succ _ id)

theorem inferWithin_mono {n m : Nat} (h : n ≤ m) (scope : Scope) (tree : Node) :
    Continues (inferWithin n scope tree) (inferWithin m scope tree) := by
  have hrel : continuing.Rel (inferWithin n scope tree) (inferWithin m scope tree) :=
    Congruence.rel_within (C := continuing.toCongruence) (require_mono h) _ scope tree
  exact hrel

/-! ### What is cut off -/

/-- Whether `n` more builds have begun since `t` where a computation is cut off, and
    none is forgotten where it ends. -/
def DelayedBy (n : Nat) (t : Typing) {α : Type} : Except Typing (α × Typing) → Prop
  | .ok (_, s) => t.work.begun ≤ s.work.begun
  | .error s => t.work.begun + n ≤ s.work.begun

/-- Whether a computation is only cut off when `n` more builds have begun. -/
def Delays (n : Nat) {α : Type} (x : TypeM α) : Prop := ∀ t, DelayedBy n t (x t)

theorem Delays.bind {n : Nat} {α β : Type} {x : TypeM α} {f : α → TypeM β} (h : Delays n x)
    (hf : ∀ a, Delays n (f a)) : Delays n (x >>= f) := by
  intro t
  have hx := h t
  rw [TypeM.bind_apply]
  revert hx
  cases x t with
  | error s => exact id
  | ok p =>
    intro hx
    have hp := hf p.1 p.2
    show DelayedBy n t (f p.1 p.2)
    revert hp
    cases f p.1 p.2 with
    | error s => exact fun hp => Nat.le_trans (Nat.add_le_add_right hx n) hp
    | ok q => exact fun hp => Nat.le_trans hx hp

theorem Delays.of_ends {n : Nat} {α : Type} {x : TypeM α} (h : TypeM.Ends x) :
    Delays n x := by
  intro t
  obtain ⟨a, s, hx, hrun⟩ := h t
  rw [hx]
  exact hrun.counts.2

/-- Delaying is a congruence, of which both sides are the same. -/
def delaying (n : Nat) : BuildCongruence :=
  TypeM.Ends.congruence (fun x _ => Delays n x) Delays.of_ends Delays.bind

theorem Delays.within {n : Nat} {build : Nat → TypeM (Except Diagnostic Unit)}
    (h : ∀ id, Delays n (build id)) (left : Nat) (scope : Scope) (n' : Node) :
    Delays n (within build left scope n') := by
  have hrel : (delaying n).Rel (Typer.within build left scope n')
      (Typer.within build left scope n') :=
    Congruence.rel_within (C := (delaying n).toCongruence) h left scope n'
  exact hrel

/-- A build that begins counts, so a build is cut off one build later than the typing of
    its unit. -/
theorem Delays.buildDefinition {n : Nat} {typed : Scope → Node → TypeM (Node × TypeRef)}
    (h : ∀ scope n', Delays n (typed scope n')) {id : Nat} {d : MacroDefinition} {t : Typing}
    (hd : t.work.session.definition? id = some d) (hs : d.state = .unresolved) :
    DelayedBy (n + 1) t (buildDefinition typed id d t) := by
  have hsteps : (delaying n).Rel (buildSteps typed id d).run (buildSteps typed id d).run :=
    (delaying n).rel_buildSteps h id d
  have hrest : Delays n ((buildSteps typed id d).run >>= conclude id d) :=
    (delaying n).bind hsteps ((delaying n).rel_conclude id d)
  obtain ⟨s, hstart, hbegun⟩ :
      ∃ s, transition id .extending t = .ok ((), s) ∧ s.work.begun = t.work.begun + 1 := by
    refine ⟨_, rfl, ?_⟩
    exact countP_modify_of_new hd (by simp [Work.hasBegun, hs]) (by simp [Work.hasBegun])
  have hrun : Typer.buildDefinition typed id d t =
      ((Typer.buildSteps typed id d).run >>= conclude id d) s := by
    rw [Typer.buildDefinition, TypeM.bind_apply, hstart]
  have hend := hrest s
  rw [hrun]
  revert hend
  cases ((Typer.buildSteps typed id d).run >>= conclude id d) s with
  | error s' => simp only [DelayedBy]; omega
  | ok p => simp only [DelayedBy]; omega

/-- Where builds nest too deep, as many builds have begun. -/
theorem delays_require (n id : Nat) : Delays n (require n id) := by
  induction n generalizing id with
  | zero =>
    intro t
    rcases require_cases id t with ⟨r, hr⟩ | ⟨d, -, -, hcut, -⟩
    · rw [hr]; exact Nat.le_refl _
    · rw [hcut]; exact Nat.le_refl _
  | succ n ih =>
    intro t
    rcases require_cases id t with ⟨r, hr⟩ | ⟨d, hd, hs, -, hbuild⟩
    · rw [hr]; exact Nat.le_refl _
    · rw [hbuild]
      exact Delays.buildDefinition (Delays.within ih _) hd hs

end Typer

/-! ### Compilations -/

namespace Work

theorem outcome_ok (k : Work) (markers : List Diagnostic) (p : (Node × TypeRef) × Typing) :
    ∃ r k', k.outcome markers (.ok p) = .ok (r, k') ∧ k'.session = p.2.work.session ∧
      ∀ c, r = .ok c →
        c.expansions = p.2.work.session.expansions.drop k.session.expansions.length := by
  let c₀ : Compilation := {
    program := p.1.1
    errors := markers ++ p.2.errors
    warnings := p.2.work.session.warnings.drop k.session.warnings.length
    expansions := p.2.work.session.expansions.drop k.session.expansions.length }
  obtain ⟨⟨files, hfiles⟩, hresult⟩ := finish_cases p.2.work c₀
  refine ⟨(p.2.work.finish c₀).1, (p.2.work.finish c₀).2, rfl, by rw [hfiles], fun c hc => ?_⟩
  rcases hresult with hok | ⟨d, hd⟩
  · rw [hok] at hc
    obtain rfl := Except.ok.inj hc
    rfl
  · rw [hd] at hc
    cases hc

/-- Where builds may nest deeper, a compilation that was cut off is continued, and every
    other one stays as it is. -/
theorem compileWithin_mono (k : Work) {n m : Nat} (h : n ≤ m) (source text : String) :
    k.compileWithin n source text = k.compileWithin m source text ∨
    ∃ k', k.compileWithin n source text = .error k' ∧ k'.met ≤ (k.reached m source text).met := by
  rcases k.compileWithin_cases source text with ⟨d, hd⟩ | ⟨markers, scope, tree, hrun⟩
  · exact .inl (by rw [hd, hd])
  · rcases (Typer.inferWithin_mono h scope tree).2.2 { work := k.enter source } with
      hsame | ⟨s, hs, hmore⟩
    · exact .inl (by rw [hrun, hrun, hsame])
    · have hcut : k.compileWithin n source text = .error s.work := by rw [hrun, hs]; rfl
      have hmet := hmore.counts.1
      refine .inr ⟨s.work, hcut, ?_⟩
      cases hm : Typer.inferWithin m scope tree { work := k.enter source } with
      | error t =>
        have hcut' : k.compileWithin m source text = .error t.work := by rw [hrun, hm]; rfl
        rw [hm] at hmet
        rw [reached_of_cutOff hcut']
        exact hmet
      | ok p =>
        obtain ⟨r, k', hout, hsession, -⟩ := (k.enter source).outcome_ok markers p
        have hok : k.compileWithin m source text = .ok (r, k') := by rw [hrun, hm, hout]
        rw [hm] at hmet
        rw [reached_of_ok hok]
        exact Nat.le_trans hmet (Nat.le_of_eq (by rw [met, met, hsession]; rfl))

/-- A compilation in which builds nest too deep has met as many definitions. -/
theorem le_met_of_cutOff {k k' : Work} {n : Nat} {source text : String}
    (h : k.compileWithin n source text = .error k') : n ≤ k'.met := by
  rcases k.compileWithin_cases source text with ⟨d, hd⟩ | ⟨markers, scope, tree, hrun⟩
  · rw [hd] at h
    cases h
  · have hdelay : Typer.Delays n (Typer.inferWithin n scope tree) :=
      Typer.Delays.within (Typer.delays_require n) _ scope tree
    have hdelay := hdelay { work := k.enter source }
    rw [hrun] at h
    cases hm : Typer.inferWithin n scope tree { work := k.enter source } with
    | ok p =>
      obtain ⟨r, k', hout, -⟩ := (k.enter source).outcome_ok markers p
      rw [hm, hout] at h
      cases h
    | error t =>
      rw [hm] at h hdelay
      obtain rfl : t.work = k' := Except.error.inj h
      have hbegun : t.work.begun ≤ t.work.met := t.work.begun_le_met
      simp only [Typer.DelayedBy] at hdelay
      omega

/-- The expansions of a compilation do not come from too many others. -/
theorem depth_lt_of_compileWithin {k k' : Work} {n : Nat} {source text : String}
    {c : Compilation} (h : k.compileWithin n source text = .ok (.ok c, k')) :
    ∀ e ∈ c.expansions, e.depth < Typer.expansionLimit := by
  rcases k.compileWithin_cases source text with ⟨d, hd⟩ | ⟨markers, scope, tree, hrun⟩
  · rw [hd] at h
    cases h
  · have hruns := Typer.runs_inferWithin n scope tree { work := k.enter source }
    rw [hrun] at h
    cases hm : Typer.inferWithin n scope tree { work := k.enter source } with
    | error t =>
      rw [hm] at h
      cases h
    | ok p =>
      rw [hm] at h hruns
      obtain ⟨es, hes, hdepth⟩ := hruns.exists_expansions
      obtain ⟨r, k₁, hout, -, hexpansions⟩ := (k.enter source).outcome_ok markers p
      rw [hout] at h
      obtain ⟨rfl, rfl⟩ := Prod.mk.inj (Except.ok.inj h)
      have hnew : c.expansions = es := by
        rw [hexpansions c rfl]
        exact (congrArg (List.drop _) hes).trans List.drop_left
      rw [hnew]
      exact hdepth

/-- **Termination.** A compilation ends exactly if the session meets only finitely many
    definitions, however deep builds may nest; it ends in the same way where they may
    nest deeper, and none of the expansions that it records comes from too many others. -/
theorem compile_ends_iff (k : Work) (source text : String) :
    ((∃ n, (k.compile source text n).isSome) ↔
      ∃ bound, ∀ n, (k.reached n source text).met ≤ bound) ∧
    ∀ n r k', k.compile source text n = some (r, k') →
      (∀ m, n ≤ m → k.compile source text m = some (r, k')) ∧
      ∀ c, r = .ok c → ∀ e ∈ c.expansions, e.depth < Typer.expansionLimit := by
  have hends {n : Nat} {p : Except Diagnostic Compilation × Work} :
      k.compile source text n = some p ↔ k.compileWithin n source text = .ok p := by
    unfold compile
    cases k.compileWithin n source text <;> simp [Except.toOption]
  -- a compilation that ends is not cut off where builds may nest deeper
  have hmono {n m : Nat} (h : n ≤ m) {p : Except Diagnostic Compilation × Work}
      (hp : k.compileWithin n source text = .ok p) : k.compileWithin m source text = .ok p := by
    rcases k.compileWithin_mono h source text with hsame | ⟨k', hcut, -⟩
    · exact hsame ▸ hp
    · rw [hp] at hcut
      cases hcut
  refine ⟨⟨?_, ?_⟩, fun n r k' h => ⟨fun m hm => ?_, fun c hc => ?_⟩⟩
  · rintro ⟨n, hn⟩
    obtain ⟨p, hp⟩ := Option.isSome_iff_exists.1 hn
    have hp := hends.1 hp
    refine ⟨p.2.met, fun m => ?_⟩
    rcases Nat.le_total n m with h | h
    · exact Nat.le_of_eq (by rw [reached_of_ok (hmono h hp)])
    · rcases k.compileWithin_mono h source text with hsame | ⟨k', hcut, hle⟩
      · exact Nat.le_of_eq (by rw [reached_of_ok (hsame.trans hp)])
      · rw [reached_of_ok hp] at hle
        rw [reached_of_cutOff hcut]
        exact hle
  · rintro ⟨bound, hbound⟩
    refine ⟨bound + 1, ?_⟩
    have hmet := hbound (bound + 1)
    cases hc : k.compileWithin (bound + 1) source text with
    | ok p => rw [hends.2 hc]; rfl
    | error k' =>
      have hle := le_met_of_cutOff hc
      rw [reached_of_cutOff hc] at hmet
      omega
  · exact hends.2 (hmono hm (hends.1 h))
  · subst hc
    exact depth_lt_of_compileWithin (hends.1 h)

end Work

end Quasiquote
