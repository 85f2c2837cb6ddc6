import Quasiquote.Proofs.Session.Invariants
import Quasiquote.Proofs.Session.Output
import Quasiquote.Proofs.Session.Paths

namespace Quasiquote

/-!
# Placement — the files that a session changes

A session names all its units after its package.  It changes no text but those of the files of its
units and of its descriptors, in the directory that it writes to.

* `Work.Targets` — the files that a session may change;
* `Work.Placed`, `Work.Placed.move` — the invariant and its step;
* `Work.Writes.placed` — the files that compilations one after the other have changed;
* `Work.Placed.below` — units are in the directory of the package;
* `Work.Numbering.path_ne` — and no two of them have one file.
-/

namespace Work

variable {k₀ k k' : Work} {unit : String}

/-- Whether a path is that of the file of a unit or a descriptor, where the session writes. -/
def Targets (k : Work) (q : Path) : Prop :=
  ∃ root, k.session.settings.destination = some root ∧
    ((∃ unit, k.Owns unit ∧ q = Path.ofText (unitPath root unit)) ∨
      ∃ type, q = Path.ofText (Descriptor.pathIn root type))

theorem Targets.mono {q : Path} (h : k.Targets q)
    (hsettings : k'.session.settings = k.session.settings)
    (howns : ∀ unit, k.Owns unit → k'.Owns unit) : k'.Targets q := by
  obtain ⟨root, hroot, h⟩ := h
  refine ⟨root, hsettings ▸ hroot, h.imp_left fun ⟨unit, hunit, hq⟩ => ⟨unit, howns unit hunit, hq⟩⟩

/-- Units that are different have different files, below any directories. -/
theorem Numbering.path_ne (h : k.Numbering) {unit' : String} (hunit : k.Owns unit)
    (hunit' : k.Owns unit') (hne : unit ≠ unit') (root root' : String) :
    Path.ofText (unitPath root unit) ≠ Path.ofText (unitPath root' unit') := by
  obtain ⟨id, d, hd, hunit⟩ := hunit
  obtain ⟨id', d', hd', hunit'⟩ := hunit'
  obtain ⟨n, -, hn⟩ := h.numbered hd hunit
  obtain ⟨m, -, hm⟩ := h.numbered hd' hunit'
  refine hn.path_ne hm ?_ root root'
  -- a number belongs to one definition, which has one unit
  rintro rfl
  obtain rfl := h.distinct hd hd' hunit hunit' hn hm
  obtain rfl : d = d' := Option.some.inj (hd.symm.trans hd')
  exact hne (Option.some.inj (hunit.symm.trans hunit'))

/-! ### The invariant -/

/-- Whether a session that started in `k₀` has named its units after its package, and changed no
    other files than it may. -/
structure Placed (k₀ k : Work) : Prop where
  traced : k₀.Traced k
  named : ∀ id d unit, k.session.definition? id = some d → d.unit = some unit →
    ∃ n : Nat, unit = k.unitName (d.owner ++ Typer.unitSuffix ++ toString n)
  changed : ∀ q, k.world.files.text? q = k₀.world.files.text? q ∨ k.Targets q

namespace Placed

/-- **Step.** A move changes the file of a unit that is being built, or none. -/
theorem move (h : k₀.Placed k) (hk : k.Consistent) (hmove : k.Move k') : k₀.Placed k' := by
  obtain ⟨htraced, howns⟩ := h.traced.move hk hmove
  have hname (name : String) : k'.unitName name = k.unitName name := by
    rw [unitName, hmove.settings, unitName]
  have hold (q : Path) : k.world.files.text? q = k₀.world.files.text? q ∨ k'.Targets q :=
    (h.changed q).imp_right fun htarget => htarget.mono hmove.settings howns
  refine ⟨htraced, fun id d unit hd hunit => ?_, fun q => ?_⟩
  · rcases hmove.names with ⟨-, hunits⟩ | ⟨new, d', hd', -, rfl⟩
    · obtain ⟨d₀, hd₀, hunit₀, howner⟩ := hunits id d unit hd hunit
      rw [← howner]
      simpa only [hname] using h.named id d₀ unit hd₀ hunit₀
    · rcases Session.definition?_modify_cases (definitions_begin k new d'.owner) hd with
        ⟨rfl, d₀, hd₀, rfl⟩ | ⟨-, hd⟩
      · -- the definition has just got the next unit
        obtain rfl : d' = d₀ := Option.some.inj (hd'.symm.trans hd₀)
        exact ⟨_, (Option.some.inj hunit).symm⟩
      · exact h.named id d unit hd hunit
  · rcases hmove.files_cases with hsame | ⟨id, unit, root, text, hbuilds, hroot, -, -, -, hsame⟩
    · exact hsame q ▸ hold q
    · by_cases hq : q = Path.ofText (unitPath root unit)
      · exact .inr ⟨root, hmove.settings ▸ hroot, .inl ⟨unit, howns unit hbuilds.owns, hq⟩⟩
      · exact hsame q hq ▸ hold q

theorem moves (h : k₀.Placed k) (hk : k.Reachable) (hmoves : k.Moves k') : k₀.Placed k' := by
  induction hmoves with
  | refl => exact h
  | tail hmoves hmove ih => exact ih.move (Moves.reachable hmoves hk).consistent hmove

/-- At the end files of descriptors are changed. -/
theorem describing (h : k₀.Placed k) : k₀.Placed k.describing := by
  have htraced := h.traced.describing
  have hwritten (q : Path) := k.text?_describing q
  obtain ⟨files, hsame⟩ := k.exists_describing
  rw [hsame] at htraced hwritten ⊢
  refine ⟨htraced, h.named, fun q => ?_⟩
  rcases hwritten q with hold | ⟨root, hroot, d, -, hq, -⟩
  · exact hold ▸ h.changed q
  · exact .inr ⟨root, hroot, .inr ⟨d.name, hq⟩⟩

theorem compileWithin (h : k₀.Placed k) (hk : k.Reachable) {n : Nat} {source text : String}
    {r : Except Diagnostic Compilation} (hrun : k.compileWithin n source text = .ok (r, k')) :
    k₀.Placed k' := by
  have henter : k₀.Placed (k.enter source) := ⟨h.traced.enter source, h.named, h.changed⟩
  obtain ⟨typed, hmoves, hreached⟩ := reached_cases hk n source text
  have htyped := henter.moves (hk.aside _ rfl rfl rfl) hmoves
  rw [reached_of_ok hrun] at hreached
  rcases hreached with rfl | rfl
  · exact htyped
  · exact htyped.describing

/-- At its start a session has no units. -/
theorem start (settings : Settings) (backend : Backend) (world : World) :
    Placed ⟨Session.start settings backend, world⟩ ⟨Session.start settings backend, world⟩ := by
  refine ⟨.start settings backend .builtins world, fun id d unit hd => ?_, fun _ => .inl rfl⟩
  cases hd

/-- With a valid package, every unit is below the directory of the package. -/
theorem below (h : k₀.Placed k)
    (hpackage : Settings.isPackage k.session.settings.package.toList = true)
    (hunit : k.Owns unit) (root : String) :
    Path.Below (Path.ofText root ++ Settings.identifiers k.session.settings.package)
      (Path.ofText (unitPath root unit)) := by
  obtain ⟨id, d, hd, hunit⟩ := hunit
  obtain ⟨n, rfl⟩ := h.named id d unit hd hunit
  exact Path.below_unitPath root hpackage _

end Placed

/-- **Invariant.** Compilations one after the other change no other files. -/
theorem Writes.placed {ds : List Descriptor} (h : Writes k₀ ds k) (h₀ : k₀.Reachable)
    (hstart : k₀.Placed k₀) : k₀.Placed k := by
  induction h with
  | start => exact hstart
  | compile h n source text hrun ih => exact ih.compileWithin (h.reachable h₀) hrun

end Work

end Quasiquote
