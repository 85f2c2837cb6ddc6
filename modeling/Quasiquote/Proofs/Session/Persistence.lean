import Quasiquote.Proofs.Session.Lineage
import Quasiquote.Proofs.Session.Moves

namespace Quasiquote

/-!
# Persistence — files of units that stay

A session gives its units names that no unit has that is loaded or has a file where units are
loaded from.  So a session that loads units from the directory it writes to, too, changes no
file of a unit there, whoever has written it.

* `Work.ReadsBack` — sessions that load units from the directory they write to;
* `Work.reached_keeps_unit` — such a session keeps the files of all units;
* `World.units_stay` — and so do any number of them.
-/

namespace Work

/-! ### Files -/

/-- Moves write no descriptor. -/
theorem Move.text?_pathIn {k k' : Work} (h : k.Move k') (dir type : String) :
    k'.world.files.text? (Path.ofText (Descriptor.pathIn dir type)) =
      k.world.files.text? (Path.ofText (Descriptor.pathIn dir type)) := by
  rcases h.files_cases with hsame | ⟨_, _, _, _, -, -, -, -, -, hsame⟩
  · exact hsame _
  · exact hsame _ (Path.pathIn_ne_unitPath _ _ _ _)

theorem Moves.text?_pathIn {k k' : Work} (h : k.Moves k') (dir type : String) :
    k'.world.files.text? (Path.ofText (Descriptor.pathIn dir type)) =
      k.world.files.text? (Path.ofText (Descriptor.pathIn dir type)) := by
  induction h with
  | refl => rfl
  | tail _ hmove ih => exact (hmove.text?_pathIn dir type).trans ih

/-- A text changes at the end only if it is that of a descriptor that is written. -/
theorem text?_describing (k : Work) (q : Path) :
    k.describing.world.files.text? q = k.world.files.text? q ∨
      ∃ root, k.session.settings.destination = some root ∧
        ∃ d ∈ k.session.types.descriptors, q = Path.ofText (Descriptor.pathIn root d.name) ∧
          k.describing.world.files.text? q = some d.encode := by
  rw [describing_eq]
  cases hroot : k.session.settings.destination with
  | none => exact .inl rfl
  | some root =>
    exact (Descriptor.text?_writeAll root k.session.types.descriptors k.world.files q).imp_right
      fun hnew => ⟨root, rfl, hnew⟩

/-- The descriptors that are written at the end change no file of a unit. -/
theorem text?_describing_unitPath (k : Work) (root unit : String) :
    k.describing.world.files.text? (Path.ofText (unitPath root unit)) =
      k.world.files.text? (Path.ofText (unitPath root unit)) := by
  rcases k.text?_describing (Path.ofText (unitPath root unit)) with
    hsame | ⟨root', -, d, -, hpath, -⟩
  · exact hsame
  · exact absurd hpath.symm (Path.pathIn_ne_unitPath root' d.name root unit)

/-! ### Reading back -/

/-- Whether a session loads units from the directory it writes to, if it writes to one. -/
def ReadsBack (k : Work) : Prop :=
  ∀ root, k.session.settings.destination = some root → root ∈ k.session.settings.classpath

/-- **Step.** A move of a session that reads back keeps the text of every file. -/
theorem Move.keeps_text {k k' : Work} (h : k.Move k') (hback : k.ReadsBack) {q : Path}
    {text : String} (ht : k.world.files.text? q = some text) :
    k'.world.files.text? q = some text := by
  rcases h.files_cases with hsame | ⟨id, unit, root, new, -, hroot, hnew, -, -, hsame⟩
  · rw [hsame, ht]
  · -- where the unit is written there was no file
    have hq : q ≠ Path.ofText (unitPath root unit) := by
      rintro rfl
      rw [hnew root (hback root hroot)] at ht
      cases ht
    rw [hsame q hq, ht]

theorem Moves.keeps_text {k k' : Work} (h : k.Moves k') (hback : k.ReadsBack) {q : Path}
    {text : String} (ht : k.world.files.text? q = some text) :
    k'.world.files.text? q = some text := by
  induction h with
  | refl => exact ht
  | tail hmoves hmove ih =>
    refine hmove.keeps_text (fun root hroot => ?_) ih
    rw [Moves.settings hmoves] at hroot ⊢
    exact hback root hroot

/-- Compiling in a session that reads back keeps the files of units, cut off or not. -/
theorem reached_keeps_unit {k : Work} (hk : k.Reachable) (hback : k.ReadsBack) (n : Nat)
    (source code : String) {root unit text : String}
    (ht : k.world.files.text? (Path.ofText (unitPath root unit)) = some text) :
    (k.reached n source code).world.files.text? (Path.ofText (unitPath root unit)) = some text := by
  obtain ⟨k', hmoves, hreached⟩ := reached_cases hk n source code
  have hkept := hmoves.keeps_text hback ht
  rcases hreached with hreached | hreached
  · rwa [hreached]
  · rwa [hreached, text?_describing_unitPath]

end Work

namespace World

/-- Whether a session that reads back compiles a source in one world and leaves another one. -/
def Compiles (w w' : World) : Prop :=
  ∃ (session : Session) (n : Nat) (source code : String),
    (⟨session, w⟩ : Work).Reachable ∧ (⟨session, w⟩ : Work).ReadsBack ∧
      w' = ((⟨session, w⟩ : Work).reached n source code).world

/-- **Theorem.** Once there is a file of a unit, in any directory, it stays as it is, however many
    sessions compile whatever sources one after the other, as long as each of them loads units from
    the directory it writes to. -/
theorem units_stay {w w' : World} (h : Relation.ReflTransGen Compiles w w')
    {root unit text : String} (ht : w.files.text? (Path.ofText (unitPath root unit)) = some text) :
    w'.files.text? (Path.ofText (unitPath root unit)) = some text := by
  induction h with
  | refl => exact ht
  | tail _ hcompiles ih =>
    obtain ⟨session, n, source, code, hreachable, hback, rfl⟩ := hcompiles
    exact Work.reached_keeps_unit hreachable hback n source code ih

/-- A unit of an earlier session stays when another session defines a macro of the same name. -/
theorem units_stay_script :
    let settings : Settings := { destination := some "out", classpath := ["out"] }
    let path := Path.ofText (unitPath "out" "kiln.macros.Script$Extension1")
    let w : World := { files := ({} : Files).set path (.text "a unit") }
    let k : Work := ⟨Session.start settings (.own {}), w⟩
    w.files.text? path = some "a unit" ∧ k.Reachable ∧ k.ReadsBack ∧
    (k.reached 1 "main" "macro def m(); 2; end").world.files.text? path = some "a unit" := by
  intro settings path w k
  have hfile : w.files.text? path = some "a unit" := by decide +kernel
  have hreachable : k.Reachable := .start settings (.own {}) _ w Namespace.keyed_empty fun _ h => by
    cases h
    exact Namespace.keyed_empty
  have hback : k.ReadsBack := by
    rintro root hroot
    cases hroot
    exact List.mem_cons_self
  have hcompiles : Compiles w (k.reached 1 "main" "macro def m(); 2; end").world :=
    ⟨k.session, 1, "main", "macro def m(); 2; end", hreachable, hback, rfl⟩
  exact ⟨hfile, hreachable, hback, units_stay (.single hcompiles) hfile⟩

end World

end Quasiquote
