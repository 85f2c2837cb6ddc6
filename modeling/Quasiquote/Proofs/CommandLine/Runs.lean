import Quasiquote.CommandLine.Run
import Quasiquote.Proofs.Session.Placement

namespace Quasiquote

/-!
# Runs of commands — settings and the files that change

The settings of a command come from a file that has been checked, or from no file at all.  The
options of the command line replace some of them afterwards, of those that are checked the package
only, and nobody looks at it again.

* `Settings.flaw?_load`, `Settings.flaw?_discover` — settings of files have no flaw;
* `CommandLine.isIdentifier_settings`, `CommandLine.flaw?_settings_iff` — those of commands have
  none if the option has none;
* `CommandLine.Opened`, `CommandLine.Leaves` — the sessions of a command, and their worlds;
* `CommandLine.leaves_runIn` — a command leaves the world of one of its sessions;
* `CommandLine.runCommand_confined` — what that means for the files of units.
-/

namespace Settings

variable {fs : Files} {s : Settings}

theorem flaw?_ofText {text : String} (h : ofText text = .ok s) : s.flaw? = none := by
  unfold ofText at h
  split at h
  · cases h
    decide +kernel
  · split at h
    · cases h
    · split at h
      · cases h
      · next hflaw =>
        cases h
        exact hflaw

/-- Settings that are read from a file have been checked. -/
theorem flaw?_load {path : String} (h : load fs path = .ok s) : s.flaw? = none := by
  unfold load at h
  split at h
  · next text _ =>
    cases htext : ofText text with
    | error d =>
      rw [htext] at h
      cases h
    | ok t =>
      rw [htext] at h
      cases h
      exact flaw?_ofText htext
  · cases h
  · cases h

/-- So have those of the file with the usual name; where there is none, the defaults pass. -/
theorem flaw?_discover {directory : String} {found : Option Settings}
    (h : discover fs directory = .ok found) : (found.getD {}).flaw? = none := by
  unfold discover at h
  dsimp only at h
  split at h
  · cases hload : load fs (Path.join directory fileName) with
    | error d =>
      rw [hload] at h
      cases h
    | ok t =>
      rw [hload] at h
      cases h
      exact flaw?_load hload
  · cases h
    decide +kernel

end Settings

namespace CommandLine

/-! ### Settings -/

/-- The settings of a command are those of a file, some of them replaced. -/
theorem exists_of_settings {fs : Files} {flags : Flags} {out : Option String} {s : Settings}
    (h : settings fs flags out = .ok s) :
    ∃ t : Settings, t.flaw? = none ∧ s = { t with
      classpath := t.classpath ++ flags.classpath
      package := flags.package.getD t.package
      destination := out <|> t.destination
      verbose := t.verbose || flags.verbose } := by
  unfold settings at h
  split at h
  · next path _ =>
    cases hload : Settings.load fs path with
    | error d =>
      rw [hload] at h
      cases h
    | ok t =>
      rw [hload] at h
      cases h
      exact ⟨t, Settings.flaw?_load hload, rfl⟩
  · cases hdiscover : Settings.discover fs "." with
    | error d =>
      rw [hdiscover] at h
      cases h
    | ok found =>
      rw [hdiscover] at h
      cases h
      exact ⟨found.getD {}, Settings.flaw?_discover hdiscover, rfl⟩

/-- No option names the type of scripts, which has been checked. -/
theorem isIdentifier_settings {fs : Files} {flags : Flags} {out : Option String} {s : Settings}
    (h : settings fs flags out = .ok s) : Settings.isIdentifier s.scriptType.toList = true := by
  obtain ⟨t, ht, rfl⟩ := exists_of_settings h
  exact ((Settings.flaw?_eq_none_iff t).1 ht).2

/-- The package that a command line names is the one setting that may be invalid. -/
theorem flaw?_settings_iff {fs : Files} {flags : Flags} {out : Option String} {s : Settings}
    (h : settings fs flags out = .ok s) :
    s.flaw? = none ↔ ∀ p, flags.package = some p → Settings.isPackage p.toList = true := by
  have hscript := isIdentifier_settings h
  obtain ⟨t, ht, rfl⟩ := exists_of_settings h
  have hpackage := ((Settings.flaw?_eq_none_iff t).1 ht).1
  rw [Settings.flaw?_eq_none_iff, and_iff_left hscript]
  cases flags.package with
  | none => exact ⟨fun _ _ hp => (by cases hp), fun _ => hpackage⟩
  | some p => simp

/-! ### Sessions of a command -/

/-- Whether a session is the one that a command opens, after any compilations. -/
def Opened (w : World) (flags : Flags) (command : Command) (k : Work) : Prop :=
  ∃ s ds, settings w.files flags command.out = .ok s ∧
    Work.Writes ⟨Session.start s .shared, w⟩ ds k

/-- Whether files are those of a session that started in `k₀`, after compilations or after its
    descriptors have been written once more. -/
def Leaves (k₀ : Work) (files : Files) : Prop :=
  ∃ ds k, Work.Writes k₀ ds k ∧ (files = k.world.files ∨ files = k.describing.world.files)

variable {k₀ k k' : Work} {ds : List Descriptor}

theorem leaves_of_writes (h : Work.Writes k₀ ds k) : Leaves k₀ k.world.files :=
  ⟨ds, k, h, .inl rfl⟩

/-- A compilation that is not cut off goes on with the session. -/
theorem writes_compile (h : Work.Writes k₀ ds k) {source text : String}
    {r : Except Diagnostic Compilation} (hrun : k.compile source text = some (r, k')) :
    Work.Writes k₀ (ds ++ k'.session.types.descriptors) k' := by
  unfold Work.compile at hrun
  cases hwithin : k.compileWithin Work.nesting source text with
  | error _ =>
    rw [hwithin] at hrun
    cases hrun
  | ok p =>
    rw [hwithin] at hrun
    cases hrun
    exact h.compile Work.nesting source text hwithin

theorem leaves_withCompilation (h : Work.Writes k₀ ds k) (path : String)
    {next : Work → Compilation → World × Outcome}
    (hnext : ∀ ds k c, Work.Writes k₀ ds k → Leaves k₀ (next k c).1.files) :
    Leaves k₀ (withCompilation k path next).1.files := by
  unfold withCompilation
  cases readSource k.world.files path with
  | error d => exact leaves_of_writes h
  | ok text =>
    dsimp only
    rcases hrun : k.compile path text with _ | ⟨d | c, k'⟩
    · exact leaves_of_writes h
    · exact leaves_of_writes (writes_compile h hrun)
    · exact hnext _ k' c (writes_compile h hrun)

-- the equation holds whatever compiling is, and unfolding that takes long
attribute [local irreducible] Work.compile in
theorem compileAll_cons (k : Work) (so : Outcome) (last : Work → Outcome → World × Outcome)
    (path : String) (paths : List String) :
    compileAll k so last (path :: paths) =
      match readSource k.world.files path with
      | .error d => (k.world, so.both (.failure d))
      | .ok text => match k.compile path text with
        | none => (k.world, so.both .exhausted)
        | some (.error d, k) => (k.world, so.both (.failure d))
        | some (.ok c, k) => compileAll k (so.both (report c)) last paths := rfl

/-- Sources are compiled in one session, until one of them cannot be. -/
theorem leaves_compileAll (h : Work.Writes k₀ ds k) (so : Outcome) (paths : List String)
    {last : Work → Outcome → World × Outcome}
    (hlast : ∀ ds k so, Work.Writes k₀ ds k → Leaves k₀ (last k so).1.files) :
    Leaves k₀ (compileAll k so last paths).1.files := by
  induction paths generalizing ds k so with
  | nil => exact hlast ds k so h
  | cons path paths ih =>
    rw [compileAll_cons]
    cases readSource k.world.files path with
    | error d => exact leaves_of_writes h
    | ok text =>
      dsimp only
      -- a compilation that is cut off leaves no session, and the one before it counts
      rcases hrun : k.compile path text with _ | ⟨d | c, k'⟩
      · exact leaves_of_writes h
      · exact leaves_of_writes (writes_compile h hrun)
      · exact ih (writes_compile h hrun) _

theorem leaves_writeOutputs (h : Work.Writes k₀ ds k) (so : Outcome) :
    Leaves k₀ (writeOutputs k so).1.files := by
  have hwritten : Leaves k₀ k.describing.world.files := ⟨ds, k, h, .inr rfl⟩
  unfold Work.describing at hwritten
  unfold writeOutputs
  revert hwritten
  rcases SessionM.writeDescriptors.run k with ⟨d | paths, k'⟩
  · exact id
  · exact id

/-- A command leaves the files of its session, whether it fails on the way or not. -/
theorem leaves_runIn (h : Work.Writes k₀ ds k) (command : Command) :
    Leaves k₀ (runIn k command).1.files := by
  cases command with
  | expand file trace =>
    exact leaves_withCompilation h file fun ds k c h => leaves_of_writes h
  | macros file =>
    exact leaves_withCompilation h file fun ds k c h => leaves_of_writes h
  | compile path out =>
    simp only [runIn]
    cases k.session.settings.destination with
    | none => exact leaves_of_writes h
    | some root =>
      dsimp only
      cases sourceFiles k.world.files path with
      | error d => exact leaves_of_writes h
      | ok files => exact leaves_compileAll h _ files fun ds k so h => leaves_writeOutputs h so
  | ast file =>
    simp only [runIn]
    split <;> exact leaves_of_writes h

/-- Without settings nothing changes, and to show a tree changes nothing. -/
theorem leaves_runCommand (w : World) (flags : Flags) (command : Command) :
    (runCommand w flags command).1.files = w.files ∨
    ∃ s, settings w.files flags command.out = .ok s ∧
      Leaves ⟨Session.start s .shared, w⟩ (runCommand w flags command).1.files := by
  cases command with
  | ast file =>
    refine .inl ?_
    simp only [runCommand, runIn]
    split <;> rfl
  | expand | macros | compile =>
    simp only [runCommand]
    generalize settings w.files flags _ = found
    cases found with
    | error d => exact .inl rfl
    | ok s => exact .inr ⟨s, rfl, leaves_runIn .start _⟩

/-! ### Where files change -/

variable {w : World} {flags : Flags} {command : Command}

/-- A session of a command keeps the settings of the command, and its files in their places. -/
theorem Opened.placed (h : Opened w flags command k) (hshared : w.shared.Keyed) :
    ∃ s, settings w.files flags command.out = .ok s ∧ k.session.settings = s ∧
      Work.Placed ⟨Session.start s .shared, w⟩ k := by
  obtain ⟨s, ds, hs, hwrites⟩ := h
  have hown (units : Namespace) (hunits : Backend.shared = .own units) : units.Keyed := by
    cases hunits
  have hplaced := hwrites.placed (.start s .shared .builtins w hshared hown) (.start s .shared w)
  exact ⟨s, hs, hplaced.traced.settings, hplaced⟩

/-- **Theorem.** Whatever settings files there are, and whatever the options of a command are, the
    type of scripts is an identifier in every session that the command opens.  The settings of the
    session are valid exactly if the command line names no package or a valid one.  Then the package
    is a sequence of identifiers with points between them, and the file of every unit is below any
    directory that it may be written to, in the directory of the package.  Different units have
    different files there, and the command changes no files but those of units and of descriptors,
    where the session writes. -/
theorem runCommand_confined (w : World) (flags : Flags) (command : Command)
    (hshared : w.shared.Keyed) :
    (∀ k, Opened w flags command k →
      let names := Settings.identifiers k.session.settings.package
      let valid := ∀ p, flags.package = some p → Settings.isPackage p.toList = true
      Settings.isIdentifier k.session.settings.scriptType.toList = true ∧
      (k.session.settings.flaw? = none ↔ valid) ∧
      (valid → names ≠ [] ∧ (∀ name ∈ names, Settings.isIdentifier name.toList = true) ∧
        Pieces.join '.' (names.map String.toList) = k.session.settings.package.toList ∧
        ∀ unit, k.Owns unit → ∀ root,
          Path.Below (Path.ofText root ++ names) (Path.ofText (unitPath root unit))) ∧
      ∀ unit unit', k.Owns unit → k.Owns unit' → unit ≠ unit' → ∀ root,
        Path.ofText (unitPath root unit) ≠ Path.ofText (unitPath root unit')) ∧
    ∀ q, (runCommand w flags command).1.files.text? q = w.files.text? q ∨
      ∃ k, Opened w flags command k ∧ k.Targets q := by
  refine ⟨fun k hk => ?_, fun q => ?_⟩
  · intro names valid
    obtain ⟨s, hs, rfl, hplaced⟩ := hk.placed hshared
    refine ⟨isIdentifier_settings hs, flaw?_settings_iff hs, fun hvalid => ?_, ?_⟩
    · have hpackage := ((Settings.flaw?_eq_none_iff _).1 ((flaw?_settings_iff hs).2 hvalid)).1
      exact ⟨Settings.identifiers_ne_nil _, Settings.isPackage_iff.1 hpackage,
        Settings.join_identifiers _, fun unit hunit root => hplaced.below hpackage hunit root⟩
    · intro unit unit' hunit hunit' hne root
      exact hplaced.traced.numbering.path_ne hunit hunit' hne root root
  · rcases leaves_runCommand w flags command with hsame | ⟨s, hs, ds, k, hwrites, hfiles⟩
    · exact .inl (by rw [hsame])
    · have hopened : Opened w flags command k := ⟨s, ds, hs, hwrites⟩
      obtain ⟨s', hs', -, hplaced⟩ := hopened.placed hshared
      obtain rfl : s' = s := Except.ok.inj (hs'.symm.trans hs)
      rcases hfiles with hfiles | hfiles
      · rw [hfiles]
        exact (hplaced.changed q).imp_right fun htarget => ⟨k, hopened, htarget⟩
      · -- descriptors are written where the session writes, and it stays as it is
        rw [hfiles]
        refine (hplaced.describing.changed q).imp_right fun htarget => ⟨k, hopened, ?_⟩
        obtain ⟨files, hdescribing⟩ := k.exists_describing
        rwa [hdescribing] at htarget

/-! ### A package from the command line -/

/-- A source with two macros that need each other. -/
def ringSource : String := "macro def a(); b(); end\nmacro def b(); a(); end"

/-- A world with that source. -/
def ringWorld : World := { files := ({} : Files).set ["a.kiln"] (.text ringSource) }

/-- Options that name a package. -/
def ringFlags : Flags := { package := some "app.macros" }

/-- The source is compiled into a directory. -/
def ringCommand : Command := .compile "a.kiln" (some "out")

/-- The session of the command has two units. -/
theorem exists_opened_ring : ∃ k unit unit', Opened ringWorld ringFlags ringCommand k ∧
    k.session.settings.package = "app.macros" ∧ k.Owns unit ∧ k.Owns unit' ∧ unit ≠ unit' := by
  let k₀ : Work := ⟨Session.start { package := "app.macros", destination := some "out" } .shared,
    ringWorld⟩
  have hview : (k₀.compileWithin 2 "a.kiln" ringSource).toOption.map
      (fun p => (p.2.session.definitions.map (·.unit), p.2.session.settings.package)) =
        some ([some "app.macros.Script$Extension1", some "app.macros.Script$Extension2"],
          "app.macros") := by
    decide +kernel
  cases hrun : k₀.compileWithin 2 "a.kiln" ringSource with
  | error k =>
    rw [hrun] at hview
    cases hview
  | ok p =>
    rw [hrun] at hview
    obtain ⟨hunits, hpackage⟩ := Prod.mk.inj (Option.some.inj hview)
    have howns (id : Nat) (unit : String)
        (hid : (p.2.session.definitions.map (·.unit))[id]? = some (some unit)) : p.2.Owns unit := by
      rw [List.getElem?_map] at hid
      obtain ⟨d, hd, hunit⟩ := Option.map_eq_some_iff.1 hid
      exact ⟨id, d, hd, hunit⟩
    exact ⟨p.2, _, _, ⟨_, _, rfl, Work.Writes.start.compile 2 "a.kiln" ringSource hrun⟩, hpackage,
      howns 0 "app.macros.Script$Extension1" (by rw [hunits]; rfl),
      howns 1 "app.macros.Script$Extension2" (by rw [hunits]; rfl), by decide⟩

/-- The two units are in the directory of the package, and the descriptor of the script is new. -/
theorem runCommand_confined_ring :
    (∃ k unit unit', Opened ringWorld ringFlags ringCommand k ∧
      k.session.settings.flaw? = none ∧ k.session.settings.package = "app.macros" ∧
      k.Owns unit ∧ k.Owns unit' ∧ unit ≠ unit' ∧
      Path.Below ["out", "app", "macros"] (Path.ofText (unitPath "out" unit)) ∧
      Path.ofText (unitPath "out" unit) ≠ Path.ofText (unitPath "out" unit')) ∧
    ringWorld.files.text? ["out", "Script.kdesc"] = none ∧
    (runCommand ringWorld ringFlags ringCommand).1.files.text? ["out", "Script.kdesc"] ≠ none ∧
    ∃ k, Opened ringWorld ringFlags ringCommand k ∧ k.Targets ["out", "Script.kdesc"] := by
  have hpackage : ∀ p, ringFlags.package = some p → Settings.isPackage p.toList = true := by
    intro p hp
    obtain rfl : "app.macros" = p := Option.some.inj hp
    decide +kernel
  obtain ⟨hopened, hchanged⟩ :=
    runCommand_confined ringWorld ringFlags ringCommand Namespace.keyed_empty
  obtain ⟨k, unit, unit', hk, hname, hunit, hunit', hne⟩ := exists_opened_ring
  obtain ⟨-, hvalid, hnames, hapart⟩ := hopened k hk
  obtain ⟨-, -, -, hbelow⟩ := hnames hpackage
  have hdirectory : Path.ofText "out" ++ Settings.identifiers k.session.settings.package =
      ["out", "app", "macros"] := by
    rw [hname]
    decide +kernel
  have hnone : ringWorld.files.text? ["out", "Script.kdesc"] = none := by decide +kernel
  have hsome : ((runCommand ringWorld ringFlags ringCommand).1.files.text?
      ["out", "Script.kdesc"]).isSome = true := by
    decide +kernel
  have hnew := Option.isSome_iff_ne_none.1 hsome
  refine ⟨⟨k, unit, unit', hk, hvalid.2 hpackage, hname, hunit, hunit', hne,
    hdirectory ▸ hbelow unit hunit "out", hapart unit unit' hunit hunit' hne "out"⟩, hnone, hnew,
    (hchanged _).resolve_left ?_⟩
  rwa [hnone]

end CommandLine

end Quasiquote
