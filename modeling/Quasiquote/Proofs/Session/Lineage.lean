import Quasiquote.Proofs.Files
import Quasiquote.Proofs.Session.Imports
import Quasiquote.Proofs.Session.Names
import Quasiquote.Proofs.Types.Lockstep

namespace Quasiquote

/-!
# Lineage — sessions that read what sessions have written

Sessions come one after the other.  Each one can read the descriptors that earlier ones have
written, and the descriptors that it reads no one else has written.

* `Path.pathIn_ne_unitPath` — the file of a descriptor is never that of a unit;
* `Files.Stores` — the descriptors that files hold;
* `Work.Lineage` — the sessions that can arise when all descriptors come from sessions;
* `Work.Lineage.reached` — compiling reaches such sessions only;
* `Work.InStep`, `Work.Lineage.inStep` — the invariant;
* `Work.Lineage.lockstep` — tables and descriptors are in step, and importing a descriptor
  restores the table.
-/

/-! ### Paths of descriptors -/

namespace Path

/-- A text behind the last slash stays at the end of the last name. -/
theorem exists_getLast?_ofText {text : String} {front suffix : List Char}
    (htext : text.toList = front ++ suffix) (hsep : '/' ∉ suffix) (hlong : 2 < suffix.length) :
    ∃ p, (ofText text).getLast? = some (String.ofList (p ++ suffix)) := by
  obtain ⟨ps, p, -, hlast⟩ := Pieces.split_append front hsep
  have hname (name : String) (hshort : name.length ≤ 2) : String.ofList (p ++ suffix) ≠ name := by
    rintro rfl
    simp only [String.length_ofList, List.length_append] at hshort
    omega
  have hstep (q : Path) :
      step q (String.ofList (p ++ suffix)) = q ++ [String.ofList (p ++ suffix)] := by
    simp only [step, hname "" (by decide), hname "." (by decide), hname ".." (by decide),
      decide_false, Bool.or_false, Bool.false_eq_true, if_false]
  refine ⟨p, ?_⟩
  rw [ofText, htext, hlast, List.map_append, List.foldl_append]
  exact (congrArg List.getLast? (hstep _)).trans List.getLast?_concat

/-- The file of a descriptor is never that of a unit. -/
theorem pathIn_ne_unitPath (root type root' unit : String) :
    ofText (Descriptor.pathIn root type) ≠ ofText (unitPath root' unit) := by
  intro heq
  obtain ⟨front, hfront⟩ := toList_join root (type ++ ".kdesc")
  obtain ⟨front', hfront'⟩ := toList_join root'
    (String.ofList (unit.toList.map fun c => if c = '.' then '/' else c) ++ ".kunit")
  rw [String.toList_append, ← List.append_assoc] at hfront hfront'
  obtain ⟨p, hp⟩ := exists_getLast?_ofText hfront (by decide +kernel) (by decide +kernel)
  obtain ⟨p', hp'⟩ := exists_getLast?_ofText hfront' (by decide +kernel) (by decide +kernel)
  have hlast := (hp.symm.trans ((congrArg List.getLast? heq).trans hp'))
  have hchars := congrArg String.toList (Option.some.inj hlast)
  simp only [String.toList_ofList] at hchars
  have hlength : ".kdesc".toList.length = ".kunit".toList.length := by decide +kernel
  have hends : ".kdesc".toList ≠ ".kunit".toList := by decide +kernel
  exact hends (List.append_inj_right' hchars hlength)

end Path

/-! ### What is written and read -/

/-- Whether a file with the path of some descriptor is read as a descriptor. -/
def Files.Stores (fs : Files) (p : Path) (d : Descriptor) : Prop :=
  (∃ root type, p = Path.ofText (Descriptor.pathIn root type)) ∧
    ∃ text, fs.text? p = some text ∧ Descriptor.decode? text = some d

/-- Writing the files of units stores no descriptor. -/
theorem Artifacts.text?_writeAll {root : String} (es : List (String × String)) {fs : Files}
    {q : Path} (h : ∀ unit, q ≠ Path.ofText (unitPath root unit)) :
    ((writeAll root es).run fs).2.text? q = fs.text? q := by
  induction es generalizing fs with
  | nil => rfl
  | cons e es ih =>
    let path := unitPath root e.1
    have hmake := FilesM.text?_makeDirectory (Path.around path) fs q
    simp only [writeAll, run_bind_apply]
    revert hmake
    rcases (FilesM.makeDirectory (Path.around path)).run fs with ⟨_ | _, fs₁⟩
    · exact id
    · intro hmake
      dsimp only at hmake ⊢
      have hwrite : ((FilesM.write path e.2).run fs₁).2.text? q = fs₁.text? q := by
        rw [FilesM.write, FilesM.change_run]
        cases hok : fs₁.write (Path.ofText path) e.2 with
        | error _ => rfl
        | ok fs₂ => exact Files.text?_write_of_ne hok (h e.1)
      revert hwrite
      rcases (FilesM.write path e.2).run fs₁ with ⟨_ | _, fs₂⟩
      · exact fun hwrite => hwrite.trans hmake
      · intro hwrite
        dsimp only at hwrite ⊢
        have hrest := @ih fs₂
        revert hrest
        rcases (writeAll root es).run fs₂ with ⟨_ | _, fs₃⟩
        all_goals exact fun hrest => hrest.trans (hwrite.trans hmake)

/-- Writing descriptors changes the text of a file to that of a descriptor of its name, or not at
    all. -/
theorem Descriptor.text?_writeAll (root : String) (ds : List Descriptor) (fs : Files) (q : Path) :
    ((writeAll root ds).run fs).2.text? q = fs.text? q ∨
      ∃ d ∈ ds, q = Path.ofText (pathIn root d.name) ∧
        ((writeAll root ds).run fs).2.text? q = some d.encode := by
  induction ds generalizing fs with
  | nil => exact .inl rfl
  | cons d ds ih =>
    have hmake := FilesM.text?_makeDirectory root fs q
    simp only [writeAll, run_bind_apply]
    revert hmake
    rcases (FilesM.makeDirectory root).run fs with ⟨_ | _, fs₁⟩
    · exact fun hmake => .inl hmake
    · intro hmake
      have hwrite := FilesM.text?_write_cases (pathIn root d.name) d.encode fs₁ q
      dsimp only at hmake ⊢
      rw [← hmake]
      revert hwrite
      rcases (FilesM.write (pathIn root d.name) d.encode).run fs₁ with ⟨_ | _, fs₂⟩
      · exact fun hwrite => hwrite.imp_right fun hnew => ⟨d, List.mem_cons_self, hnew⟩
      · intro hwrite
        have hrest := ih fs₂
        dsimp only at hrest hwrite ⊢
        -- the last descriptor of a name is the one that stays
        have hfinal {fs₃ : Files} (h : fs₃.text? q = fs₂.text? q ∨
            ∃ d ∈ ds, q = Path.ofText (pathIn root d.name) ∧ fs₃.text? q = some d.encode) :
            fs₃.text? q = fs₁.text? q ∨ ∃ d' ∈ d :: ds, q = Path.ofText (pathIn root d'.name) ∧
              fs₃.text? q = some d'.encode := by
          rcases h with h | ⟨d', hd', hnew⟩
          · rw [h]
            exact hwrite.imp_right fun hnew => ⟨d, List.mem_cons_self, hnew⟩
          · exact .inr ⟨d', List.mem_cons_of_mem _ hd', hnew⟩
        revert hrest
        rcases (writeAll root ds).run fs₂ with ⟨_ | _, fs₃⟩
        · exact hfinal
        · exact hfinal

namespace Work

/-- Typing and building store no descriptor. -/
theorem Step.text?_pathIn {k k' : Work} (h : Step k k') (root type : String) :
    k'.world.files.text? (Path.ofText (Descriptor.pathIn root type)) =
      k.world.files.text? (Path.ofText (Descriptor.pathIn root type)) := by
  cases h
  case importType name =>
    obtain ⟨types, units, h⟩ := SessionM.keeps_importType name k
    rw [h, files_withUnits]
  case extend id d => rw [Typer.extend_run]; rfl
  case load unit files =>
    obtain ⟨units, h⟩ := SessionM.keeps_loadUnit unit files k
    rw [h, files_withUnits]
  case registerMacro d unit loaded h =>
    rw [Typer.registerMacro_run]
    split <;> rfl
  case persist files =>
    rw [Typer.persist_run]
    split
    · rfl
    · exact Artifacts.text?_writeAll _ fun unit => Path.pathIn_ne_unitPath _ _ _ unit
  all_goals rfl

/-- Writing the file of a unit changes no descriptor. -/
theorem find_persist (k : Work) (files : Artifacts) (name : String) (classpath : List String) :
    Descriptor.find ((Typer.persist files).run k).2.world.files name classpath =
      Descriptor.find k.world.files name classpath :=
  Descriptor.find_congr (fun dir => (Step.persist k files).text?_pathIn dir name) classpath

/-- A step leaves all types alone, or it declares a method, opens a type, registers a macro, or
    imports a type. -/
theorem Step.types_cases {k k' : Work} (h : Step k k') :
    k'.session.types = k.session.types ∨
    (∃ owner m, k'.session.types = k.session.types.modify owner (·.define m)) ∨
    (∃ name superclass persistent,
      k'.session.types = k.session.types.openType name superclass persistent) ∨
    (∃ (d : MacroDefinition) (unit : String) (loaded : LoadedUnit),
      k.units.get? unit = some loaded ∧
      k'.session.types = k.session.types.modify d.owner (Typer.withMacro d.spec unit loaded)) ∨
    ∃ name, k' = ((SessionM.importType name).run k).2 := by
  cases h
  case declare owner m => exact .inr (.inl ⟨owner, m, rfl⟩)
  case importType name => exact .inr (.inr (.inr (.inr ⟨name, rfl⟩)))
  case openType name superclass persistent =>
    exact .inr (.inr (.inl ⟨name, superclass, persistent, rfl⟩))
  case extend id d =>
    rw [Typer.extend_run]
    exact .inl rfl
  case load unit files =>
    obtain ⟨units, h⟩ := SessionM.keeps_loadUnit unit files k
    exact .inl (by rw [h, types_withUnits])
  case registerMacro d unit loaded h =>
    rw [Typer.registerMacro_run]
    split
    · exact .inl rfl
    · exact .inr (.inr (.inr (.inl ⟨d, unit, loaded, h, rfl⟩)))
  case persist files => exact .inl (by rw [Typer.session_persist])
  all_goals exact .inl rfl

/-! ### Sessions one after the other -/

/-- Whether every descriptor that files hold is one of the session that it is ascribed to. -/
def WrittenBy (fs : Files) (author : Path → Descriptor → Work) : Prop :=
  ∀ p d, fs.Stores p d →
    d ∈ (author p d).session.types.descriptors ∧ fs.text? p = some d.encode

/-- The sessions that can arise when all descriptors come from sessions. -/
inductive Lineage : Work → Prop
  /-- A session starts in a world in which others may have written descriptors. -/
  | start (settings : Settings) (backend : Backend) (inline : InlineMacros) (world : World)
      (hshared : world.shared.Keyed) (hown : ∀ units, backend = .own units → units.Keyed)
      (author : Path → Descriptor → Work)
      (hauthor : ∀ p d, world.files.Stores p d → Lineage (author p d))
      (hwritten : WrittenBy world.files author) :
      Lineage ⟨{ Session.start settings backend with inline }, world⟩
  /-- Typing and building go on step by step. -/
  | step {k k' : Work} (h : Lineage k) (hstep : Step k k') : Lineage k'
  /-- Other uses of a session leave its types, definitions and units alone. -/
  | aside {k : Work} (h : Lineage k) (session : Session)
      (htypes : session.types = k.session.types)
      (hdefinitions : session.definitions = k.session.definitions)
      (hbackend : session.backend = k.session.backend) : Lineage { k with session }
  /-- Others change files, print, and load units of their own; descriptors come from sessions. -/
  | world {k : Work} (h : Lineage k) (world : World) (hkeyed : world.shared.Keyed)
      (hgrows : k.world.shared.Grows world.shared)
      (author : Path → Descriptor → Work)
      (hauthor : ∀ p d, world.files.Stores p d → Lineage (author p d))
      (hwritten : WrittenBy world.files author) : Lineage { k with world }

namespace Lineage

variable {k : Work}

/-- Such sessions are reachable. -/
theorem reachable (h : k.Lineage) : k.Reachable := by
  induction h with
  | start settings backend inline world hshared hown => exact .start _ _ _ _ hshared hown
  | step _ hstep ih => exact .step ih hstep
  | aside _ session htypes hdefinitions hbackend ih =>
    exact .aside ih session htypes hdefinitions hbackend
  | world _ world hkeyed hgrows _ _ _ ih => exact .world ih world hkeyed hgrows

/-- A descriptor in a file is one of a session of the same kind. -/
theorem exists_author (h : k.Lineage) {p : Path} {d : Descriptor}
    (hd : k.world.files.Stores p d) : ∃ a : Work, a.Lineage ∧
      d ∈ a.session.types.descriptors ∧ k.world.files.text? p = some d.encode := by
  induction h with
  | start settings backend inline world hshared hown author hauthor hwritten =>
    exact ⟨author p d, hauthor p d hd, hwritten p d hd⟩
  | step _ hstep ih =>
    obtain ⟨⟨root, type, rfl⟩, text, htext, hdecode⟩ := hd
    rw [hstep.text?_pathIn] at htext ⊢
    exact ih ⟨⟨root, type, rfl⟩, text, htext, hdecode⟩
  | aside _ session htypes hdefinitions hbackend ih => exact ih hd
  | world _ world hkeyed hgrows author hauthor hwritten =>
    exact ⟨author p d, hauthor p d hd, hwritten p d hd⟩

theorem run (h : k.Lineage) {k' : Work} (hrun : k.Run k') : k'.Lineage := by
  induction hrun with
  | refl => exact h
  | tail _ hstep ih => exact ih.step hstep

/-- Files may change as long as descriptors come from sessions. -/
theorem withFiles (h : k.Lineage) {files : Files}
    (hfiles : ∀ p d, files.Stores p d → ∃ a : Work, a.Lineage ∧
      d ∈ a.session.types.descriptors ∧ files.text? p = some d.encode) :
    Lineage { k with world := { k.world with files } } := by
  have : Nonempty Work := ⟨k⟩
  choose! author hauthor using hfiles
  exact h.world _ h.reachable.consistent.shared (.refl _) author
    (fun p d hd => (hauthor p d hd).1) fun p d hd => (hauthor p d hd).2

/-- What a session writes at the end of a compilation comes from a session. -/
theorem finish (h : k.Lineage) (c : Compilation) : (k.finish c).2.Lineage := by
  rw [snd_finish, describing_eq]
  cases k.session.settings.destination with
  | none => exact h
  | some root =>
    refine h.withFiles fun p d hd => ?_
    obtain ⟨hpath, text, htext, hdecode⟩ := hd
    rcases Descriptor.text?_writeAll root k.session.types.descriptors k.world.files p with
      hold | ⟨d', hd', -, hnew⟩
    · replace hold := hold.symm.trans htext
      obtain ⟨a, ha, hd, hsame⟩ := h.exists_author ⟨hpath, text, hold, hdecode⟩
      exact ⟨a, ha, hd, htext.trans (hold.symm.trans hsame)⟩
    · obtain rfl : text = d'.encode := Option.some.inj (htext.symm.trans hnew)
      rw [Descriptor.eq_of_decode?_encode hdecode]
      exact ⟨k, h, hd', htext⟩

/-- Compiling reaches sessions of the same kind, cut off or not. -/
theorem reached (h : k.Lineage) (n : Nat) (source text : String) :
    (k.reached n source text).Lineage := by
  have henter : (k.enter source).Lineage := h.aside _ rfl rfl rfl
  rcases k.compileWithin_cases source text with ⟨d, hd⟩ | ⟨markers, scope, tree, hrun⟩
  · rw [Work.reached, hd]
    exact henter
  · rw [Work.reached, hrun]
    have hinfer := henter.run (Typer.runs_inferWithin n scope tree { work := k.enter source })
    revert hinfer
    rcases Typer.inferWithin n scope tree { work := k.enter source } with t | ⟨p, t⟩
    · exact id
    · exact fun hinfer => hinfer.finish _

end Lineage

/-! ### The invariant -/

/-- Whether types have their own names, tables and descriptors are in step, and descriptors in files
    list nothing twice. -/
structure InStep (k : Work) : Prop where
  named : ∀ name t, k.session.types.get? name = some t → t.name = name
  types : ∀ t ∈ k.session.types.types.values, t.Lockstep
  files : ∀ p d, k.world.files.Stores p d → d.Distinct

namespace InStep

variable {k : Work}

/-- The descriptors of types list nothing twice. -/
theorem descriptor_distinct (h : k.InStep) {d : Descriptor}
    (hd : d ∈ k.session.types.descriptors) : d.Distinct := by
  obtain ⟨t, ht, hd⟩ := List.mem_filterMap.1 hd
  exact (h.types t ht).descriptor_distinct hd

/-- A changed type keeps its name. -/
theorem named_modify (h : k.InStep) {owner : String} {f : OwnerType → OwnerType}
    (hf : ∀ t, (f t).name = t.name) {name : String} {t : OwnerType}
    (ht : (k.session.types.modify owner f).get? name = some t) : t.name = name := by
  rw [TypeRegistry.get?_modify] at ht
  split at ht
  · rename_i hname
    obtain ⟨old, hold, rfl⟩ := Option.map_eq_some_iff.1 ht
    rw [hf, hname]
    exact h.named owner old hold
  · exact h.named name t ht

/-- A type that comes in under its name, among types that have theirs. -/
theorem named_install (h : k.InStep) {u : OwnerType} {name : String} {t : OwnerType}
    (ht : (k.session.types.install u).get? name = some t) : t.name = name := by
  by_cases hname : name = u.name
  · subst hname
    rw [TypeRegistry.get?_install_self] at ht
    cases ht
    rfl
  · rw [TypeRegistry.get?_install_of_ne _ hname] at ht
    exact h.named name t ht

/-- A changed type and those that stay are in step if the changed one is. -/
theorem modify (h : k.InStep) {name : String} {f : OwnerType → OwnerType}
    (hf : ∀ t : OwnerType, t.Lockstep → (f t).Lockstep) {t : OwnerType}
    (ht : t ∈ (k.session.types.modify name f).types.values) : t.Lockstep := by
  rcases NameMap.mem_values_modify ht with ht | ⟨old, hold, rfl⟩
  · exact h.types t ht
  · exact hf old (h.types old (NameMap.mem_values_of_get? hold))

/-- An imported type is in step, for its descriptor lists nothing twice. -/
theorem importType (h : k.InStep) (hc : k.Consistent) (name : String) :
    ((SessionM.importType name).run k).2.InStep := by
  rw [SessionM.importType_run]
  cases hfind : Descriptor.find k.world.files name k.session.settings.classpath with
  | error e => exact h
  | ok found =>
    cases found with
    | none => exact h
    | some d =>
      obtain ⟨root, -, text, htext, hdecode⟩ := Descriptor.exists_of_find hfind
      have hdistinct := h.files _ d ⟨⟨root, name, rfl⟩, text, htext, hdecode⟩
      have hrecords := SessionM.map_fst_resolveAll d.macros k
      have hnames (macros : List (MacroRecord × LoadedUnit)) :=
        @Work.Consistent.name_resolveAll k hc d.macros macros
      obtain ⟨units, hsame⟩ := SessionM.keeps_resolveAll d.macros k
      revert hrecords hnames hsame
      dsimp only
      rcases (SessionM.resolveAll d.macros).run k with ⟨e | macros, k'⟩
      · rintro - - rfl
        exact ⟨by simpa using h.named, by simpa using h.types, by simpa using h.files⟩
      · rintro hrecords hnames rfl
        refine ⟨fun x t ht => h.named_install (by simpa using ht), fun t ht => ?_,
          by simpa using h.files⟩
        rcases NameMap.mem_values_insert ht with rfl | ht
        · exact .ofDescriptor (hrecords macros rfl) (hnames macros rfl) hdistinct
        · exact h.types t (by simpa using ht)

/-- **Invariant.** Every step keeps tables and descriptors in step. -/
theorem step (h : k.InStep) (hc : k.Consistent) {k' : Work} (hstep : Step k k') :
    k'.InStep := by
  have hfiles (p : Path) (d : Descriptor) (hd : k'.world.files.Stores p d) : d.Distinct := by
    obtain ⟨⟨root, type, rfl⟩, text, htext, hdecode⟩ := hd
    rw [hstep.text?_pathIn] at htext
    exact h.files _ d ⟨⟨root, type, rfl⟩, text, htext, hdecode⟩
  rcases hstep.types_cases with hsame | ⟨owner, m, hsame⟩ | ⟨name, superclass, persistent, hsame⟩ |
    ⟨d, unit, loaded, hloaded, hsame⟩ | ⟨name, rfl⟩
  · exact ⟨hsame ▸ h.named, hsame ▸ h.types, hfiles⟩
  · refine ⟨fun name t ht => ?_, fun t ht => ?_, hfiles⟩
    all_goals rw [hsame] at ht
    · exact @named_modify _ h owner (·.define m) (fun _ => rfl) name t ht
    · exact h.modify (fun t ht => ht.define m) ht
  · refine ⟨fun x t ht => ?_, fun t ht => ?_, hfiles⟩
    all_goals
      rw [hsame, TypeRegistry.openType] at ht
      split at ht
    · exact h.named x t ht
    · exact @named_install _ h (.ofProgram name superclass persistent) x t ht
    · exact h.types t ht
    · rcases NameMap.mem_values_insert ht with rfl | ht
      · exact .ofProgram name superclass persistent
      · exact h.types t ht
  · refine ⟨fun name t ht => ?_, fun t ht => ?_, hfiles⟩
    all_goals rw [hsame] at ht
    · exact h.named_modify (OwnerType.name_withMacro d.spec unit loaded) ht
    · exact h.modify (fun t ht => ht.withMacro d.spec (hc.keyed _ _ hloaded)) ht
  · exact h.importType hc name

end InStep

namespace Lineage

variable {k : Work}

/-- The types that a session starts with have their names and no macros. -/
theorem inStep_initial (scriptType : String) :
    (∀ name t, (TypeRegistry.initial scriptType).get? name = some t → t.name = name) ∧
      ∀ t ∈ (TypeRegistry.initial scriptType).types.values, t.Lockstep := by
  let Sound (r : TypeRegistry) : Prop :=
    (∀ name t, r.get? name = some t → t.name = name) ∧ ∀ t ∈ r.types.values, t.Lockstep
  have hinstall (ts : List OwnerType) (r : TypeRegistry) (h : ∀ t ∈ ts, t.Lockstep)
      (hr : Sound r) : Sound (ts.foldl TypeRegistry.install r) := by
    induction ts generalizing r with
    | nil => exact hr
    | cons t ts ih =>
      refine ih _ (fun t ht => h t (List.mem_cons_of_mem _ ht)) (And.intro (fun name u hu => ?_)
        fun u hu => ?_)
      · by_cases hname : name = t.name
        · subst hname
          rw [TypeRegistry.get?_install_self] at hu
          cases hu
          rfl
        · rw [TypeRegistry.get?_install_of_ne r hname] at hu
          exact hr.1 name u hu
      · rcases NameMap.mem_values_insert hu with rfl | hu
        · exact h u List.mem_cons_self
        · exact hr.2 u hu
  have hbuiltins : ∀ t ∈ TypeRegistry.builtins, t.macros.entries = [] ∧ t.descriptor = none := by
    have : TypeRegistry.builtins.all
        (fun t => t.macros.entries.isEmpty && t.descriptor.isNone) = true := by decide
    simpa using List.all_eq_true.1 this
  have hnone : Sound { types := {}, scriptType } :=
    And.intro (fun name t ht => by cases ht) fun t ht => absurd ht List.not_mem_nil
  refine hinstall _ _ (fun t ht => ?_) hnone
  rcases List.mem_append.1 ht with ht | ht
  · obtain ⟨hentries, hnone⟩ := hbuiltins t ht
    exact .of_empty hentries hnone
  · rw [List.mem_singleton.1 ht]
    exact .ofProgram scriptType none true

/-- **Invariant.** Tables and descriptors are in step, in the session and in all files. -/
theorem inStep (h : k.Lineage) : k.InStep := by
  induction h with
  | start settings backend inline world hshared hown author hauthor hwritten ih =>
    obtain ⟨hnamed, htypes⟩ := inStep_initial settings.scriptType
    exact ⟨hnamed, htypes, fun p d hd => (ih p d hd).descriptor_distinct (hwritten p d hd).1⟩
  | step h hstep ih => exact ih.step h.reachable.consistent hstep
  | aside _ session htypes hdefinitions hbackend ih =>
    exact ⟨by rw [htypes]; exact ih.named, by rw [htypes]; exact ih.types, ih.files⟩
  | world _ world hkeyed hgrows author hauthor hwritten ih ihauthor =>
    exact ⟨ih.named, ih.types,
      fun p d hd => (ihauthor p d hd).descriptor_distinct (hwritten p d hd).1⟩

/-- **Lockstep.** Wherever a type has a descriptor, its records are those of the entries of the
    table, in order, and no two of them have one name and signature.  A session that is offered the
    descriptor imports it if it can be read and all of its units are found; and the table of a type
    that is imported from it answers every call as the first one does, with an entry of the same
    signature and unit or with none. -/
theorem lockstep (h : k.Lineage) {name : String} {t : OwnerType} {d : Descriptor}
    (ht : k.session.types.get? name = some t) (hd : t.descriptor = some d) :
    d.macros = t.macros.entries.map MacroEntry.record ∧
    (d.macros.map MacroRecord.key).Nodup ∧
    ∀ later : Work, later.Lineage →
      d.Offered later.world.files later.session.settings.classpath →
      (d.BlocksLast → (∀ r ∈ d.macros, later.Resolves r.unit) →
        ((SessionM.importType d.name).run later).1 = .ok true) ∧
      (((SessionM.importType d.name).run later).1 = .ok true → ∃ imported,
        ((SessionM.importType d.name).run later).2.session.types.get? d.name = some imported ∧
        imported.descriptor = some d ∧
        ∀ called argc block, (imported.macros.resolve called argc block).map MacroEntry.record =
          (t.macros.resolve called argc block).map MacroEntry.record) := by
  have hstep := h.inStep.types t (NameMap.mem_values_of_get? ht)
  have hrecords := hstep.macros d hd
  have hdistinct : (d.macros.map MacroRecord.key).Nodup := hrecords ▸ hstep.distinct
  refine ⟨hrecords, hdistinct, fun later hlater hoffered => ⟨fun hlast hunits => ?_, fun htrue => ?_⟩⟩
  · exact importType_of_resolves (Descriptor.find_of_offered hlast hoffered) hunits
  · obtain ⟨d', macros, units, hfind, hmacros, hnames, hrun⟩ :=
      hlater.reachable.consistent.importType_true htrue
    obtain rfl := Descriptor.eq_of_offered hoffered hfind
    rw [hrun, types_withUnits]
    refine ⟨_, TypeRegistry.get?_install_self _ (OwnerType.ofDescriptor d' macros), rfl,
      fun called argc block => ?_⟩
    rw [MacroTable.map_record_resolve, MacroTable.map_record_resolve,
      OwnerType.Lockstep.records_ofDescriptor hmacros hnames hdistinct, hrecords]

/-- A session starts in a world without files. -/
theorem start_empty (settings : Settings) {units : Namespace} (h : units.Keyed) :
    Lineage ⟨Session.start settings (.own units), {}⟩ := by
  have hempty (p : Path) (d : Descriptor) : ¬ ({} : Files).Stores p d := by
    rintro ⟨-, text, htext, -⟩
    rw [Files.text?_empty] at htext
    cases htext
  refine .start settings (.own units) .builtins {} Namespace.keyed_empty (fun us hus => ?_)
    (fun _ _ => ⟨Session.start settings (.own units), {}⟩)
    (fun p d hd => absurd hd (hempty p d)) fun p d hd => absurd hd (hempty p d)
  cases hus
  exact h

/-- A session starts in a world in which all files are descriptors of another one. -/
theorem start_offered (settings : Settings) {units : Namespace} (h : units.Keyed) (hk : k.Lineage)
    {files : Files} (hfiles : ∀ p text, files.text? p = some text →
      ∃ d ∈ k.session.types.descriptors, text = d.encode) :
    Lineage ⟨Session.start settings (.own units), { files }⟩ := by
  refine .start settings (.own units) .builtins _ Namespace.keyed_empty (fun us hus => ?_)
    (fun _ _ => k) (fun _ _ _ => hk) ?_
  · cases hus
    exact h
  · rintro p d ⟨-, text, htext, hdecode⟩
    obtain ⟨d', hd', rfl⟩ := hfiles p text htext
    obtain rfl := Descriptor.eq_of_decode?_encode hdecode
    exact ⟨hd', htext⟩

/-- A macro with an optional block has two entries and two records, and a later session imports
    both. -/
theorem lockstep_optional : ∃ (k later : Work) (t : OwnerType) (d : Descriptor),
    k.session.types.get? "Script" = some t ∧ t.descriptor = some d ∧
    d.name = "Script" ∧ d.macros.map MacroRecord.key = [("each", ⟨[.block]⟩), ("each", ⟨[]⟩)] ∧
    d.macros = t.macros.entries.map MacroEntry.record ∧
    ((SessionM.importType d.name).run later).1 = .ok true ∧ ∃ imported,
      ((SessionM.importType d.name).run later).2.session.types.get? d.name = some imported ∧
      ∀ called argc block, (imported.macros.resolve called argc block).map MacroEntry.record =
        (t.macros.resolve called argc block).map MacroEntry.record := by
  let unit := LoadedUnit.named "kiln.macros.Script$Extension1"
  let units : Namespace := NameMap.empty.insert unit.name unit
  have hget : units.get? unit.name = some unit := NameMap.get?_insert_self _ _ _
  have hkeyed : units.Keyed := Namespace.keyed_empty.insert unit
  -- the session that defines the macro
  let spec : MacroSpec := ⟨"each", [.block "b" true], ⟨Span.zero, .nil⟩⟩
  let met : MacroDefinition := { spec, owner := "Script", span := Span.zero, source := "main" }
  let start : Work := ⟨Session.start {} (.own units), {}⟩
  let t := Typer.withMacro spec unit.name unit (.ofProgram "Script" none true)
  let k : Work := ((Typer.registerMacro met unit.name unit).run start).2
  have hk : k.Lineage :=
    (start_empty {} hkeyed).step (.registerMacro start met unit.name unit hget)
  have hscript : start.session.types.get? met.owner = some (.ofProgram "Script" none true) :=
    TypeRegistry.get?_initial "Script"
  have ht : k.session.types.get? "Script" = some t := Typer.get?_registerMacro unit.name unit hscript
  let d : Descriptor := { name := "Script", superclass := some "Object", macros :=
    [⟨"each", ⟨[.block]⟩, unit.name⟩, ⟨"each", ⟨[]⟩, unit.name⟩] }
  have hd : t.descriptor = some d := rfl
  obtain ⟨hrecords, -, himport⟩ := lockstep hk ht hd
  -- the session that imports it
  let later : Work := ⟨Session.start { classpath := ["out"] } (.own units),
    { files := ({} : Files).set ["out", "Script.kdesc"] (.text d.encode) }⟩
  have hlater : later.Lineage := start_offered _ hkeyed hk fun p text htext =>
    (Files.text?_set htext).elim (fun hnew => ⟨d, TypeRegistry.mem_descriptors ht hd, hnew⟩)
      fun hold => by rw [Files.text?_empty] at hold; cases hold
  have hpath : Path.ofText (Descriptor.pathIn "out" "Script") = ["out", "Script.kdesc"] := by
    decide +kernel
  have hoffered : d.Offered later.world.files ["out"] := by
    have htext : later.world.files.text? ["out", "Script.kdesc"] = some d.encode := rfl
    rw [Descriptor.Offered, List.findSome?_cons, hpath, htext]
  have hlast : d.BlocksLast := by simp [Descriptor.BlocksLast, d, Signature.blockLast]
  have hunits (r : MacroRecord) (hr : r ∈ d.macros) : later.Resolves r.unit := by
    have hname : r.unit = unit.name := by
      rcases List.mem_cons.1 hr with rfl | hr
      · rfl
      · rw [List.mem_singleton.1 hr]
    refine resolves_iff.2 ⟨rfl, Namespace.exists_resolve_iff.2 (.inl ?_)⟩
    rw [hname]
    exact Option.isSome_iff_exists.2 ⟨unit, hget⟩
  obtain ⟨hreads, hrestores⟩ := himport later hlater hoffered
  have htrue := hreads hlast hunits
  obtain ⟨imported, himported, -, hresolve⟩ := hrestores htrue
  exact ⟨k, later, t, d, ht, hd, rfl, rfl, hrecords, htrue, imported, himported, hresolve⟩

end Lineage

end Work

end Quasiquote
