import Quasiquote.Proofs.Session.Persistence
import Quasiquote.Proofs.Types.Descriptors

namespace Quasiquote

/-!
# Records — macros that descriptors keep

Sessions that load types from the directory they write to go on with what is there.  A type that
has been imported lists what its file lists, and nothing that a session does takes a record out
of it; so its file, when it is written again, lists no less.  A class that is opened although its
descriptor could not be imported starts from nothing.

* `Work.Importable`, `Work.Move.importable` — a type that can be imported stays so;
* `Work.Guards`, `Work.Guards.move` — what a compilation relies on to keep records;
* `Work.Keeping`, `Work.Keeping.reached` — the invariant between compilations;
* `Work.records_stay` — the records of a type over any number of sessions.
-/

/-- Whether the file of a type holds a descriptor that lists a macro. -/
def Files.Records (fs : Files) (out type : String) (key : String × Signature) : Prop :=
  ∃ d : Descriptor, fs.text? (Path.ofText (Descriptor.pathIn out type)) = some d.encode ∧ key ∈ d.keys

/-- Whether the files of types hold descriptors that are written to them, that of the given type its
    own. -/
def Files.Filed (fs : Files) (out type : String) : Prop :=
  ∀ name text, fs.text? (Path.ofText (Descriptor.pathIn out name)) = some text → ∃ d : Descriptor,
    text = d.encode ∧
    Path.ofText (Descriptor.pathIn out d.name) = Path.ofText (Descriptor.pathIn out name) ∧
    (Path.ofText (Descriptor.pathIn out name) = Path.ofText (Descriptor.pathIn out type) →
      d.name = type)

/-- Whether a session writes to a directory and loads from that one only, and a type is not its type
    of scripts. -/
structure Settings.KeepsIn (s : Settings) (out type : String) : Prop where
  destination : s.destination = some out
  classpath : s.classpath = [out]
  script : s.scriptType ≠ type

namespace Work

variable {k k' : Work} {type : String} {keys : List (String × Signature)}

/-! ### Types under their names -/

/-- **Invariant.** Types are kept under the names of their descriptors. -/
theorem Step.named (h : Step k k') (hk : k.session.types.Named) : k'.session.types.Named := by
  rcases h.types_cases with hsame | ⟨owner, m, hsame⟩ | ⟨name, superclass, persistent, hsame⟩ |
    ⟨d, unit, loaded, -, hsame⟩ | ⟨name, rfl⟩
  · rwa [hsame]
  · rw [hsame]
    exact hk.modify owner fun t => .define t m
  · rw [hsame]
    exact hk.openType name superclass persistent
  · rw [hsame]
    exact hk.modify d.owner (.withMacro d.spec unit loaded)
  · rcases SessionM.types_importType name k with hsame | ⟨d, macros, -, hsame⟩
    · rwa [hsame]
    · rw [hsame]
      exact hk.insert fun d' hd' => by
        cases hd'
        rfl

theorem Reachable.named (h : k.Reachable) : k.session.types.Named := by
  induction h with
  | start settings => exact .initial settings.scriptType
  | step _ hstep ih => exact hstep.named ih
  | aside _ session htypes => rwa [htypes]
  | world _ _ _ _ ih => exact ih

/-! ### What stays possible -/

/-- Whether a type can be imported: its descriptor can be read, and all of its units are found. -/
def Importable (k : Work) (type : String) : Prop :=
  ∃ d, Descriptor.find k.world.files type k.session.settings.classpath = .ok (some d) ∧
    d.name = type ∧ ∀ r ∈ d.macros, k.Resolves r.unit

/-- A type that can be imported is there afterwards. -/
theorem Importable.contains (h : k.Importable type) (hk : k.Consistent) :
    ((SessionM.importType type).run k).2.session.types.contains type = true := by
  obtain ⟨d, hfind, rfl, hunits⟩ := h
  obtain ⟨d', macros, units, hfind', -, -, hrun⟩ :=
    hk.importType_true (importType_of_resolves hfind hunits)
  rw [hfind] at hfind'
  cases hfind'
  rw [hrun, types_withUnits]
  have hget := TypeRegistry.get?_install_self k.session.types (OwnerType.ofDescriptor d macros)
  exact Option.isSome_iff_exists.2 ⟨_, hget⟩

theorem Importable.enter (h : k.Importable type) (source : String) :
    (k.enter source).Importable type := by
  obtain ⟨d, hfind, hname, hunits⟩ := h
  refine ⟨d, hfind, hname, fun r hr => ?_⟩
  have hunit := resolves_iff.1 (hunits r hr)
  exact resolves_iff.2 hunit

namespace Move

/-- A type that is there stays there. -/
theorem contains (h : k.Move k') (hk : k.session.types.contains type = true) :
    k'.session.types.contains type = true := by
  -- tables of types are only ever changed by putting a type in
  have hinsert (types : NameMap OwnerType) (name : String) (t : OwnerType)
      (h : types.contains type = true) : (types.insert name t).contains type = true := by
    rw [NameMap.contains, NameMap.get?_insert]
    split
    · rfl
    · exact h
  have hmodify (owner : String) (f : OwnerType → OwnerType) :
      (k.session.types.modify owner f).contains type = true := by
    unfold TypeRegistry.modify NameMap.modify
    split
    · exact hinsert _ _ _ hk
    · exact hk
  have himport (name : String) :
      ((SessionM.importType name).run k).2.session.types.contains type = true := by
    rcases SessionM.types_importType name k with hsame | ⟨d, macros, -, hsame⟩
    · rwa [hsame]
    · rw [hsame]
      exact hinsert _ _ _ hk
  cases h
  case declare owner m => exact hmodify _ _
  case importType name => exact himport name
  case openClass name superclass =>
    refine opened_of (P := fun k' => k'.session.types.contains type = true) name superclass hk
      (himport name) fun k persistent hk => ?_
    show (k.session.types.openType name superclass persistent).contains type = true
    unfold TypeRegistry.openType
    split
    · exact hk
    · exact hinsert _ _ _ hk
  case load own _ _ files _ =>
    obtain ⟨units, h⟩ := SessionM.keeps_loadUnit own files k
    rwa [h, types_withUnits]
  case register =>
    rw [Typer.registerMacro_run]
    split
    · exact hk
    · exact hmodify _ _
  all_goals exact hk

/-- A unit that is found stays so, where the session loads units from the directory it writes to. -/
theorem resolves {out unit : String} (h : k.Move k')
    (hdestination : k.session.settings.destination = some out)
    (hclasspath : k.session.settings.classpath = [out]) (hunit : k.Resolves unit) :
    k'.Resolves unit := by
  have hback : k.ReadsBack := fun root hroot => by
    rw [hdestination] at hroot
    cases hroot
    exact hclasspath ▸ List.mem_singleton_self out
  -- the texts of files stay, so it is enough that loaded units stay
  have hgrows {k' : Work} (hmove : k.Move k') (haccepts : k'.accepts = k.accepts)
      (hunits : k.units.Grows k'.units) : k'.Resolves unit := by
    rw [resolves_iff, Namespace.exists_resolve_iff] at hunit ⊢
    rw [haccepts, hmove.settings, hclasspath]
    rw [hclasspath] at hunit
    refine ⟨hunit.1, hunit.2.imp (fun hloaded => ?_) fun ⟨text, u, hfile, hread⟩ => ?_⟩
    · obtain ⟨u, hu⟩ := Option.isSome_iff_exists.1 hloaded
      exact Option.isSome_iff_exists.2 ⟨u, hunits _ _ hu⟩
    · obtain ⟨dir, hdir, htext⟩ := List.exists_of_findSome?_eq_some hfile
      obtain rfl := List.mem_singleton.1 hdir
      have hkept := hmove.keeps_text hback htext
      refine ⟨text, u, ?_, hread⟩
      rw [Namespace.fileOf, List.findSome?_cons, hkept]
  have hmove := h
  cases h
  case importType name => exact hunit.importType name
  case openClass name superclass =>
    refine opened_of (P := fun k => k.Resolves unit) name superclass hunit (hunit.importType name)
      fun k persistent hk => ?_
    rw [resolves_iff] at hk ⊢
    exact hk
  case load own _ _ files _ =>
    rcases SessionM.loadUnit_cases own files k with ⟨e, hrun⟩ | ⟨u, units, ha, hload, -, hrun⟩
    · rwa [hrun]
    · obtain ⟨_, -, hpublish, -⟩ := Namespace.load_ok hload
      rw [hrun] at hmove ⊢
      refine hgrows hmove (accepts_withUnits _ _) ?_
      rw [units_withUnits _ _ ha]
      exact Namespace.grows_publish hpublish
  case register =>
    rw [Typer.registerMacro_run] at hmove ⊢
    revert hmove
    split
    · exact fun _ => hunit
    · exact fun hmove => hgrows hmove rfl (.refl _)
  all_goals exact hgrows hmove rfl (.refl _)

/-- What descriptor of a type is found stays the same. -/
theorem find (h : k.Move k') (name : String) :
    Descriptor.find k'.world.files name k'.session.settings.classpath =
      Descriptor.find k.world.files name k.session.settings.classpath := by
  rw [h.settings]
  exact Descriptor.find_congr (fun dir => h.text?_pathIn dir name) _

/-- A type that can be imported stays so. -/
theorem importable {out : String} (h : k.Move k')
    (hdestination : k.session.settings.destination = some out)
    (hclasspath : k.session.settings.classpath = [out]) (hk : k.Importable type) :
    k'.Importable type := by
  obtain ⟨d, hfind, hname, hunits⟩ := hk
  exact ⟨d, (h.find type).trans hfind, hname,
    fun r hr => h.resolves hdestination hclasspath (hunits r hr)⟩

end Move

/-! ### Within a compilation -/

/-- What a compilation relies on to keep the records of a type: they are listed by what is imported
    and by what is there, and the type is there, or it has no records yet, or it can be imported. -/
structure Guards (type : String) (keys : List (String × Signature)) (k : Work) : Prop where
  found : ∀ name d, Descriptor.find k.world.files name k.session.settings.classpath = .ok (some d) →
    d.name = type → keys ⊆ d.keys
  lists : k.session.types.Lists type keys
  ready : k.session.types.contains type = true ∨ keys = [] ∨ k.Importable type

namespace Guards

theorem lists_importType (h : Guards type keys k) (name : String) :
    ((SessionM.importType name).run k).2.session.types.Lists type keys := by
  rcases SessionM.types_importType name k with hsame | ⟨d, macros, hfind, hsame⟩
  · rw [hsame]
    exact h.lists
  · rw [hsame]
    refine h.lists.insert fun d' hd' hname => ?_
    cases hd'
    exact h.found name d hfind hname

/-- A class that is opened has been imported before, if it has records. -/
theorem lists_opened (h : Guards type keys k) (hk : k.Consistent) (name : String)
    (superclass : Option String) : (k.opened name superclass).session.types.Lists type keys := by
  unfold Work.opened
  dsimp only
  by_cases hnew : (superclass != some extensionType && !k.session.types.contains name) = true
  · -- the import comes first, so a type that is opened from nothing could not be imported
    rw [if_pos hnew]
    refine (h.lists_importType name).openType superclass fun _ hname => ?_
    subst hname
    rcases h.ready with hthere | hnone | himportable
    · rw [hthere, Bool.not_true, Bool.and_false] at hnew
      cases hnew
    · exact .inr hnone
    · exact .inl (himportable.contains hk)
  · -- a type that lasts and is not imported is there already
    rw [if_neg hnew]
    refine h.lists.openType superclass fun hpersistent _ => .inl ?_
    rw [hpersistent, Bool.true_and, Bool.not_eq_true', Bool.not_eq_false] at hnew
    exact hnew

/-- **Step.** A move keeps what a compilation relies on. -/
theorem move {out : String} (h : Guards type keys k) (hk : k.Consistent)
    (hdestination : k.session.settings.destination = some out)
    (hclasspath : k.session.settings.classpath = [out]) (hmove : k.Move k') :
    Guards type keys k' := by
  refine ⟨fun name d hfind => ?_, ?_, ?_⟩
  · rw [hmove.find] at hfind
    exact h.found name d hfind
  · cases hmove
    case declare owner m => exact h.lists.modify owner fun t => .define t m
    case importType name => exact h.lists_importType name
    case openClass name superclass => exact h.lists_opened hk name superclass
    case load own _ _ files _ =>
      obtain ⟨units, hsame⟩ := SessionM.keeps_loadUnit own files k
      rw [hsame, types_withUnits]
      exact h.lists
    case register own _ d loaded _ =>
      rw [Typer.registerMacro_run]
      split
      · exact h.lists
      · exact h.lists.modify d.owner (.withMacro d.spec own loaded)
    all_goals exact h.lists
  · exact h.ready.imp hmove.contains (.imp id (hmove.importable hdestination hclasspath))

theorem moves {out : String} (h : Guards type keys k) (hk : k.Reachable)
    (hdestination : k.session.settings.destination = some out)
    (hclasspath : k.session.settings.classpath = [out]) (hmoves : k.Moves k') :
    Guards type keys k' := by
  induction hmoves with
  | refl => exact h
  | tail hmoves hmove ih =>
    have hsettings := Moves.settings hmoves
    exact ih.move (Moves.reachable hmoves hk).consistent (hsettings ▸ hdestination)
      (hsettings ▸ hclasspath) hmove

end Guards

/-! ### Between compilations -/

/-- Whether no other type of the session is written to the file of a type. -/
def Sole (k : Work) (out type : String) : Prop :=
  ∀ d ∈ k.session.types.descriptors,
    Path.ofText (Descriptor.pathIn out d.name) = Path.ofText (Descriptor.pathIn out type) →
      d.name = type

/-- Whether the session knows all that the file of a type lists, if it knows the type. -/
structure Keeping (out type : String) (k : Work) : Prop where
  reachable : k.Reachable
  destination : k.session.settings.destination = some out
  classpath : k.session.settings.classpath = [out]
  filed : k.world.files.Filed out type
  lists : ∀ d : Descriptor,
    k.world.files.text? (Path.ofText (Descriptor.pathIn out type)) = some d.encode →
      k.session.types.Lists type d.keys

namespace Keeping

variable {out : String}

/-- A session that starts knows only the type of scripts. -/
theorem start {settings : Settings} {backend : Backend} {inline : InlineMacros} {world : World}
    (hshared : world.shared.Keyed) (hown : ∀ units, backend = .own units → units.Keyed)
    (hsettings : settings.KeepsIn out type) (hfiled : world.files.Filed out type) :
    Keeping out type ⟨{ Session.start settings backend with inline }, world⟩ where
  reachable := .start settings backend inline world hshared hown
  destination := hsettings.destination
  classpath := hsettings.classpath
  filed := hfiled
  lists _ _ _ hd hname :=
    absurd ((TypeRegistry.name_of_mem_initial hd).symm.trans hname) hsettings.script

/-- Files of units come and go. -/
theorem withWorld (h : Keeping out type k) {world : World} (hkeyed : world.shared.Keyed)
    (hgrows : k.world.shared.Grows world.shared)
    (hsame : ∀ name, world.files.text? (Path.ofText (Descriptor.pathIn out name)) =
      k.world.files.text? (Path.ofText (Descriptor.pathIn out name))) :
    Keeping out type { k with world } where
  reachable := h.reachable.world world hkeyed hgrows
  destination := h.destination
  classpath := h.classpath
  filed name text htext := h.filed name text ((hsame name).symm.trans htext)
  lists d hd := h.lists d ((hsame type).symm.trans hd)

/-- What is imported for a type lists what its file lists. -/
theorem found (h : Keeping out type k) {d : Descriptor}
    (hd : k.world.files.text? (Path.ofText (Descriptor.pathIn out type)) = some d.encode)
    {name : String} {d' : Descriptor}
    (hfind : Descriptor.find k.world.files name k.session.settings.classpath = .ok (some d'))
    (hname : d'.name = type) : d' = d := by
  obtain ⟨dir, hdir, text, htext, hdecode⟩ := Descriptor.exists_of_find hfind
  rw [h.classpath] at hdir
  obtain rfl := List.mem_singleton.1 hdir
  -- the file that was read for one name holds what was written for that of the type
  obtain ⟨written, rfl, hpath, -⟩ := h.filed name text htext
  obtain rfl := Descriptor.eq_of_decode?_encode hdecode
  rw [← hpath, hname, hd] at htext
  exact (Descriptor.encode_inj (Option.some.inj htext)).symm

/-- **Step.** Compiling keeps the records of a type, cut off or not, if the type that it brings in
    has no file yet or can be imported. -/
theorem reached (h : Keeping out type k) (n : Nat) (source code : String)
    (hsole : (k.reached n source code).Sole out type)
    (hopens : (k.reached n source code).session.types.contains type = true →
      k.session.types.contains type = true ∨
      k.world.files.text? (Path.ofText (Descriptor.pathIn out type)) = none ∨ k.Importable type) :
    Keeping out type (k.reached n source code) ∧ ∀ key, k.world.files.Records out type key →
      (k.reached n source code).world.files.Records out type key := by
  obtain ⟨typed, hmoves, hreached⟩ := reached_cases h.reachable n source code
  have henter : (k.enter source).Reachable := h.reachable.aside _ rfl rfl rfl
  have hnamed := (Moves.reachable hmoves henter).named
  have hsettings : typed.session.settings = k.session.settings := (Moves.settings hmoves).trans rfl
  have hsame (name : String) : typed.world.files.text? (Path.ofText (Descriptor.pathIn out name)) =
      k.world.files.text? (Path.ofText (Descriptor.pathIn out name)) :=
    Moves.text?_pathIn hmoves out name
  -- what is written at the end comes from the types that the session has after typing
  have hfinal : (k.reached n source code).session = typed.session ∧ ∀ name,
      (k.reached n source code).world.files.text? (Path.ofText (Descriptor.pathIn out name)) =
        typed.world.files.text? (Path.ofText (Descriptor.pathIn out name)) ∨
      ∃ d ∈ typed.session.types.descriptors,
        Path.ofText (Descriptor.pathIn out name) = Path.ofText (Descriptor.pathIn out d.name) ∧
        (k.reached n source code).world.files.text? (Path.ofText (Descriptor.pathIn out name)) =
          some d.encode := by
    rcases hreached with hreached | hreached
    · rw [hreached]
      exact ⟨rfl, fun name => .inl rfl⟩
    · rw [hreached]
      refine ⟨?_, fun name => (typed.text?_describing _).imp_right ?_⟩
      · obtain ⟨files, hfiles⟩ := typed.exists_describing
        rw [hfiles]
      · rintro ⟨root, hroot, d, hd, hpath, hnew⟩
        rw [hsettings, h.destination] at hroot
        cases hroot
        exact ⟨d, hd, hpath, hnew⟩
  obtain ⟨hsession, hwritten⟩ := hfinal
  rw [Sole, hsession] at hsole
  rw [hsession] at hopens
  -- a type that the session does not know is not written, one that it knows has been guarded
  have hlists (d : Descriptor)
      (hd : k.world.files.text? (Path.ofText (Descriptor.pathIn out type)) = some d.encode) :
      typed.session.types.Lists type d.keys := by
    by_cases hthere : typed.session.types.contains type = true
    · have hready : k.session.types.contains type = true ∨ d.keys = [] ∨
          (k.enter source).Importable type := by
        refine (hopens hthere).imp id (Or.imp (fun hnone => ?_) fun h => h.enter source)
        rw [hd] at hnone
        cases hnone
      have hguards : Guards type d.keys (k.enter source) :=
        ⟨fun name d' hfind hname => h.found hd hfind hname ▸ List.Subset.refl _, h.lists d hd, hready⟩
      exact (hguards.moves henter h.destination h.classpath hmoves).lists
    · rintro e he rfl
      obtain ⟨t, ht, -⟩ := hnamed.get?_of_mem he
      exact absurd (Option.isSome_iff_exists.2 ⟨t, ht⟩) hthere
  refine ⟨⟨h.reachable.reached n source code, ?_, ?_, fun name text htext => ?_, fun d hd => ?_⟩, ?_⟩
  · rw [hsession, hsettings, h.destination]
  · rw [hsession, hsettings, h.classpath]
  · rcases hwritten name with hold | ⟨d, hd, hpath, hnew⟩
    · rw [hold, hsame] at htext
      exact h.filed name text htext
    · rw [hnew] at htext
      cases htext
      exact ⟨d, rfl, hpath.symm, fun hsole' => hsole d hd (hpath.symm.trans hsole')⟩
  · rw [hsession]
    rcases hwritten type with hold | ⟨d', hd', hpath, hnew⟩
    · rw [hold, hsame] at hd
      exact hlists d hd
    · rw [hnew] at hd
      obtain rfl := Descriptor.encode_inj (Option.some.inj hd)
      intro e he hname
      rw [hnamed.eq_of_name he hd' (hname.trans (hsole d' hd' hpath.symm).symm)]
      exact List.Subset.refl _
  · rintro key ⟨d, hd, hkey⟩
    rcases hwritten type with hold | ⟨d', hd', hpath, hnew⟩
    · exact ⟨d, by rw [hold, hsame, hd], hkey⟩
    · exact ⟨d', hnew, hlists d hd d' hd' (hsole d' hd' hpath.symm) hkey⟩

end Keeping

/-! ### Sessions one after the other -/

/-- What happens between two looks at the file of a type: a source is compiled in a session, cut off
    or not; another session starts; or files other than those of descriptors change. -/
inductive Next (out type : String) (k : Work) : Work → Prop
  /-- If the compilation brings the type in, then there is no file of it, or it can be imported. -/
  | compile (n : Nat) (source code : String) (hsole : (k.reached n source code).Sole out type)
      (hopens : (k.reached n source code).session.types.contains type = true →
        k.session.types.contains type = true ∨
        k.world.files.text? (Path.ofText (Descriptor.pathIn out type)) = none ∨
        k.Importable type) :
    Next out type k (k.reached n source code)
  | start (settings : Settings) (backend : Backend) (inline : InlineMacros)
      (hown : ∀ units, backend = .own units → units.Keyed) (hsettings : settings.KeepsIn out type) :
    Next out type k ⟨{ Session.start settings backend with inline }, k.world⟩
  | world (world : World) (hkeyed : world.shared.Keyed)
      (hgrows : k.world.shared.Grows world.shared)
      (hsame : ∀ name, world.files.text? (Path.ofText (Descriptor.pathIn out name)) =
        k.world.files.text? (Path.ofText (Descriptor.pathIn out name))) :
    Next out type k { k with world }

theorem Keeping.next {out : String} (h : Keeping out type k) (hnext : Next out type k k') :
    Keeping out type k' ∧ ∀ key, k.world.files.Records out type key →
      k'.world.files.Records out type key := by
  cases hnext with
  | compile n source code hsole hopens => exact h.reached n source code hsole hopens
  | start settings backend inline hown hsettings =>
    exact ⟨.start h.reachable.consistent.shared hown hsettings h.filed, fun _ => id⟩
  | world world hkeyed hgrows hsame =>
    refine ⟨h.withWorld hkeyed hgrows hsame, ?_⟩
    rintro key ⟨d, hd, hkey⟩
    exact ⟨d, (hsame type).trans hd, hkey⟩

theorem Keeping.run {out : String} (h : Keeping out type k)
    (hrun : Relation.ReflTransGen (Next out type) k k') :
    Keeping out type k' ∧ ∀ key, k.world.files.Records out type key →
      k'.world.files.Records out type key := by
  induction hrun with
  | refl => exact ⟨h, fun _ => id⟩
  | tail _ hnext ih =>
    obtain ⟨hkeeping, hrecords⟩ := ih
    obtain ⟨hkeeping', hrecords'⟩ := hkeeping.next hnext
    exact ⟨hkeeping', fun key hkey => hrecords' key (hrecords key hkey)⟩

/-- **Theorem.** Sessions one after the other write to a directory and load from it.  Whatever they
    compile, with errors or not, and whatever becomes of the files of units, a macro that the file of
    a type once lists it always lists, as long as each compilation that brings the type in can import
    it, or finds no file of it, and no other type is written to the file. -/
theorem records_stay {out : String} {settings : Settings} {backend : Backend}
    {inline : InlineMacros} {world : World} (hshared : world.shared.Keyed)
    (hown : ∀ units, backend = .own units → units.Keyed) (hsettings : settings.KeepsIn out type)
    (hfiled : world.files.Filed out type)
    (h : Relation.ReflTransGen (Next out type)
      ⟨{ Session.start settings backend with inline }, world⟩ k)
    (h' : Relation.ReflTransGen (Next out type) k k') {key : String × Signature}
    (hkey : k.world.files.Records out type key) : k'.world.files.Records out type key := by
  have hstart : Keeping out type ⟨{ Session.start settings backend with inline }, world⟩ :=
    .start hshared hown hsettings hfiled
  exact ((hstart.run h).1.run h').2 key hkey

/-- A class of an earlier session keeps its macro when it is opened again. -/
theorem records_stay_class :
    let u : LoadedUnit := .named "kiln.macros.A$Extension1"
    let d : Descriptor := { name := "A", superclass := some rootType, macros := [⟨"m", ⟨[]⟩, u.name⟩] }
    let settings : Settings := { destination := some "out", classpath := ["out"] }
    let k : Work := ⟨Session.start settings .shared,
      { files := ({} : Files).set ["out", "A.kdesc"] (.text d.encode)
        shared := NameMap.empty.insert u.name u }⟩
    k.world.files.Records "out" "A" ("m", ⟨[]⟩) ∧
    (k.reached 0 "main" "class A; end").session.types.contains "A" = true ∧
    (k.reached 0 "main" "class A; end").world.files.Records "out" "A" ("m", ⟨[]⟩) := by
  intro u d settings k
  have hpath : Path.ofText (Descriptor.pathIn "out" "A") = ["out", "A.kdesc"] := by decide +kernel
  have htext : k.world.files.text? (Path.ofText (Descriptor.pathIn "out" "A")) = some d.encode := by
    rw [hpath]
    rfl
  have hrecords : k.world.files.Records "out" "A" ("m", ⟨[]⟩) := ⟨d, htext, List.mem_cons_self⟩
  -- the compilation is run once, for all that is asked of its types
  have hview : ((k.reached 0 "main" "class A; end").session.types.contains "A",
      (k.reached 0 "main" "class A; end").session.types.descriptors.map Descriptor.name) =
        (true, ["A", "Script"]) := by
    decide +kernel
  obtain ⟨hthere, hnames⟩ := Prod.mk.inj hview
  have hfiled : k.world.files.Filed "out" "A" := by
    intro name text hname
    by_cases hsame : Path.ofText (Descriptor.pathIn "out" name) = ["out", "A.kdesc"]
    · rw [hsame, ← hpath, htext] at hname
      exact ⟨d, (Option.some.inj hname).symm, hpath.trans hsame.symm, fun _ => rfl⟩
    · rw [Files.text?_set_of_ne _ _ hsame, Files.text?_empty] at hname
      cases hname
  have hsole : (k.reached 0 "main" "class A; end").Sole "out" "A" := by
    intro e he hsame
    have hname : e.name ∈ ["A", "Script"] := hnames ▸ List.mem_map_of_mem he
    rcases List.mem_cons.1 hname with hname | hname
    · exact hname
    · rw [List.mem_singleton.1 hname] at hsame
      exact absurd hsame (by decide +kernel)
  have himportable : k.Importable "A" := by
    have hoffered : d.Offered k.world.files ["out"] := by
      have hname : d.name = "A" := rfl
      rw [Descriptor.Offered, List.findSome?_cons, hname, htext]
    have hlast : d.BlocksLast := by simp [Descriptor.BlocksLast, d, Signature.blockLast]
    refine ⟨d, Descriptor.find_of_offered hlast hoffered, rfl, fun r hr => ?_⟩
    obtain rfl := List.mem_singleton.1 hr
    exact resolves_iff.2 ⟨rfl, Namespace.exists_resolve_iff.2 (.inl rfl)⟩
  have hkeyed : k.world.shared.Keyed := Namespace.keyed_empty.insert u
  have hown (units : Namespace) (h : Backend.shared = .own units) : units.Keyed := by cases h
  have hnext : Next "out" "A" k (k.reached 0 "main" "class A; end") :=
    .compile 0 "main" "class A; end" hsole fun _ => .inr (.inr himportable)
  have hsettings : settings.KeepsIn "out" "A" := ⟨rfl, rfl, by decide⟩
  exact ⟨hrecords, hthere, records_stay hkeyed hown hsettings hfiled .refl (.single hnext) hrecords⟩

end Work

end Quasiquote
