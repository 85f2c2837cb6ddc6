import Mathlib.Data.List.Forall2
import Quasiquote.Proofs.NameMap
import Quasiquote.Proofs.State
import Quasiquote.Proofs.Unit.Codec
import Quasiquote.Proofs.Unit.Namespace

namespace Quasiquote

/-!
# Loading — many loaders on one namespace

Loaders that share a namespace change it in place, unit by unit, and a change is not taken back
when a call fails later on.  A call of a loader checks all of its units before it adds the first
one, so it never has to: it leaves what the function on namespaces answers, or it leaves the
namespace alone.

* `LoaderM`, `Loader.load`, `Loader.resolve` — the calls of a loader, in place;
* `Loader.load_run`, `Loader.resolve_run` — they leave what `Namespace.load` and
  `Namespace.resolve` answer;
* `Namespace.exists_load_iff` — when loading succeeds;
* `Request`, `Namespace.after` — calls of any loaders, one after the other;
* `Namespace.loading_consistent` — what holds of any such sequence.
-/

/-- Computations that change a namespace in place.  One that fails keeps its changes. -/
abbrev LoaderM := ExceptT Diagnostic (StateM Namespace)

namespace Loader

open Namespace

/-- Publishes a unit, and answers the unit that has its name from now on. -/
def publishOne (u : LoadedUnit) : LoaderM LoadedUnit := do
  match (← get).get? u.name with
  | some v => return v
  | none =>
    modify fun ns => ns.insert u.name u
    return u

/-- Publishes units one after the other. -/
def publishAll : List LoadedUnit → LoaderM (List LoadedUnit)
  | [] => return []
  | u :: us => do
    let v ← publishOne u
    let vs ← publishAll us
    return v :: vs

/-- Publishes units unless one of them conflicts, and answers the one of a name. -/
def publish (unit : String) (units : List LoadedUnit) : LoaderM LoadedUnit := do
  let ns ← get
  match units.find? ns.conflicts with
  | some u => throw (failure unit (ArtifactError.conflict u.name).message)
  | none =>
    let published ← publishAll units
    match published.find? (·.name == unit) with
    | some u => return u
    | none => throw (failure unit "no artifact for this unit")

/-- Loads artifacts and answers the unit of a name. -/
def load (unit : String) (files : Artifacts) : LoaderM LoadedUnit := do
  if files.contains unit then
    let units ← ExceptT.mk (pure (decodeAll files.entries))
    publish unit units
  else throw (failure unit "no artifact for this unit")

/-- The unit of a name, which is loaded if it is not yet. -/
def resolve (fs : Files) (classpath : List String) (unit : String) : LoaderM LoadedUnit := do
  let ns ← get
  match ns.get? unit with
  | some u => return u
  | none => match fileOf fs classpath unit with
    | some text =>
      let u ← ExceptT.mk (pure (decode unit text))
      publish unit [u]
    | none => throw (failure unit "unit not found on the classpath")

end Loader

namespace Namespace

variable {ns ns' : Namespace} {unit : String} {u : LoadedUnit}

/-! ### What publishing adds -/

theorem get?_add_self (ns : Namespace) (u : LoadedUnit) :
    (ns.add u).get? u.name = some ((ns.get? u.name).getD u) := by
  unfold add NameMap.contains
  cases h : ns.get? u.name <;> simp [h]

theorem get?_add_of_ne {name : String} (ns : Namespace) (h : name ≠ u.name) :
    (ns.add u).get? name = ns.get? name := by
  unfold add
  split
  · rfl
  · exact NameMap.get?_insert_of_ne _ h u

/-- A name that is not taken goes to the first unit that has it. -/
theorem get?_foldl_add_of_none (units : List LoadedUnit) (h : ns.get? unit = none) :
    (units.foldl add ns).get? unit = units.find? (·.name == unit) := by
  induction units generalizing ns with
  | nil => simpa using h
  | cons u us ih =>
    rw [List.foldl_cons]
    by_cases hu : u.name = unit
    · subst hu
      have hself := get?_add_self ns u
      rw [h] at hself
      simp [get?_foldl_add_of_some us hself]
    · have hnone : (ns.add u).get? unit = none := by rw [get?_add_of_ne ns (Ne.symm hu), h]
      simp [ih hnone, hu]


/-! ### What loading answers -/

/-- A file that is read for a name holds an artifact of the name, which is accepted. -/
theorem decode_eq_ok_iff {text : String} :
    decode unit text = .ok u ↔
      ∃ a, Artifact.decode text = .ok a ∧ a.image.name = unit ∧ ⟨a.checksum, a.image⟩ = u := by
  unfold decode
  cases Artifact.decode text with
  | error e => simp
  | ok a =>
    by_cases hname : a.image.name = unit <;> simp [hname]

/-- The units in several files are those of the single files. -/
theorem decodeAll_eq_ok_iff {files : List (String × String)} {units : List LoadedUnit} :
    decodeAll files = .ok units ↔
      List.Forall₂ (fun e u => decode e.1 e.2 = .ok u) files units := by
  induction files generalizing units with
  | nil =>
    rw [List.forall₂_nil_left_iff]
    exact ⟨fun h => (Except.ok.inj h).symm, fun h => h ▸ rfl⟩
  | cons e files ih =>
    obtain ⟨name, text⟩ := e
    rw [List.forall₂_cons_left_iff]
    constructor
    · intro h
      rw [decodeAll] at h
      cases hu : decode name text with
      | error d => rw [hu] at h; cases h
      | ok u =>
        cases hus : decodeAll files with
        | error d => rw [hu, hus] at h; cases h
        | ok us =>
          rw [hu, hus] at h
          exact ⟨u, us, rfl, ih.1 hus, (Except.ok.inj h).symm⟩
    · rintro ⟨u, us, hu, hus, rfl⟩
      rw [decodeAll, hu, ih.2 hus]
      rfl

/-- Several files hold units if each of them does. -/
theorem exists_decodeAll_iff {files : List (String × String)} :
    (∃ units, decodeAll files = .ok units) ↔ ∀ e ∈ files, ∃ u, decode e.1 e.2 = .ok u := by
  simp only [decodeAll_eq_ok_iff]
  induction files with
  | nil => simp
  | cons e files ih =>
    simp only [List.forall₂_cons_left_iff, List.forall_mem_cons, ← ih]
    constructor
    · rintro ⟨_, u, us, hu, hus, -⟩
      exact ⟨⟨u, hu⟩, us, hus⟩
    · rintro ⟨⟨u, hu⟩, us, hus⟩
      exact ⟨u :: us, u, us, hu, hus, rfl⟩

section Files

variable {files : List (String × String)} {units : List LoadedUnit}
  (h : List.Forall₂ (fun e u => decode e.1 e.2 = .ok u) files units)

include h

theorem exists_file_of_mem {u : LoadedUnit} (hu : u ∈ units) :
    ∃ e ∈ files, decode e.1 e.2 = .ok u := by
  induction h with
  | nil => cases hu
  | cons hd _ ih =>
    rcases List.mem_cons.1 hu with rfl | hu
    · exact ⟨_, List.mem_cons_self, hd⟩
    · exact (ih hu).imp fun e he => ⟨List.mem_cons_of_mem _ he.1, he.2⟩

theorem exists_unit_of_mem {e : String × String} (he : e ∈ files) :
    ∃ u ∈ units, decode e.1 e.2 = .ok u := by
  induction h with
  | nil => cases he
  | cons hd _ ih =>
    rcases List.mem_cons.1 he with rfl | he
    · exact ⟨_, List.mem_cons_self, hd⟩
    · exact (ih he).imp fun u hu => ⟨List.mem_cons_of_mem _ hu.1, hu.2⟩

/-- The first unit of a name is that of the first file under the name. -/
theorem find?_units (unit : String) :
    units.find? (·.name == unit) = (NameMap.find unit files).bind fun text =>
      (decode unit text).toOption := by
  induction h with
  | nil => rfl
  | @cons e u files us hd _ ih =>
    have hname := decode_name hd
    rw [NameMap.find]
    by_cases hunit : unit = e.1
    · subst hunit
      simp [hname, hd, Except.toOption]
    · rw [if_neg hunit, List.find?_cons_of_neg, ih]
      simpa [hname] using Ne.symm hunit

end Files

/-- Units are published unless one of them is a conflict. -/
theorem publish_eq_ok_iff {units : List LoadedUnit} :
    ns.publish units = .ok ns' ↔
      (∀ u ∈ units, ns.conflicts u = false) ∧ ns' = units.foldl add ns := by
  have hnone : units.find? ns.conflicts = none ↔ ∀ u ∈ units, ns.conflicts u = false := by simp
  rw [← hnone, publish]
  cases units.find? ns.conflicts with
  | some u => simp
  | none => simp [eq_comm]

/-- What is published for a name is there if one of the units has the name. -/
theorem isSome_foldl_add (ns : Namespace) {units : List LoadedUnit} (hu : u ∈ units) :
    ((units.foldl add ns).get? u.name).isSome := by
  cases hold : ns.get? u.name with
  | some v => rw [get?_foldl_add_of_some units hold]; rfl
  | none =>
    rw [get?_foldl_add_of_none units hold, List.find?_isSome]
    exact ⟨u, hu, by simp⟩

/-- Loading succeeds if there is a file under the name, and every file holds a unit of its name
    that is no conflict. -/
theorem exists_load_iff {files : Artifacts} :
    (∃ u ns', ns.load unit files = .ok (u, ns')) ↔ files.contains unit = true ∧
      ∀ e ∈ files.entries, ∃ u, decode e.1 e.2 = .ok u ∧ ns.conflicts u = false := by
  constructor
  · rintro ⟨u, ns', h⟩
    have hunit : files.contains unit = true := by
      unfold load at h
      split at h
      · assumption
      · cases h
    obtain ⟨units, hunits, hp, -⟩ := load_ok h
    refine ⟨hunit, fun e he => ?_⟩
    obtain ⟨hfree, -⟩ := publish_eq_ok_iff.1 hp
    obtain ⟨v, hv, hd⟩ := exists_unit_of_mem (decodeAll_eq_ok_iff.1 hunits) he
    exact ⟨v, hd, hfree v hv⟩
  · rintro ⟨hunit, hall⟩
    obtain ⟨units, hunits⟩ := exists_decodeAll_iff.2 fun e he => (hall e he).imp fun _ h => h.1
    have hfiles := decodeAll_eq_ok_iff.1 hunits
    have hfree (v) (hv : v ∈ units) : ns.conflicts v = false := by
      obtain ⟨e, he, hd⟩ := exists_file_of_mem hfiles hv
      obtain ⟨w, hw, hfree⟩ := hall e he
      rw [hd] at hw
      exact Except.ok.inj hw ▸ hfree
    -- the file under the name holds a unit of the name
    obtain ⟨text, htext⟩ := Option.isSome_iff_exists.1 hunit
    obtain ⟨v, hv, hd⟩ := exists_unit_of_mem hfiles (NameMap.mem_entries_of_get? htext)
    have hsome := isSome_foldl_add ns hv
    rw [decode_name hd] at hsome
    obtain ⟨u, hu⟩ := Option.isSome_iff_exists.1 hsome
    refine ⟨u, units.foldl add ns, ?_⟩
    rw [load, if_pos hunit, hunits]
    show ns.publishFor unit units = _
    rw [publishFor, publish_eq_ok_iff.2 ⟨hfree, rfl⟩]
    simp only [hu]

/-- A unit that is loaded has the checksum that its file records. -/
theorem checksum_load {files : Artifacts} (h : ns.load unit files = .ok (u, ns')) :
    ∃ text v, files.get? unit = some text ∧ decode unit text = .ok v ∧ u.checksum = v.checksum := by
  obtain ⟨hunit, -⟩ := exists_load_iff.1 ⟨u, ns', h⟩
  obtain ⟨text, htext⟩ := Option.isSome_iff_exists.1 hunit
  obtain ⟨units, hunits, hp, hu⟩ := load_ok h
  obtain ⟨hfree, rfl⟩ := publish_eq_ok_iff.1 hp
  have hfiles := decodeAll_eq_ok_iff.1 hunits
  obtain ⟨v, hv, hd⟩ := exists_unit_of_mem hfiles (NameMap.mem_entries_of_get? htext)
  refine ⟨text, v, htext, hd, ?_⟩
  cases hold : ns.get? unit with
  | some w =>
    -- the unit was there before, and the file is no conflict
    have hw : some w = some u := (get?_foldl_add_of_some units hold).symm.trans hu
    have hfree := hfree v hv
    rw [conflicts, decode_name hd, hold] at hfree
    rw [← Option.some.inj hw]
    simpa using hfree
  | none =>
    have hfirst := find?_units hfiles unit
    rw [← get?_foldl_add_of_none units hold, hu] at hfirst
    rw [show NameMap.find unit files.entries = some text from htext, Option.bind_some, hd] at hfirst
    rw [Option.some.inj hfirst]

/-! ### In place -/

/-- What a call leaves that answers a changed namespace, or fails. -/
def settle (ns : Namespace) :
    Except Diagnostic (LoadedUnit × Namespace) → Except Diagnostic LoadedUnit × Namespace
  | .ok (u, ns') => (.ok u, ns')
  | .error d => (.error d, ns)

end Namespace

namespace Loader

open Namespace

variable {ns : Namespace} {unit : String}

theorem publishOne_run (u : LoadedUnit) (ns : Namespace) :
    (publishOne u).run ns = (.ok ((ns.get? u.name).getD u), ns.add u) := by
  rw [publishOne, run_bind_apply, run_get_apply]
  dsimp only
  unfold add NameMap.contains
  cases ns.get? u.name <;> rfl

/-- Each published unit is answered as the unit that has its name afterwards. -/
theorem publishAll_run (hkeyed : ns.Keyed) (units : List LoadedUnit) :
    ∃ published, (publishAll units).run ns = (.ok published, units.foldl add ns) ∧
      ∀ u ∈ units, published.find? (·.name == u.name) = (units.foldl add ns).get? u.name := by
  induction units generalizing ns with
  | nil => exact ⟨[], rfl, by simp⟩
  | cons u us ih =>
    obtain ⟨vs, hrun, hfind⟩ := ih (hkeyed.add u)
    have hself := get?_add_self ns u
    have hname : ((ns.get? u.name).getD u).name = u.name := hkeyed.add u _ _ hself
    refine ⟨(ns.get? u.name).getD u :: vs, ?_, fun w hw => ?_⟩
    · rw [publishAll, run_bind_apply, publishOne_run]
      simp only
      rw [run_bind_apply, hrun]
      rfl
    · rw [List.foldl_cons]
      by_cases hsame : u.name = w.name
      · rw [← hsame, get?_foldl_add_of_some us hself]
        simp [hname]
      · have hw : w ∈ us := (List.mem_cons.1 hw).resolve_left fun h => hsame (h ▸ rfl)
        rw [← hfind w hw, List.find?_cons_of_neg]
        simpa [hname] using hsame

/-- Publishing in place fails before it adds a unit, or not at all, if one of the units has the
    name. -/
theorem publish_run (hkeyed : ns.Keyed) {units : List LoadedUnit}
    (hunit : ∃ u ∈ units, u.name = unit) :
    (publish unit units).run ns = settle ns (ns.publishFor unit units) := by
  rw [publish, run_bind_apply, run_get_apply, publishFor, Namespace.publish]
  dsimp only
  cases units.find? ns.conflicts with
  | some u => rfl
  | none =>
    obtain ⟨published, hrun, hfind⟩ := publishAll_run hkeyed units
    obtain ⟨u, hu, rfl⟩ := hunit
    obtain ⟨v, hv⟩ := Option.isSome_iff_exists.1 (isSome_foldl_add ns hu)
    dsimp only
    rw [run_bind_apply, hrun]
    dsimp only
    rw [hfind u hu, hv]
    rfl

/-- **Refinement.** Loading in place leaves what loading answers. -/
theorem load_run (hkeyed : ns.Keyed) (unit : String) (files : Artifacts) :
    (load unit files).run ns = settle ns (ns.load unit files) := by
  unfold load Namespace.load
  by_cases hunit : files.contains unit = true
  · rw [if_pos hunit, if_pos hunit, run_bind_apply]
    cases hunits : decodeAll files.entries with
    | error d => rfl
    | ok units =>
      obtain ⟨text, htext⟩ := Option.isSome_iff_exists.1 hunit
      obtain ⟨u, hu, hd⟩ := exists_unit_of_mem (decodeAll_eq_ok_iff.1 hunits)
        (NameMap.mem_entries_of_get? htext)
      exact publish_run hkeyed ⟨u, hu, decode_name hd⟩
  · rw [if_neg hunit, if_neg hunit]
    rfl

/-- **Refinement.** Looking a unit up in place leaves what looking it up answers. -/
theorem resolve_run (hkeyed : ns.Keyed) (fs : Files) (classpath : List String) (unit : String) :
    (resolve fs classpath unit).run ns = settle ns (ns.resolve fs classpath unit) := by
  rw [resolve, run_bind_apply, run_get_apply, Namespace.resolve]
  dsimp only
  cases ns.get? unit with
  | some u => rfl
  | none =>
    dsimp only
    cases fileOf fs classpath unit with
    | none => rfl
    | some text =>
      dsimp only
      rw [run_bind_apply]
      cases hd : decode unit text with
      | error d => rfl
      | ok u => exact publish_run hkeyed ⟨u, List.mem_singleton_self u, decode_name hd⟩

end Loader

/-! ### Calls of loaders -/

/-- A call of some loader.  Every loader has directories of its own to look for units in, and
    their files may have been changed by anyone since the last call. -/
inductive Request where
  | load (unit : String) (files : NameMap (List UInt8))
  | resolve (unit : String) (classpath : List String) (disk : List (Path × List UInt8))

namespace Request

/-- The files of units as they are read. -/
def artifacts (files : NameMap (List UInt8)) : Artifacts :=
  ⟨files.entries.map fun e => (e.1, Json.ofBytes e.2)⟩

theorem get?_artifacts (files : NameMap (List UInt8)) (unit : String) :
    (artifacts files).get? unit = (files.get? unit).map Json.ofBytes := by
  obtain ⟨es⟩ := files
  show NameMap.find unit (es.map _) = (NameMap.find unit es).map _
  induction es with
  | nil => rfl
  | cons e es ih =>
    simp only [List.map_cons, NameMap.find]
    split
    · rfl
    · exact ih

/-- The files of a disk as they are read. -/
def files (disk : List (Path × List UInt8)) : Files :=
  ⟨disk.map fun e => (e.1, .text (Json.ofBytes e.2))⟩

/-- What a call does in place. -/
def run : Request → LoaderM LoadedUnit
  | .load unit files => Loader.load unit (artifacts files)
  | .resolve unit classpath disk => Loader.resolve (files disk) classpath unit

/-- What a call answers as a function on namespaces. -/
def answer (ns : Namespace) : Request → Except Diagnostic (LoadedUnit × Namespace)
  | .load unit files => ns.load unit (artifacts files)
  | .resolve unit classpath disk => ns.resolve (files disk) classpath unit

theorem run_eq {ns : Namespace} (hkeyed : ns.Keyed) (r : Request) :
    r.run.run ns = ns.settle (r.answer ns) := by
  cases r with
  | load unit files => exact Loader.load_run hkeyed unit _
  | resolve unit classpath disk => exact Loader.resolve_run hkeyed _ classpath unit

end Request

namespace Namespace

/-- The namespace that was empty, after calls of any loaders. -/
def after (rs : List Request) : Namespace := rs.foldl (fun ns r => (r.run.run ns).2) {}

theorem after_append (rs rs' : List Request) :
    after (rs ++ rs') = rs'.foldl (fun ns r => (r.run.run ns).2) (after rs) :=
  List.foldl_append

/-- What a call answers has all units that were there, each under its own name. -/
theorem answer_ok {ns ns' : Namespace} {u : LoadedUnit} (hkeyed : ns.Keyed) {r : Request}
    (h : r.answer ns = .ok (u, ns')) : ns.Grows ns' ∧ ns'.Keyed := by
  cases r with
  | load unit files =>
    obtain ⟨units, -, hp, -⟩ := load_ok h
    exact ⟨grows_publish hp, hkeyed.publish hp⟩
  | resolve unit classpath disk =>
    rcases resolve_ok h with ⟨rfl, -⟩ | ⟨text, v, -, -, -, hp, -⟩
    · exact ⟨.refl _, hkeyed⟩
    · exact ⟨grows_publish hp, hkeyed.publish hp⟩

/-- **Step.** A call keeps all units, whether it fails or not. -/
theorem grows_run {ns : Namespace} (hkeyed : ns.Keyed) (r : Request) :
    ns.Grows (r.run.run ns).2 ∧ Keyed (r.run.run ns).2 := by
  rw [r.run_eq hkeyed]
  cases h : r.answer ns with
  | error d => exact ⟨.refl ns, hkeyed⟩
  | ok p => exact answer_ok hkeyed h

/-- **Run.** So do any number of calls. -/
theorem grows_foldl {ns : Namespace} (hkeyed : ns.Keyed) (rs : List Request) :
    ns.Grows (rs.foldl (fun ns r => (r.run.run ns).2) ns) ∧
      Keyed (rs.foldl (fun ns r => (r.run.run ns).2) ns) := by
  induction rs generalizing ns with
  | nil => exact ⟨.refl ns, hkeyed⟩
  | cons r rs ih =>
    obtain ⟨hgrows, hkeyed'⟩ := grows_run hkeyed r
    obtain ⟨hmore, hend⟩ := ih hkeyed'
    exact ⟨hgrows.trans hmore, hend⟩

section Load

variable {ns : Namespace} {unit : String} {files : NameMap (List UInt8)}

/-- A file holds a unit of a name that is no conflict if what it holds is accepted, belongs to the
    name, and records the checksum of the unit of that name, if there is one. -/
theorem exists_free_iff {name : String} {bs : List UInt8} :
    (∃ u, decode name (Json.ofBytes bs) = .ok u ∧ ns.conflicts u = false) ↔
      ∃ a, Artifact.decodeBytes bs = .ok a ∧ a.image.name = name ∧
        ∀ v, ns.get? name = some v → v.checksum = a.checksum := by
  simp only [decode_eq_ok_iff, Artifact.decodeBytes]
  constructor
  · rintro ⟨_, ⟨a, ha, rfl, rfl⟩, hfree⟩
    refine ⟨a, ha, rfl, fun v hv => ?_⟩
    simpa [conflicts, LoadedUnit.name, hv] using hfree
  · rintro ⟨a, ha, rfl, hsame⟩
    refine ⟨_, ⟨a, ha, rfl, rfl⟩, ?_⟩
    cases hv : ns.get? a.image.name with
    | none => simp [conflicts, LoadedUnit.name, hv]
    | some v => simp [conflicts, LoadedUnit.name, hv, hsame v hv]

/-- When a call loads artifacts. -/
theorem exists_run_load_iff (hkeyed : ns.Keyed) :
    (∃ u, ((Request.load unit files).run.run ns).1 = .ok u) ↔ files.contains unit = true ∧
      ∀ name bs, (name, bs) ∈ files.entries → ∃ a, Artifact.decodeBytes bs = .ok a ∧
        a.image.name = name ∧ ∀ v, ns.get? name = some v → v.checksum = a.checksum := by
  have hcontains : (Request.artifacts files).contains unit = files.contains unit := by
    simp [NameMap.contains, Request.get?_artifacts]
  calc (∃ u, ((Request.load unit files).run.run ns).1 = .ok u)
      ↔ ∃ u ns', ns.load unit (Request.artifacts files) = .ok (u, ns') := by
        rw [Request.run_eq hkeyed]
        show (∃ u, (ns.settle (ns.load unit (Request.artifacts files))).1 = .ok u) ↔ _
        cases ns.load unit (Request.artifacts files) with
        | error d => simp [settle]
        | ok p => exact ⟨fun _ => ⟨p.1, p.2, rfl⟩, fun _ => ⟨p.1, rfl⟩⟩
    _ ↔ _ := by
        rw [exists_load_iff, hcontains]
        simp only [Request.artifacts, List.forall_mem_map, exists_free_iff, Prod.forall]

/-- What a call has loaded. -/
theorem run_load_ok {u : LoadedUnit} (hkeyed : ns.Keyed)
    (h : ((Request.load unit files).run.run ns).1 = .ok u) :
    u.name = unit ∧ ((Request.load unit files).run.run ns).2.get? unit = some u ∧
      ∃ bs a, files.get? unit = some bs ∧ Artifact.decodeBytes bs = .ok a ∧
        a.checksum = u.checksum := by
  rw [Request.run_eq hkeyed] at h ⊢
  have hanswer : (Request.load unit files).answer ns = ns.load unit (Request.artifacts files) := rfl
  rw [hanswer] at h ⊢
  cases hload : ns.load unit (Request.artifacts files) with
  | error d => rw [hload] at h; cases h
  | ok p =>
    obtain ⟨v, ns'⟩ := p
    rw [hload] at h
    obtain rfl : v = u := Except.ok.inj h
    obtain ⟨_, -, hp, hv⟩ := load_ok hload
    obtain ⟨text, w, htext, hw, hsum⟩ := checksum_load hload
    rw [Request.get?_artifacts] at htext
    obtain ⟨bs, hbs, rfl⟩ := Option.map_eq_some_iff.1 htext
    obtain ⟨a, ha, -, rfl⟩ := decode_eq_ok_iff.1 hw
    exact ⟨hkeyed.publish hp _ _ hv, hv, bs, a, hbs, ha, hsum.symm⟩

end Load

/-- **Theorem.** Any loaders call a namespace that was empty, with any files.  Whatever they have
    published stays as it is.  A call that fails leaves the namespace as it was.  Artifacts are
    loaded exactly if there is one under the name, and each of them is accepted, belongs to its
    name, and records the checksum of the unit of that name, if there is one; and then what is
    loaded is the unit of the name, with the checksum that its artifact records. -/
theorem loading_consistent (earlier later : List Request) (r : Request) :
    (∀ name u, (after earlier).get? name = some u →
      (after (earlier ++ later)).get? name = some u) ∧
    (∀ d, (r.run.run (after earlier)).1 = .error d → after (earlier ++ [r]) = after earlier) ∧
    ∀ unit files, r = .load unit files →
      ((∃ u, (r.run.run (after earlier)).1 = .ok u) ↔ files.contains unit = true ∧
        ∀ name bs, (name, bs) ∈ files.entries → ∃ a, Artifact.decodeBytes bs = .ok a ∧
          a.image.name = name ∧ ∀ v, (after earlier).get? name = some v → v.checksum = a.checksum) ∧
      ∀ u, (r.run.run (after earlier)).1 = .ok u →
        u.name = unit ∧ (after (earlier ++ [r])).get? unit = some u ∧
        ∃ bs a, files.get? unit = some bs ∧ Artifact.decodeBytes bs = .ok a ∧
          a.checksum = u.checksum := by
  have hkeyed : (after earlier).Keyed := (grows_foldl keyed_empty earlier).2
  have hnext : after (earlier ++ [r]) = (r.run.run (after earlier)).2 := by
    rw [after_append]
    rfl
  refine ⟨fun name u hu => ?_, fun d hd => ?_, ?_⟩
  · rw [after_append]
    exact (grows_foldl hkeyed later).1 name u hu
  · rw [hnext]
    rw [r.run_eq hkeyed] at hd ⊢
    cases hr : r.answer (after earlier) with
    | error d => rfl
    | ok p => rw [hr] at hd; cases hd
  · rintro unit files rfl
    rw [hnext]
    exact ⟨exists_run_load_iff hkeyed, fun u hu => run_load_ok hkeyed hu⟩

end Namespace

end Quasiquote
