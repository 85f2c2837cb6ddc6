import Quasiquote.Settings.Basic
import Quasiquote.Proofs.Session.Names

namespace Quasiquote

/-!
# Paths of units — always below the directory

The file of a unit is named after the unit, with a slash for every point.  So no name in its path
is `.` or `..`, whatever the unit is called, and the path leads down from the directory.  Only a
slash or a point at the beginning of the unit's name would lead elsewhere, and no package begins
with one.

* `Path.Proper`, `Path.Below` — names that lead down, and paths that do;
* `Path.ofText_join` — what is joined to a directory goes on from there;
* `Settings.identifiers`, `Settings.join_identifiers` — a package as a sequence of names;
* `Path.below_unitPath` — the file of a unit is below the directory of its package.
-/

namespace Pieces

/-- A piece has characters of the text only, and no separators. -/
theorem mem_split {sep : Char} {cs p : List Char} (h : p ∈ split sep cs) :
    ∀ c ∈ p, c ∈ cs ∧ c ≠ sep := by
  induction cs generalizing p with
  | nil =>
    rw [List.mem_singleton.1 h]
    exact nofun
  | cons c cs ih =>
    have hlater {q : List Char} (hq : q ∈ split sep cs) :
        ∀ d ∈ q, d ∈ c :: cs ∧ d ≠ sep :=
      fun d hd => ⟨List.mem_cons_of_mem _ (ih hq d hd).1, (ih hq d hd).2⟩
    by_cases hc : c = sep
    · simp only [split, hc, if_true, List.mem_cons] at h
      rcases h with rfl | h
      · exact nofun
      · exact hlater h
    · cases hs : split sep cs with
      | nil => exact absurd hs (split_ne_nil sep cs)
      | cons q qs =>
        simp only [split, hc, if_false, hs, List.mem_cons] at h
        rcases h with rfl | h
        · intro d hd
          rcases List.mem_cons.1 hd with rfl | hd
          · exact ⟨List.mem_cons_self, hc⟩
          · exact hlater (hs ▸ List.mem_cons_self) d hd
        · exact hlater (hs ▸ List.mem_cons_of_mem _ h)

/-- Every character that is no separator is in a piece. -/
theorem exists_mem_split {sep c : Char} {cs : List Char} (h : c ∈ cs) (hc : c ≠ sep) :
    ∃ p ∈ split sep cs, c ∈ p := by
  obtain ⟨front, back, rfl⟩ := List.append_of_mem h
  induction front with
  | nil =>
    cases hs : split sep back with
    | nil => exact absurd hs (split_ne_nil sep back)
    | cons q qs => exact ⟨c :: q, by simp [split, hc, hs], List.mem_cons_self⟩
  | cons d front ih =>
    obtain ⟨p, hp, hmem⟩ := ih (by simp)
    by_cases hd : d = sep
    · exact ⟨p, by simp [split, hd, hp], hmem⟩
    · cases hs : split sep (front ++ c :: back) with
      | nil => exact absurd hs (split_ne_nil sep _)
      | cons q qs =>
        rw [hs] at hp
        rcases List.mem_cons.1 hp with rfl | hp
        · exact ⟨d :: p, by simp [split, hd, hs], List.mem_cons_of_mem _ hmem⟩
        · exact ⟨p, by simp [split, hd, hs, hp], hmem⟩

/-- With slashes for points a text has the same pieces. -/
theorem split_slashed {cs : List Char} (h : '/' ∉ cs) :
    split '/' (slashed cs) = split '.' cs := by
  induction cs with
  | nil => rfl
  | cons c cs ih =>
    obtain ⟨hc, hcs⟩ := not_or.1 fun hmem => h (List.mem_cons.2 hmem)
    have ih := ih hcs
    unfold slashed at ih ⊢
    by_cases hpoint : c = '.'
    · simp [split, hpoint, ih]
    · simp [split, hpoint, Ne.symm hc, ih]

end Pieces

/-- No points are left. -/
theorem not_mem_slashed (cs : List Char) : '.' ∉ slashed cs := by
  intro h
  obtain ⟨c, -, hc⟩ := List.mem_map.1 h
  split at hc
  · cases hc
  · contradiction

namespace Path

/-! ### Names that lead down -/

/-- Whether a name leads from a directory to something in it. -/
def Proper (name : String) : Prop := name ≠ "" ∧ name ≠ "." ∧ name ≠ ".." ∧ '/' ∉ name.toList

/-- Whether a path leads down from a directory. -/
def Below (directory p : Path) : Prop :=
  ∃ names, names ≠ [] ∧ (∀ name ∈ names, Proper name) ∧ p = directory ++ names

/-- Names go one directory down each, and empty ones stay. -/
theorem foldl_step {names : List String} (h : ∀ name ∈ names, name ≠ "." ∧ name ≠ "..")
    (p : Path) : names.foldl step p = p ++ names.filter (· ≠ "") := by
  induction names generalizing p with
  | nil => simp
  | cons name names ih =>
    obtain ⟨hpoint, hpoints⟩ := h name List.mem_cons_self
    have ih := ih fun name hname => h name (List.mem_cons_of_mem _ hname)
    rw [List.foldl_cons, ih]
    by_cases hempty : name = ""
    · simp [step, hempty]
    · simp [step, hempty, hpoint, hpoints]

/-- What follows a slash goes on from the directory in front of it. -/
theorem ofText_append {text root : String} {back : List Char}
    (htext : text.toList = root.toList ++ back) (hend : root.toList.getLast? = some '/') :
    ofText text = ((Pieces.split '/' back).map String.ofList).foldl step (ofText root) := by
  obtain ⟨front, hfront⟩ := List.getLast?_eq_some_iff.1 hend
  have hhead : text.toList.head? = root.toList.head? := by
    rw [htext, List.head?_append_of_ne_nil _ fun hnil => by simp [hnil] at hend]
  have hpieces : Pieces.split '/' text.toList =
      Pieces.split '/' front ++ Pieces.split '/' back := by
    rw [htext, hfront, List.append_assoc]
    exact Pieces.split_append_cons '/' front back
  have hroot : Pieces.split '/' root.toList = Pieces.split '/' front ++ [[]] := by
    rw [hfront]
    exact Pieces.split_append_cons '/' front []
  rw [ofText, ofText, hhead, hpieces, hroot]
  -- the empty name behind the last slash adds nothing
  simp only [List.map_append, List.foldl_append]
  rfl

/-- A slash at the end makes no difference. -/
theorem ofText_append_slash {root : String} (h : root ≠ "") : ofText (root ++ "/") = ofText root := by
  have hroot : root.toList ≠ [] := fun hnil => h (String.toList_eq_nil_iff.1 hnil)
  have hpieces : Pieces.split '/' (root ++ "/").toList = Pieces.split '/' root.toList ++ [[]] := by
    rw [String.toList_append]
    exact Pieces.split_append_cons '/' root.toList []
  have hhead : (root ++ "/").toList.head? = root.toList.head? := by
    rw [String.toList_append, List.head?_append_of_ne_nil _ hroot]
  rw [ofText, ofText, hpieces, hhead, List.map_append, List.foldl_append]
  rfl

/-- What is joined to a directory goes on from there, unless it begins with a slash. -/
theorem ofText_join (root : String) {name : String} (h : name.toList.head? ≠ some '/') :
    ofText (join root name) =
      ((Pieces.split '/' name.toList).map String.ofList).foldl step (ofText root) := by
  by_cases hempty : root = ""
  · subst hempty
    have hjoin : join "" name = name := if_pos (by simp)
    rw [hjoin, ofText, if_neg h]
    rfl
  · have hjoin : join root name =
        if root.toList.getLast? = some '/' then root ++ name else root ++ "/" ++ name :=
      if_neg (by simp [hempty, h])
    rw [hjoin]
    split
    · next hend => exact ofText_append String.toList_append hend
    · rw [← ofText_append_slash hempty]
      exact ofText_append String.toList_append (by simp)

end Path

/-! ### Packages -/

namespace Settings

/-- The names between the points of a package. -/
def identifiers (package : String) : List String :=
  (Pieces.split '.' package.toList).map String.ofList

/-- A package is its names with points between them. -/
theorem join_identifiers (package : String) :
    Pieces.join '.' ((identifiers package).map String.toList) = package.toList := by
  simp [identifiers, Function.comp_def, Pieces.join_split]

theorem identifiers_ne_nil (package : String) : identifiers package ≠ [] :=
  fun hnil => Pieces.split_ne_nil _ _ (List.map_eq_nil_iff.1 hnil)

theorem isPackage_iff {package : String} :
    isPackage package.toList = true ↔
      ∀ name ∈ identifiers package, isIdentifier name.toList = true := by
  simp [isPackage, identifiers]

/-- An identifier has no slash and no point. -/
theorem isIdentifier.not_mem {cs : List Char} (h : isIdentifier cs = true) :
    '/' ∉ cs ∧ '.' ∉ cs := by
  cases cs with
  | nil => cases h
  | cons c cs =>
    obtain ⟨hfirst, hrest⟩ := (Bool.and_eq_true _ _).mp h
    have hall : ∀ d ∈ c :: cs, (d.isAlphanum || d == '_') = true := by
      intro d hd
      rcases List.mem_cons.1 hd with rfl | hd
      · unfold startsIdentifier at hfirst
        simp only [Char.isAlphanum, Bool.or_eq_true] at hfirst ⊢
        exact hfirst.imp_left .inl
      · exact List.all_eq_true.1 hrest d hd
    constructor <;> exact fun hmem => absurd (hall _ hmem) (by decide)

theorem isIdentifier.proper {name : String} (h : isIdentifier name.toList = true) :
    Path.Proper name := by
  obtain ⟨hslash, hpoint⟩ := isIdentifier.not_mem h
  refine ⟨?_, ?_, ?_, hslash⟩ <;> rintro rfl
  · cases h
  · exact hpoint (by simp)
  · exact hpoint (by simp)

/-- A package has no slash, and it begins with no point. -/
theorem isPackage.relative {cs : List Char} (h : isPackage cs = true) :
    '/' ∉ cs ∧ ∃ c rest, c ≠ '/' ∧ slashed cs = c :: rest := by
  have hpiece {p : List Char} (hp : p ∈ Pieces.split '.' cs) : isIdentifier p = true :=
    List.all_eq_true.1 h p hp
  have hslash : '/' ∉ cs := by
    intro hmem
    have hsep : '/' ≠ '.' := by decide
    obtain ⟨p, hp, hmem⟩ := Pieces.exists_mem_split hmem hsep
    exact (isIdentifier.not_mem (hpiece hp)).1 hmem
  refine ⟨hslash, ?_⟩
  cases cs with
  | nil => cases h
  | cons c cs =>
    have hpoint : c ≠ '.' := by
      rintro rfl
      -- the first piece would be empty
      have := hpiece (p := []) (by simp [Pieces.split])
      cases this
    refine ⟨c, slashed cs, ?_, by simp [slashed, hpoint]⟩
    rintro rfl
    exact hslash List.mem_cons_self

end Settings

namespace Path

/-- The pieces of a unit's file: the last one has the ending, and no other one has a point. -/
theorem exists_pieces (cs : List Char) :
    ∃ names last, (Pieces.split '/' (slashed cs ++ ".kunit".toList)).map String.ofList =
      names ++ [last] ∧ (∀ n ∈ names, n ≠ "." ∧ n ≠ ".." ∧ '/' ∉ n.toList) ∧ Proper last := by
  obtain ⟨ps, p, hps, hlast⟩ := Pieces.split_append (slashed cs)
    (show '/' ∉ ".kunit".toList by decide)
  have hpiece {q : List Char} (hq : q ∈ ps ++ [p]) : '/' ∉ q ∧ '.' ∉ q := by
    have hchars := Pieces.mem_split (hps ▸ hq)
    exact ⟨fun hmem => (hchars _ hmem).2 rfl, fun hmem => not_mem_slashed _ (hchars _ hmem).1⟩
  refine ⟨ps.map String.ofList, String.ofList (p ++ ".kunit".toList),
    by rw [hlast, List.map_append]; rfl, ?_, ?_⟩
  · intro n hn
    obtain ⟨q, hq, rfl⟩ := List.mem_map.1 hn
    obtain ⟨hslash, hpoint⟩ := hpiece (List.mem_append_left [p] hq)
    have hne (points : List Char) (hpoints : '.' ∈ points) :
        String.ofList q ≠ String.ofList points := by
      rw [Ne, String.ofList_inj]
      rintro rfl
      exact hpoint hpoints
    exact ⟨hne ['.'] (by simp), hne ['.', '.'] (by simp), by simpa using hslash⟩
  · have hlong (short : String) (hshort : short.length < 6) :
        String.ofList (p ++ ".kunit".toList) ≠ short := by
      rintro rfl
      have : ".kunit".toList.length = 6 := by decide
      simp only [String.length_ofList, List.length_append] at hshort
      omega
    refine ⟨hlong _ (by decide), hlong _ (by decide), hlong _ (by decide), ?_⟩
    simpa using (hpiece (List.mem_append_right ps (List.mem_singleton_self p))).1

/-- **Containment.** Below any directory the file of a unit is in the directory of its package,
    whatever follows the package in the name of the unit. -/
theorem below_unitPath (root : String) {package : String}
    (h : Settings.isPackage package.toList = true) (name : String) :
    Below (ofText root ++ Settings.identifiers package)
      (ofText (unitPath root (package ++ "." ++ name))) := by
  obtain ⟨hslash, c, rest, hc, hfirst⟩ := Settings.isPackage.relative h
  obtain ⟨names, last, hpieces, hnames, hlast⟩ := exists_pieces name.toList
  have hpackage (n : String) (hn : n ∈ Settings.identifiers package) : Proper n :=
    Settings.isIdentifier.proper (Settings.isPackage_iff.1 h n hn)
  let file := String.ofList (slashed (package ++ "." ++ name).toList) ++ ".kunit"
  have hfile : file.toList =
      slashed package.toList ++ '/' :: (slashed name.toList ++ ".kunit".toList) := by
    simp [file, slashed]
  have hhead : file.toList.head? ≠ some '/' := by
    rw [hfile, hfirst]
    simpa using hc
  have hall : (Pieces.split '/' file.toList).map String.ofList =
      Settings.identifiers package ++ (names ++ [last]) := by
    rw [hfile, Pieces.split_append_cons, Pieces.split_slashed hslash, List.map_append, hpieces]
    rfl
  have hkept : (Settings.identifiers package).filter (· ≠ "") = Settings.identifiers package :=
    List.filter_eq_self.2 fun n hn => decide_eq_true (hpackage n hn).1
  -- only the names behind the package may be empty, and those are left out
  refine ⟨names.filter (· ≠ "") ++ [last], by simp, ?_, ?_⟩
  · intro n hn
    rcases List.mem_append.1 hn with hn | hn
    · obtain ⟨hn, hne⟩ := List.mem_filter.1 hn
      exact ⟨of_decide_eq_true hne, hnames n hn⟩
    · rwa [List.mem_singleton.1 hn]
  · have hpoints : ∀ n ∈ Settings.identifiers package ++ (names ++ [last]), n ≠ "." ∧ n ≠ ".." := by
      intro n hn
      simp only [List.mem_append, List.mem_singleton] at hn
      rcases hn with hn | hn | rfl
      · exact ⟨(hpackage n hn).2.1, (hpackage n hn).2.2.1⟩
      · exact ⟨(hnames n hn).1, (hnames n hn).2.1⟩
      · exact ⟨hlast.2.1, hlast.2.2.1⟩
    rw [unitPath, ← slashed, ofText_join root hhead, hall, foldl_step hpoints, List.filter_append,
      List.filter_append, hkept, List.append_assoc]
    simp [hlast.1]

/-- A package that begins with a point would lead to another tree. -/
example : ofText (unitPath "out" (".app" ++ "." ++ "Script$Extension1")) =
    ["/", "app", "Script$Extension1.kunit"] := by
  decide +kernel

end Path

end Quasiquote
