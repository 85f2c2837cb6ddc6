import Mathlib.Data.Finset.Card
import Quasiquote.Session.Basic
import Quasiquote.Proofs.NameMap
import Quasiquote.Proofs.Text.Digits

namespace Quasiquote

/-!
# Names of units — numbers that are never taken twice

A new unit is named by a text and the first number behind the last one that makes a
name nobody has.  Two units with different numbers have different names, and their
files have different paths below any directories.

* `Pieces.split_append`, `Path.getLast?_unitPath` — the last name of a path;
* `Numbered` — a name that ends in a number behind a letter;
* `Numbered.path_ne` — different numbers make different paths;
* `Work.nextNumber_free` — the next number makes a name that nobody has.
-/

/-! ### The last name of a path -/

namespace Pieces

/-- Text without separators stays at the end of the last piece. -/
theorem split_append {sep : Char} (front : List Char) {back : List Char} (h : sep ∉ back) :
    ∃ ps p, split sep front = ps ++ [p] ∧ split sep (front ++ back) = ps ++ [p ++ back] := by
  induction front with
  | nil =>
    refine ⟨[], [], rfl, ?_⟩
    induction back with
    | nil => rfl
    | cons c back ih =>
      have hc : c ≠ sep := fun hc => h (by simp [hc])
      have hrest : sep ∉ back := fun hmem => h (by simp [hmem])
      have ih := ih hrest
      simp only [List.nil_append] at ih ⊢
      simp [split, hc, ih]
  | cons c front ih =>
    obtain ⟨ps, p, hp, hlast⟩ := ih
    by_cases hc : c = sep
    · exact ⟨[] :: ps, p, by simp [split, hc, hp], by simp [split, hc, hlast]⟩
    · cases ps with
      | nil =>
        exact ⟨[], c :: p, by simp_all [split], by simp_all [split]⟩
      | cons q ps =>
        exact ⟨(c :: q) :: ps, p, by simp_all [split], by simp_all [split]⟩

/-- A separator ends a piece. -/
theorem split_append_cons (sep : Char) (front back : List Char) :
    split sep (front ++ sep :: back) = split sep front ++ split sep back := by
  induction front with
  | nil => simp [split]
  | cons c front ih =>
    by_cases hc : c = sep
    · simp [split, hc, ih]
    · cases hs : split sep front with
      | nil => exact absurd hs (split_ne_nil sep front)
      | cons p ps => simp [split, hc, ih, hs]

end Pieces

/-- Points as the separators of paths. -/
def slashed (cs : List Char) : List Char := cs.map fun c => if c = '.' then '/' else c

theorem slashed_of_not_mem {cs : List Char} (h : '.' ∉ cs) : slashed cs = cs := by
  have : ∀ c ∈ cs, (if c = '.' then '/' else c) = c := by
    rintro c hc
    rw [if_neg]
    rintro rfl
    exact h hc
  simpa [slashed] using List.map_congr_left this

/-- The end of a text that names a unit's file, before the number. -/
def fileStem (base : String) : List Char :=
  (Pieces.split '/' (slashed base.toList)).getLast (Pieces.split_ne_nil _ _)

/-- Letters stay at the end of a file's name. -/
theorem fileStem_append (base suffix : String) (hdot : '.' ∉ suffix.toList)
    (hsep : '/' ∉ suffix.toList) : fileStem (base ++ suffix) = fileStem base ++ suffix.toList := by
  obtain ⟨ps, p, hp, hlast⟩ := Pieces.split_append (slashed base.toList) hsep
  have hslashed : slashed (base ++ suffix).toList = slashed base.toList ++ suffix.toList := by
    rw [String.toList_append, slashed, List.map_append]
    exact congrArg _ (slashed_of_not_mem hdot)
  simp only [fileStem, hslashed, hp, hlast, List.getLast_append_singleton]

namespace Path

/-- The written form of a name inside a directory ends in the name. -/
theorem toList_join (root name : String) :
    ∃ front, (join root name).toList = front ++ name.toList := by
  unfold join
  split
  · exact ⟨[], rfl⟩
  · split
    · exact ⟨root.toList, by simp⟩
    · exact ⟨root.toList ++ ['/'], by simp⟩

/-- A unit's file is named by the end of the unit's name and the number in it. -/
theorem getLast?_unitPath (root package base : String) (n : Nat) :
    (ofText (unitPath root (package ++ "." ++ (base ++ toString n)))).getLast? =
      some (String.ofList (fileStem base ++ (Digits.ofNat n ++ ".kunit".toList))) := by
  let back := Digits.ofNat n ++ ".kunit".toList
  have hdigit {c : Char} (hc : c ∈ Digits.ofNat n) : c ≠ '.' ∧ c ≠ '/' := by
    have := Digits.isDigit_of_mem hc
    constructor <;> rintro rfl <;> contradiction
  have hsep : '/' ∉ back := by
    intro h
    rcases List.mem_append.1 h with h | h
    · exact (hdigit h).2 rfl
    · revert h; decide
  obtain ⟨front, hfront⟩ := toList_join root
    (String.ofList (slashed (package ++ "." ++ (base ++ toString n)).toList) ++ ".kunit")
  have htext : (unitPath root (package ++ "." ++ (base ++ toString n))).toList =
      (front ++ slashed package.toList) ++ '/' :: (slashed base.toList ++ back) := by
    have hdigits : slashed (Digits.ofNat n) = Digits.ofNat n :=
      slashed_of_not_mem fun h => (hdigit h).1 rfl
    rw [unitPath]
    refine hfront.trans ?_
    simp only [String.toList_append, String.toList_ofList, Digits.toList_toString, slashed,
      List.map_append] at hdigits ⊢
    rw [hdigits]
    simp [back]
  obtain ⟨ps, p, hp, hlast⟩ := Pieces.split_append (slashed base.toList) hsep
  have hstem : fileStem base = p := by
    simp only [fileStem, hp, List.getLast_append_singleton]
  have hname (name : String) (hshort : name.length ≤ 2) : String.ofList (p ++ back) ≠ name := by
    rintro rfl
    have hkunit : ".kunit".length = 6 := by decide
    simp [back] at hshort
    omega
  have hpieces : Pieces.split '/' ((front ++ slashed package.toList) ++
      '/' :: (slashed base.toList ++ back)) =
      (Pieces.split '/' (front ++ slashed package.toList) ++ ps) ++ [p ++ back] := by
    rw [Pieces.split_append_cons, hlast, List.append_assoc]
  have hstep (q : Path) :
      step q (String.ofList (p ++ back)) = q ++ [String.ofList (p ++ back)] := by
    simp only [step, hname "" (by decide), hname "." (by decide), hname ".." (by decide),
      decide_false, Bool.or_false, Bool.false_eq_true, if_false]
  rw [ofText, htext, hpieces, List.map_append, List.foldl_append, hstem]
  exact (congrArg List.getLast? (hstep _)).trans List.getLast?_concat

end Path

/-- A file that has a text is one of the entries. -/
theorem Files.exists_of_text? {fs : Files} {p : Path} {text : String}
    (h : fs.text? p = some text) : ∃ e ∈ fs.entries, e.1 = p := by
  obtain ⟨es⟩ := fs
  have hfind : find p es = some (.text text) := by
    unfold text? get? at h
    split at h
    · rename_i heq
      split at heq
      · cases heq
      · simp_all
    · cases h
  clear h
  induction es with
  | nil => cases hfind
  | cons e es ih =>
    by_cases hp : p = e.1
    · exact ⟨e, by simp, hp.symm⟩
    · obtain ⟨e', he', hpath⟩ := ih (by simpa [find, hp] using hfind)
      exact ⟨e', by simp [he'], hpath⟩

/-! ### Names that end in a number -/

/-- Whether a name is that of a unit with a number. -/
def Numbered (name : String) (n : Nat) : Prop :=
  ∃ package owner : String, name = package ++ "." ++ (owner ++ "$Extension" ++ toString n)

namespace Numbered

/-- A name ends in one number only. -/
theorem inj {name : String} {n m : Nat} (hn : Numbered name n) (hm : Numbered name m) :
    n = m := by
  obtain ⟨package, owner, rfl⟩ := hn
  obtain ⟨package', owner', h⟩ := hm
  have hlist := congrArg String.toList h
  have hchars : (package ++ "." ++ owner ++ "$Extensio").toList ++ 'n' :: Digits.ofNat n =
      (package' ++ "." ++ owner' ++ "$Extensio").toList ++ 'n' :: Digits.ofNat m := by
    simpa [String.toList_append, Digits.ofNat] using hlist
  exact Digits.ofNat_inj (Digits.append_inj (by decide) (by decide)
    (fun _ => Digits.isDigit_of_mem) (fun _ => Digits.isDigit_of_mem) hchars)

/-- Units with different numbers have different files, below any directories. -/
theorem path_ne {unit unit' : String} {n m : Nat} (h : Numbered unit n) (h' : Numbered unit' m)
    (hne : n ≠ m) (root root' : String) :
    Path.ofText (unitPath root unit) ≠ Path.ofText (unitPath root' unit') := by
  obtain ⟨package, owner, rfl⟩ := h
  obtain ⟨package', owner', rfl⟩ := h'
  intro heq
  have hlast := congrArg List.getLast? heq
  rw [Path.getLast?_unitPath, Path.getLast?_unitPath,
    fileStem_append _ _ (by decide) (by decide), fileStem_append _ _ (by decide) (by decide)]
    at hlast
  have hfile := congrArg String.toList (Option.some.inj hlast)
  simp only [String.toList_ofList, ← List.append_assoc, List.append_cancel_right_eq] at hfile
  have hchars : (fileStem owner ++ "$Extensio".toList) ++ 'n' :: Digits.ofNat n =
      (fileStem owner' ++ "$Extensio".toList) ++ 'n' :: Digits.ofNat m := by
    simpa using hfile
  exact hne (Digits.ofNat_inj (Digits.append_inj (by decide) (by decide)
    (fun _ => Digits.isDigit_of_mem) (fun _ => Digits.isDigit_of_mem) hchars))

end Numbered

/-! ### The next number -/

namespace Work

variable (k : Work) (base : String)

/-- Whether the name with a number is taken. -/
def takes (n : Nat) : Prop := k.unitTaken (k.unitName (base ++ toString n)) = true

/-- The search goes on over numbers that are taken, and stops at one that is not unless
    all tries are used up. -/
theorem freeNumber_spec (tries n : Nat) :
    n ≤ k.freeNumber base tries n ∧ k.freeNumber base tries n ≤ n + tries ∧
    (∀ m, n ≤ m → m < k.freeNumber base tries n → k.takes base m) ∧
    (k.freeNumber base tries n < n + tries → ¬ k.takes base (k.freeNumber base tries n)) := by
  induction tries generalizing n with
  | zero =>
    simp only [freeNumber]
    exact ⟨Nat.le_refl _, Nat.le_refl _, by omega, by omega⟩
  | succ tries ih =>
    by_cases h : k.takes base n
    · obtain ⟨hle, hbound, htaken, hfree⟩ := ih (n + 1)
      have hnext : k.freeNumber base (tries + 1) n = k.freeNumber base tries (n + 1) :=
        if_pos h
      rw [hnext]
      refine ⟨by omega, by omega, fun m hm hlt => ?_, fun hlt => hfree (by omega)⟩
      rcases Nat.eq_or_lt_of_le hm with rfl | hm
      · exact h
      · exact htaken m hm hlt
    · have hnext : k.freeNumber base (tries + 1) n = n := if_neg h
      rw [hnext]
      exact ⟨Nat.le_refl _, by omega, by omega, fun _ => h⟩

/-- What can take a name: a loaded unit, a file, or a record. -/
def takers : List (String ⊕ Path ⊕ String) :=
  k.units.keys.map .inl ++ (k.world.files.entries.map fun e => .inr (.inl e.1)) ++
    ((k.session.types.descriptors.flatMap Descriptor.macros).map fun r => .inr (.inr r.unit))

theorem length_takers : k.takers.length = k.takenBound := by
  simp only [takers, takenBound, NameMap.keys, NameMap.size, List.length_append, List.length_map]

/-- What takes a name by being there. -/
def Takes : String ⊕ Path ⊕ String → String → Prop
  | .inl name, unit | .inr (.inr name), unit => name = unit
  | .inr (.inl path), unit => ∃ root, path = Path.ofText (unitPath root unit)

theorem exists_taker {unit : String} (h : k.unitTaken unit = true) :
    ∃ e ∈ k.takers, Takes e unit := by
  simp only [unitTaken, Bool.or_eq_true] at h
  rcases h with h | h
  · simp only [knowsUnit, Namespace.knows, Bool.and_eq_true, Bool.or_eq_true] at h
    rcases h.2 with h | h
    · -- a loaded unit
      obtain ⟨u, hu⟩ := Option.isSome_iff_exists.1 h
      refine ⟨.inl unit, ?_, rfl⟩
      simp only [takers, List.mem_append, List.mem_map]
      exact .inl (.inl ⟨unit, NameMap.mem_keys_of_get? hu, rfl⟩)
    · -- a file
      obtain ⟨text, ht⟩ := Option.isSome_iff_exists.1 h
      obtain ⟨root, -, hroot⟩ := List.exists_of_findSome?_eq_some ht
      obtain ⟨e, he, hpath⟩ := Files.exists_of_text? hroot
      refine ⟨.inr (.inl e.1), ?_, root, hpath⟩
      simp only [takers, List.mem_append, List.mem_map]
      exact .inl (.inr ⟨e, he, rfl⟩)
  · -- a record
    obtain ⟨d, hd, h⟩ := List.any_eq_true.1 h
    obtain ⟨r, hr, h⟩ := List.any_eq_true.1 h
    refine ⟨.inr (.inr r.unit), ?_, beq_iff_eq.1 h⟩
    simp only [takers, List.mem_append, List.mem_map]
    exact .inr ⟨r, List.mem_flatMap.2 ⟨d, hd, hr⟩, rfl⟩

/-- Names with different numbers are taken by different things. -/
theorem Takes.inj {e : String ⊕ Path ⊕ String} {n m : Nat}
    (hn : Takes e (k.unitName (base ++ toString n)))
    (hm : Takes e (k.unitName (base ++ toString m))) : n = m := by
  have hname (h : k.unitName (base ++ toString n) = k.unitName (base ++ toString m)) : n = m := by
    have hchars := congrArg String.toList h
    simp only [unitName, String.toList_append, List.append_cancel_left_eq,
      Digits.toList_toString] at hchars
    exact Digits.ofNat_inj hchars
  rcases e with name | path | name
  · exact hname (hn.symm.trans hm)
  · obtain ⟨root, rfl⟩ := hn
    obtain ⟨root', h⟩ := hm
    have hlast := congrArg List.getLast? h
    rw [unitName, unitName, Path.getLast?_unitPath, Path.getLast?_unitPath] at hlast
    have hfile := congrArg String.toList (Option.some.inj hlast)
    simp only [String.toList_ofList, List.append_cancel_left_eq,
      List.append_cancel_right_eq] at hfile
    exact Digits.ofNat_inj hfile
  · exact hname (hn.symm.trans hm)

/-- Among more numbers than there are things that take names, one is free. -/
theorem exists_free (n : Nat) : ∃ m, n ≤ m ∧ m ≤ n + k.takenBound ∧ ¬ k.takes base m := by
  by_contra hall
  have htaken (i : Nat) (hi : i ∈ Finset.range (k.takenBound + 1)) :
      ∃ e ∈ k.takers, Takes e (k.unitName (base ++ toString (n + i))) := by
    have hi := Finset.mem_range.1 hi
    by_cases h : k.takes base (n + i)
    · exact k.exists_taker h
    · exact absurd ⟨n + i, by omega, by omega, h⟩ hall
  choose! taker hmem htakes using htaken
  -- by the pigeonhole principle two numbers have one taker
  have hcard : k.takers.toFinset.card < (Finset.range (k.takenBound + 1)).card := by
    have := List.toFinset_card_le k.takers
    rw [k.length_takers] at this
    rw [Finset.card_range]
    omega
  obtain ⟨i, hi, j, hj, hne, hsame⟩ := Finset.exists_ne_map_eq_of_card_lt_of_maps_to hcard
    (fun i hi => List.mem_toFinset.2 (hmem i hi))
  have hij := Takes.inj k base (htakes i hi) (hsame ▸ htakes j hj)
  exact hne (Nat.add_left_cancel hij)

/-- **Freshness.** The next number is the first one behind the last that makes a name
    which is not taken. -/
theorem nextNumber_free :
    k.session.counter < k.nextNumber base ∧ ¬ k.takes base (k.nextNumber base) ∧
    ∀ m, k.session.counter < m → m < k.nextNumber base → k.takes base m := by
  obtain ⟨hle, hbound, htaken, hfree⟩ :=
    k.freeNumber_spec base k.takenBound (k.session.counter + 1)
  obtain ⟨m, hm, hmbound, hmfree⟩ := k.exists_free base (k.session.counter + 1)
  have hsearch : k.nextNumber base ≤ m := by
    by_contra hlt
    exact hmfree (htaken m hm (Nat.lt_of_not_le hlt))
  refine ⟨hle, ?_, htaken⟩
  rcases Nat.eq_or_lt_of_le hsearch with rfl | hlt
  · exact hmfree
  · exact hfree (Nat.lt_of_lt_of_le hlt hmbound)

end Work

end Quasiquote
