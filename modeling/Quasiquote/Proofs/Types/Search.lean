import Mathlib.Data.Nat.Find
import Quasiquote.Proofs.Types.Chains

namespace Quasiquote

/-!
# Searches — what is found on a chain that may have no end

A chain ends at a type that is not there, or it goes round in a circle.  A search looks at one type
more than there are in the registry.  Even on a circle it has seen every type by then, so it stops
too early for none, and its answer is that of the nearest type that has one.

* `TypeRegistry.level` — the type at some height above a name, on a chain of any length;
* `TypeRegistry.getElem?_ancestors`, `TypeRegistry.mem_ancestors_iff` — what a search looks at, in
  order, and that nothing is left out;
* `TypeRegistry.Nearest`, `TypeRegistry.findSome?_ancestors_eq_some_iff`,
  `TypeRegistry.findSome?_ancestors_eq_none_iff` — what it finds;
* `TypeRegistry.searches_of_chain` — macros, methods and dynamic types in any registry.
-/

namespace TypeRegistry

variable {r : TypeRegistry} {β : Type} {f : OwnerType → Option β}

/-- The type at a height above a name: the type of the name, its superclass, and so on. -/
def level (r : TypeRegistry) (name : String) : Nat → Option OwnerType
  | 0 => r.get? name
  | n + 1 => (r.level name n).bind fun t => t.superclass.bind r.get?

theorem level_of_none {name : String} (h : r.get? name = none) (n : Nat) :
    r.level name n = none := by
  induction n with
  | zero => exact h
  | succ n ih => rw [level, ih, Option.bind_none]

/-- The types above a type are those of the chain of its superclass. -/
theorem level_succ_of_get? {name : String} {t : OwnerType} (h : r.get? name = some t) (n : Nat) :
    r.level name (n + 1) = t.superclass.bind fun parent => r.level parent n := by
  induction n with
  | zero =>
    rw [level, level, h, Option.bind_some]
    rfl
  | succ n ih =>
    rw [level, ih, Option.bind_assoc]
    rfl

theorem level_succ_of_parent {name parent : String} {t : OwnerType} (h : r.get? name = some t)
    (hparent : t.superclass = some parent) (n : Nat) :
    r.level name (n + 1) = r.level parent n := by
  rw [level_succ_of_get? h, hparent, Option.bind_some]

/-! ### What a search looks at -/

theorem getElem?_chain (r : TypeRegistry) (name : String) (n i : Nat) :
    (r.chain n (r.get? name))[i]? = if i ≤ n then r.level name i else none := by
  induction n generalizing name i with
  | zero =>
    cases hget : r.get? name with
    | none => simp [chain, level_of_none hget]
    | some t =>
      cases i with
      | zero => simp [chain, level, hget]
      | succ i => simp [chain]
  | succ n ih =>
    cases hget : r.get? name with
    | none => simp [chain, level_of_none hget]
    | some t =>
      rw [chain]
      cases i with
      | zero => simp [level, hget]
      | succ i =>
        rw [List.getElem?_cons_succ, level_succ_of_get? hget]
        cases hparent : t.superclass with
        | none => simp [chain]
        | some parent =>
          rw [Option.bind_some, ih]
          simp

/-- A search looks at the types in their order, one more than there are in the registry if the chain
    does not end before. -/
theorem getElem?_ancestors (r : TypeRegistry) (name : String) (i : Nat) :
    (r.ancestors name)[i]? = if i ≤ r.types.size then r.level name i else none :=
  getElem?_chain r name r.types.size i

/-! ### What a search finds -/

/-- Whether `b` is the answer of the nearest type of a chain that has one. -/
def Nearest (r : TypeRegistry) (f : OwnerType → Option β) (name : String) (b : β) : Prop :=
  ∃ n t, r.level name n = some t ∧ f t = some b ∧
    ∀ m < n, ∀ u, r.level name m = some u → f u = none

theorem Finds.nearest {n : Nat} {name : String} {b : β} (h : r.Finds f n name b) :
    r.Nearest f name b := by
  suffices ∃ t, r.level name n = some t ∧ f t = some b ∧
      ∀ m < n, ∀ u, r.level name m = some u → f u = none from ⟨n, this⟩
  induction h with
  | @here name t b h hb => exact ⟨t, h, hb, fun m hm => absurd hm (Nat.not_lt_zero m)⟩
  | @up n name parent t b h hnone hparent _ ih =>
    obtain ⟨u, hu, hb, hbelow⟩ := ih
    refine ⟨u, by rw [level_succ_of_parent h hparent, hu], hb, fun m hm v hv => ?_⟩
    cases m with
    | zero =>
      rw [level, h] at hv
      cases hv
      exact hnone
    | succ m =>
      rw [level_succ_of_parent h hparent] at hv
      exact hbelow m (Nat.lt_of_succ_lt_succ hm) v hv

theorem Nearest.finds {name : String} {b : β} (h : r.Nearest f name b) :
    ∃ n, r.Finds f n name b := by
  obtain ⟨n, t, ht, hb, hbelow⟩ := h
  induction n generalizing name with
  | zero => exact ⟨0, .here ht hb⟩
  | succ n ih =>
    cases hget : r.get? name with
    | none =>
      rw [level_of_none hget] at ht
      cases ht
    | some u =>
      cases hparent : u.superclass with
      | none =>
        rw [level_succ_of_get? hget, hparent] at ht
        cases ht
      | some parent =>
        rw [level_succ_of_parent hget hparent] at ht
        obtain ⟨m, hm⟩ := ih ht fun k hk v hv =>
          hbelow (k + 1) (Nat.succ_lt_succ hk) v (by rw [level_succ_of_parent hget hparent, hv])
        exact ⟨m + 1, .up hget (hbelow 0 (Nat.succ_pos n) u hget) hparent hm⟩

/-- Where a type of the chain has an answer, there is a nearest one. -/
theorem exists_nearest {n : Nat} {name : String} {t : OwnerType} {b : β}
    (h : r.level name n = some t) (hb : f t = some b) : ∃ c, r.Nearest f name c := by
  classical
  have hex : ∃ n t, r.level name n = some t ∧ (f t).isSome = true := ⟨n, t, h, by rw [hb]; rfl⟩
  obtain ⟨u, hu, hsome⟩ := Nat.find_spec hex
  obtain ⟨c, hc⟩ := Option.isSome_iff_exists.1 hsome
  refine ⟨c, Nat.find hex, u, hu, hc, fun m hm v hv => ?_⟩
  have hnone := Nat.find_min hex hm
  exact Option.not_isSome_iff_eq_none.1 fun hv' => hnone ⟨v, hv, hv'⟩

theorem findSome?_ancestors_eq_some_iff {name : String} {b : β} :
    (r.ancestors name).findSome? f = some b ↔ r.Nearest f name b := by
  rw [findSome?_ancestors_iff]
  exact ⟨fun ⟨_, h⟩ => h.nearest, Nearest.finds⟩

theorem findSome?_ancestors_eq_none_iff {name : String} :
    (r.ancestors name).findSome? f = none ↔ ∀ n t, r.level name n = some t → f t = none := by
  rw [Option.eq_none_iff_forall_ne_some]
  constructor
  · intro h n t ht
    by_contra hsome
    obtain ⟨b, hb⟩ := Option.ne_none_iff_exists'.1 hsome
    obtain ⟨c, hc⟩ := exists_nearest ht hb
    exact h c (findSome?_ancestors_eq_some_iff.2 hc)
  · intro h b hb
    obtain ⟨n, t, ht, hsome, -⟩ := findSome?_ancestors_eq_some_iff.1 hb
    rw [h n t ht] at hsome
    cases hsome

/-- A search looks at every type of the chain, however long the chain is. -/
theorem mem_ancestors_iff {name : String} {t : OwnerType} :
    t ∈ r.ancestors name ↔ ∃ n, r.level name n = some t := by
  classical
  constructor
  · intro h
    obtain ⟨i, hi⟩ := List.mem_iff_getElem?.1 h
    rw [getElem?_ancestors] at hi
    split at hi
    · exact ⟨i, hi⟩
    · cases hi
  · rintro ⟨n, hn⟩
    -- a search for the type itself finds it
    by_contra hmem
    have hnone : (r.ancestors name).findSome? (fun u => if u = t then some u else none) = none := by
      rw [List.findSome?_eq_none_iff]
      intro u hu
      have hne : u ≠ t := by
        rintro rfl
        exact hmem hu
      exact if_neg hne
    have hself := findSome?_ancestors_eq_none_iff.1 hnone n t hn
    rw [if_pos rfl] at hself
    cases hself

theorem isDynamic_iff {owner : String} : r.isDynamic owner = true ↔
    r.get? owner = none ∨
      ∃ n t, r.level owner n = some t ∧ t.builtin = true ∧ t.name ≠ rootType := by
  have hcontains : r.contains owner = (r.get? owner).isSome := rfl
  rw [isDynamic, Bool.or_eq_true, hcontains, Bool.not_eq_true', Option.isSome_eq_false_iff,
    Option.isNone_iff_eq_none, List.any_eq_true]
  refine or_congr_right ⟨?_, ?_⟩
  · rintro ⟨t, ht, hdynamic⟩
    obtain ⟨n, hn⟩ := mem_ancestors_iff.1 ht
    exact ⟨n, t, hn, by simpa using hdynamic⟩
  · rintro ⟨n, t, hn, hdynamic⟩
    exact ⟨t, mem_ancestors_iff.2 ⟨n, hn⟩, by simpa using hdynamic⟩

/-- In any registry, also one where superclasses are missing or are above themselves, a search looks
    at the types of the chain in their order, at no more than one more than there are, and at all of
    them.  A macro or a method that is found is that of the nearest type that has one, and nothing is
    found if and only if no type of the chain has one.  A type is dynamic if and only if it is not
    known, or a type of its chain is built in and not the root of all types. -/
theorem searches_of_chain (r : TypeRegistry) (owner : String) :
    (∀ i, (r.ancestors owner)[i]? = if i ≤ r.types.size then r.level owner i else none) ∧
    (∀ t, t ∈ r.ancestors owner ↔ ∃ n, r.level owner n = some t) ∧
    (∀ name argc block e, r.lookupMacro owner name argc block = some e ↔
      r.Nearest (fun t => t.macros.resolve name argc block) owner e) ∧
    (∀ name argc block, r.lookupMacro owner name argc block = none ↔
      ∀ n t, r.level owner n = some t → t.macros.resolve name argc block = none) ∧
    (∀ name m, r.lookupMethod owner name = some m ↔
      r.Nearest (fun t => t.methods.get? name) owner m) ∧
    (∀ name, r.lookupMethod owner name = none ↔
      ∀ n t, r.level owner n = some t → t.methods.get? name = none) ∧
    (r.isDynamic owner = true ↔ r.get? owner = none ∨
      ∃ n t, r.level owner n = some t ∧ t.builtin = true ∧ t.name ≠ rootType) :=
  ⟨getElem?_ancestors r owner, fun _ => mem_ancestors_iff,
    fun _ _ _ _ => findSome?_ancestors_eq_some_iff, fun _ _ _ => findSome?_ancestors_eq_none_iff,
    fun _ _ => findSome?_ancestors_eq_some_iff, fun _ => findSome?_ancestors_eq_none_iff,
    isDynamic_iff⟩

/-- Two types that are above each other. -/
example :
    let a : OwnerType := { name := "A", superclass := some "B" }
    let b : OwnerType := { name := "B", superclass := some "A" }
    let r : TypeRegistry := ⟨.ofList [("A", a), ("B", b)], "A"⟩
    (r.ancestors "A").map OwnerType.name = ["A", "B", "A"] ∧ r.isDynamic "A" = false := by decide

end TypeRegistry

end Quasiquote
