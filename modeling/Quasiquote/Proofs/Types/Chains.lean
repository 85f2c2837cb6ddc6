import Mathlib.Data.List.Perm.Subperm
import Quasiquote.Proofs.Types.Hierarchy
import Quasiquote.Proofs.Types.Lockstep

namespace Quasiquote

/-!
# Chains — searches along superclasses

A search looks at a type and then at those above it, as many as there are types.  That is far
enough: the way to the first answer passes no type twice.  So what is found depends on the types
of the chain alone, and not on how many others a registry has.

* `TypeRegistry.Finds` — the first answer along a chain, and how far up it is;
* `TypeRegistry.findSome?_ancestors_iff` — a search finds it;
* `TypeRegistry.Matches` — types of one name that give the same answer in two registries;
* `TypeRegistry.findSome?_ancestors_of_matches` — where all types of a chain do, so do the searches.
-/

namespace TypeRegistry

variable {r r' : TypeRegistry} {β : Type} {f g : OwnerType → Option β}

/-- The first type above a name for which `f` has an answer is `n` types up. -/
inductive Finds (r : TypeRegistry) (f : OwnerType → Option β) : Nat → String → β → Prop
  | here {name : String} {t : OwnerType} {b : β} (h : r.get? name = some t) (hb : f t = some b) :
      Finds r f 0 name b
  | up {n : Nat} {name parent : String} {t : OwnerType} {b : β} (h : r.get? name = some t)
      (hnone : f t = none) (hparent : t.superclass = some parent) (hb : Finds r f n parent b) :
      Finds r f (n + 1) name b

/-- There is one first answer, at one height. -/
theorem Finds.unique {n m : Nat} {name : String} {b c : β} (hb : r.Finds f n name b)
    (hc : r.Finds f m name c) : n = m ∧ b = c := by
  induction hb generalizing m with
  | here h hb =>
    cases hc with
    | here h' hc =>
      rw [h] at h'
      cases h'
      rw [hb] at hc
      exact ⟨rfl, Option.some.inj hc⟩
    | up h' hnone _ _ =>
      rw [h] at h'
      cases h'
      rw [hb] at hnone
      cases hnone
  | up h hnone hparent _ ih =>
    cases hc with
    | here h' hc =>
      rw [h] at h'
      cases h'
      rw [hnone] at hc
      cases hc
    | up h' _ hparent' hc =>
      rw [h] at h'
      cases h'
      rw [hparent] at hparent'
      cases hparent'
      obtain ⟨rfl, rfl⟩ := ih hc
      exact ⟨rfl, rfl⟩

/-- The way to the first answer passes no type twice. -/
theorem Finds.exists_path {n : Nat} {name : String} {b : β} (h : r.Finds f n name b) :
    ∃ names : List String, names.length = n + 1 ∧ names.Nodup ∧
      ∀ x ∈ names, x ∈ r.types.keys ∧ ∃ m ≤ n, r.Finds f m x b := by
  induction h with
  | @here name t b h hb =>
    refine ⟨[name], rfl, List.nodup_singleton name, fun x hx => ?_⟩
    rw [List.mem_singleton.1 hx]
    exact ⟨NameMap.mem_keys_of_get? h, 0, Nat.le_refl 0, .here h hb⟩
  | @up n name parent t b h hnone hparent hb ih =>
    obtain ⟨names, hlength, hnodup, hnames⟩ := ih
    refine ⟨name :: names, by rw [List.length_cons, hlength], ?_, fun x hx => ?_⟩
    · -- the answer is further away from here than from all types above
      refine List.nodup_cons.2 ⟨fun hmem => ?_, hnodup⟩
      obtain ⟨-, m, hm, hfinds⟩ := hnames name hmem
      have := ((Finds.up h hnone hparent hb).unique hfinds).1
      omega
    · rcases List.mem_cons.1 hx with rfl | hx
      · exact ⟨NameMap.mem_keys_of_get? h, n + 1, Nat.le_refl _, .up h hnone hparent hb⟩
      · obtain ⟨hkey, m, hm, hfinds⟩ := hnames x hx
        exact ⟨hkey, m, by omega, hfinds⟩

/-- No answer is further up than there are types. -/
theorem Finds.lt_size {n : Nat} {name : String} {b : β} (h : r.Finds f n name b) :
    n < r.types.size := by
  obtain ⟨names, hlength, hnodup, hnames⟩ := h.exists_path
  have hkeys := (List.Nodup.subperm hnodup fun x hx => (hnames x hx).1).length_le
  rw [hlength, NameMap.keys, List.length_map] at hkeys
  exact hkeys

theorem Finds.of_chain {n : Nat} {name : String} {b : β}
    (h : (r.chain n (r.get? name)).findSome? f = some b) : ∃ m, r.Finds f m name b := by
  induction n generalizing name with
  | zero =>
    cases hget : r.get? name with
    | none => simp [hget, chain] at h
    | some t => exact ⟨0, .here hget (by simpa [hget, chain] using h)⟩
  | succ n ih =>
    cases hget : r.get? name with
    | none => simp [hget, chain] at h
    | some t =>
      rw [hget, chain, List.findSome?_cons] at h
      cases ht : f t with
      | some c =>
        rw [ht] at h
        cases h
        exact ⟨0, .here hget ht⟩
      | none =>
        rw [ht] at h
        cases hparent : t.superclass with
        | none => simp [hparent, chain] at h
        | some parent =>
          rw [hparent, Option.bind_some] at h
          obtain ⟨m, hm⟩ := ih h
          exact ⟨m + 1, .up hget ht hparent hm⟩

theorem Finds.chain {n m : Nat} {name : String} {b : β} (h : r.Finds f m name b) (hm : m ≤ n) :
    (r.chain n (r.get? name)).findSome? f = some b := by
  induction h generalizing n with
  | here h hb =>
    cases n with
    | zero => simp [h, TypeRegistry.chain, hb]
    | succ n => rw [h, TypeRegistry.chain, List.findSome?_cons, hb]
  | up h hnone hparent _ ih =>
    obtain ⟨n, rfl⟩ := Nat.exists_eq_succ_of_ne_zero (by omega : n ≠ 0)
    rw [h, TypeRegistry.chain, List.findSome?_cons, hnone, hparent, Option.bind_some]
    exact ih (by omega)

/-- A search finds the first answer. -/
theorem findSome?_ancestors_iff {name : String} {b : β} :
    (r.ancestors name).findSome? f = some b ↔ ∃ n, r.Finds f n name b :=
  ⟨Finds.of_chain, fun ⟨_, h⟩ => h.chain (Nat.le_of_lt h.lt_size)⟩

/-! ### Chains that answer alike -/

/-- A name and those of the types above it. -/
inductive Reaches (r : TypeRegistry) : String → String → Prop
  | refl (name : String) : Reaches r name name
  | up {name parent other : String} {t : OwnerType} (h : r.get? name = some t)
      (hparent : t.superclass = some parent) (hother : Reaches r parent other) :
      Reaches r name other

/-- Whether the types of a name have the same type above them and give the same answer in two
    registries, or there is none in either. -/
def Matches (r r' : TypeRegistry) (f g : OwnerType → Option β) (name : String) : Prop :=
  r.get? name = none ∧ r'.get? name = none ∨
    ∃ t t', r.get? name = some t ∧ r'.get? name = some t' ∧ t'.superclass = t.superclass ∧ g t' = f t

namespace Matches

variable {name : String}

theorem symm (h : Matches r r' f g name) : Matches r' r g f name := by
  rcases h with ⟨hnone, hnone'⟩ | ⟨t, t', ht, ht', hsuper, hsame⟩
  · exact .inl ⟨hnone', hnone⟩
  · exact .inr ⟨t', t, ht', ht, hsuper.symm, hsame.symm⟩

theorem of_get? (h : Matches r r' f g name) {t : OwnerType} (ht : r.get? name = some t) :
    ∃ t', r'.get? name = some t' ∧ t'.superclass = t.superclass ∧ g t' = f t := by
  rcases h with ⟨hnone, -⟩ | ⟨u, t', hu, ht', hsuper, hsame⟩
  · rw [ht] at hnone
    cases hnone
  · rw [ht] at hu
    cases hu
    exact ⟨t', ht', hsuper, hsame⟩

end Matches

/-- The chains of matching types have the same names. -/
theorem Reaches.of_matches {name other : String} (hother : r'.Reaches name other)
    (h : ∀ other, r.Reaches name other → Matches r r' f g other) : r.Reaches name other := by
  induction hother with
  | refl name => exact .refl name
  | @up name parent other t' ht' hparent _ ih =>
    obtain ⟨t, ht, hsuper, -⟩ := (h name (.refl name)).symm.of_get? ht'
    rw [← hsuper] at hparent
    exact .up ht hparent (ih fun other ho => h other (.up ht hparent ho))

theorem Finds.of_matches {n : Nat} {name : String} {b : β} (hb : r.Finds f n name b)
    (h : ∀ other, r.Reaches name other → Matches r r' f g other) : r'.Finds g n name b := by
  induction hb with
  | @here name t b ht hb =>
    obtain ⟨t', ht', -, hsame⟩ := (h name (.refl name)).of_get? ht
    exact .here ht' (hsame.trans hb)
  | @up n name parent t b ht hnone hparent _ ih =>
    obtain ⟨t', ht', hsuper, hsame⟩ := (h name (.refl name)).of_get? ht
    exact .up ht' (hsame.trans hnone) (hsuper.trans hparent)
      (ih fun other ho => h other (.up ht hparent ho))

/-- Searches find the same where all types of the chain match. -/
theorem findSome?_ancestors_of_matches {name : String}
    (h : ∀ other, r.Reaches name other → Matches r r' f g other) :
    (r'.ancestors name).findSome? g = (r.ancestors name).findSome? f := by
  refine Option.ext fun b => ?_
  rw [findSome?_ancestors_iff, findSome?_ancestors_iff]
  constructor
  · rintro ⟨n, hn⟩
    exact ⟨n, hn.of_matches fun other ho => (h other (ho.of_matches h)).symm⟩
  · rintro ⟨n, hn⟩
    exact ⟨n, hn.of_matches h⟩

end TypeRegistry

end Quasiquote
