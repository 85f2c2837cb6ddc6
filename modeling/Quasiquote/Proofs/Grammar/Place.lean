import Quasiquote.Grammar.Language
import Mathlib.Tactic.Common

namespace Quasiquote

/-!
# Places — where a match can end

A match ends at a place that its start reaches: some characters are taken off the
front of the text, and the position grows by their bytes.

* `Place.Reaches` — the relation, with what it says about positions and lengths;
* `Place.textTo_eq` — the text between two places;
* `Place.skipText_append`, `Place.skipText_eq_none` — fixed texts.
-/

namespace Utf8

theorem take_length_append (u v : List Char) : take (length u) (u ++ v) = u := by
  induction u with
  | nil => cases v with
    | nil => rfl
    | cons d v =>
      have hd := d.utf8Size_pos
      have : ¬ d.utf8Size ≤ 0 := by omega
      simp [take, this]
  | cons c u ih => simp [take, ih]

theorem length_pos {u : List Char} (h : u ≠ []) : 0 < length u := by
  cases u with
  | nil => exact absurd rfl h
  | cons c u =>
    have := c.utf8Size_pos
    simp only [length_cons]
    omega

end Utf8

namespace Place

/-- The place `q` comes after some characters from `p` on. -/
def Reaches (p q : Place) : Prop :=
  ∃ u, p.rest = u ++ q.rest ∧ q.pos = p.pos + Utf8.length u

variable {p q r : Place}

@[refl] theorem Reaches.refl (p : Place) : p.Reaches p := ⟨[], rfl, rfl⟩

theorem Reaches.trans (hpq : p.Reaches q) (hqr : q.Reaches r) : p.Reaches r := by
  obtain ⟨u, hu, hq⟩ := hpq
  obtain ⟨v, hv, hr⟩ := hqr
  refine ⟨u ++ v, by rw [hu, hv, List.append_assoc], ?_⟩
  rw [hr, hq, Utf8.length_append, Nat.add_assoc]

theorem Reaches.pos_le (h : p.Reaches q) : p.pos ≤ q.pos := by
  obtain ⟨u, -, hq⟩ := h
  omega

theorem Reaches.length_le (h : p.Reaches q) : q.rest.length ≤ p.rest.length := by
  obtain ⟨u, hu, -⟩ := h
  rw [hu, List.length_append]
  omega

/-- A later place has less text before it. -/
theorem Reaches.length_lt (h : p.Reaches q) (hlt : p.pos < q.pos) :
    q.rest.length < p.rest.length := by
  obtain ⟨u, hu, hq⟩ := h
  cases u with
  | nil => simp only [Utf8.length_nil] at hq; omega
  | cons c u => rw [hu]; simp only [List.cons_append, List.length_cons, List.length_append]; omega

theorem reaches_advance {c : Char} {rest : List Char} (h : p.rest = c :: rest) :
    p.Reaches (p.advance c rest) := ⟨[c], h, by simp [advance]⟩

theorem textTo_eq {u : List Char} (hrest : p.rest = u ++ q.rest)
    (hpos : q.pos = p.pos + Utf8.length u) : p.textTo q = String.ofList u := by
  have hlen : q.pos - p.pos = Utf8.length u := by omega
  rw [textTo, hlen, hrest, Utf8.take_length_append]

/-- The text between two places, put before the rest, is the whole text. -/
theorem Reaches.textTo_append (h : p.Reaches q) :
    p.rest = (p.textTo q).toList ++ q.rest := by
  obtain ⟨u, hu, hq⟩ := h
  rw [textTo_eq hu hq, hu, String.toList_ofList]

/-! ### Fixed texts -/

theorem skipText_reaches {u : List Char} (h : p.skipText u = some q) :
    p.rest = u ++ q.rest ∧ q.pos = p.pos + Utf8.length u := by
  induction u generalizing p with
  | nil => cases h; exact ⟨rfl, rfl⟩
  | cons c u ih =>
    obtain ⟨pos, rest⟩ := p
    cases rest with
    | nil => cases h
    | cons d rest =>
      simp only [skipText] at h
      split at h
      · next hcd =>
        obtain ⟨hrest, hpos⟩ := ih h
        refine ⟨by rw [hcd]; exact congrArg (d :: ·) hrest, ?_⟩
        rw [hpos, hcd]
        simp [advance, Nat.add_assoc]
      · cases h

@[simp] theorem skipText_append (pos : Nat) (u rest : List Char) :
    skipText u ⟨pos, u ++ rest⟩ = some ⟨pos + Utf8.length u, rest⟩ := by
  induction u generalizing pos with
  | nil => rfl
  | cons c u ih =>
    simp only [List.cons_append, skipText, advance, if_true, ih, Utf8.length_cons]
    rw [Nat.add_assoc]

theorem skipText_eq_none (pos : Nat) {u rest : List Char} (h : ¬ u <+: rest) :
    skipText u ⟨pos, rest⟩ = none := by
  cases hskip : skipText u ⟨pos, rest⟩ with
  | none => rfl
  | some q => exact absurd ⟨q.rest, (skipText_reaches hskip).1.symm⟩ h

end Place

end Quasiquote
