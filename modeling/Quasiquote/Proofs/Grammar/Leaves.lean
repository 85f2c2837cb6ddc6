import Quasiquote.Grammar.Peg

namespace Quasiquote

/-!
# Phrases that are left

Whatever the text is, the phrases that a match leaves are arranged as its expression says: those
of a sequence stand behind each other, and a rule that is matched leaves what its mode says.

* `Grammar.Leaves` — the phrases that an expression can leave outside of a token;
* `Grammar.Formed` — the phrases that a rule can leave;
* `Grammar.leaves_of_run`, `Grammar.formed_of_read` — a match leaves nothing else;
* `Grammar.Leaves.formed` — all phrases that are left are formed, at every depth.
-/

namespace Grammar

variable {ρ : Type}

/-- The phrases that an expression can leave outside of a token. -/
inductive Leaves (g : Grammar ρ) : Peg ρ → List (Phrase ρ) → Prop where
  | text (cs : List Char) : Leaves g (.text cs) []
  | char (accepts : Char → Bool) : Leaves g (.char accepts) []
  | stop : Leaves g .stop []
  | ahead (e : Peg ρ) : Leaves g (.ahead e) []
  | refuse (e : Peg ρ) : Leaves g (.refuse e) []
  | seq {a b : Peg ρ} {xs ys : List (Phrase ρ)} :
    Leaves g a xs → Leaves g b ys → Leaves g (.seq a b) (xs ++ ys)
  | altLeft {a b : Peg ρ} {xs : List (Phrase ρ)} : Leaves g a xs → Leaves g (.alt a b) xs
  | altRight {a b : Peg ρ} {xs : List (Phrase ρ)} : Leaves g b xs → Leaves g (.alt a b) xs
  | optNone (e : Peg ρ) : Leaves g (.opt e) []
  | opt {e : Peg ρ} {xs : List (Phrase ρ)} : Leaves g e xs → Leaves g (.opt e) xs
  | manyNil (e : Peg ρ) : Leaves g (.many e) []
  | manyCons {e : Peg ρ} {xs ys : List (Phrase ρ)} :
    Leaves g e xs → Leaves g (.many e) ys → Leaves g (.many e) (xs ++ ys)
  | inline {r : ρ} {xs : List (Phrase ρ)} :
    g.mode r = .inline → Leaves g (g.rule r) xs → Leaves g (.rule r) xs
  | keyword {r : ρ} : g.mode r = .keyword → Leaves g (.rule r) []
  | token {r : ρ} (s : Span) (text : String) :
    g.mode r = .token → Leaves g (.rule r) [⟨r, s, text, []⟩]
  | phrase {r : ρ} {xs : List (Phrase ρ)} (s : Span) :
    g.mode r = .phrase ∨ g.mode r = .tight → Leaves g (g.rule r) xs →
      Leaves g (.rule r) [⟨r, s, "", xs⟩]

/-- The phrases that a rule can leave: tokens, and phrases whose parts are left by the expression
    of the rule. -/
def Formed (g : Grammar ρ) (p : Phrase ρ) : Prop :=
  match g.mode p.rule with
  | .token => p.parts = []
  | .phrase | .tight => g.Leaves (g.rule p.rule) p.parts
  | .inline | .keyword => False

variable {g : Grammar ρ} {r : ρ} {a b e : Peg ρ} {xs ys : List (Phrase ρ)}

/-! ### What a match leaves -/

theorem Leaves.many_append (hx : g.Leaves (.many e) xs) (hy : g.Leaves (.many e) ys) :
    g.Leaves (.many e) (xs ++ ys) := by
  generalize hmany : Peg.many e = e' at hx
  induction hx with
  | manyNil =>
    cases hmany
    exact hy
  | manyCons hfirst _ _ ih =>
    cases hmany
    rw [List.append_assoc]
    exact .manyCons hfirst (ih rfl)
  | _ => cases hmany

theorem leaves_leave {c : Context} (hc : c.inToken = false) {p q : Place}
    (h : (c.enter (g.mode r)).inToken = false → g.Leaves (g.rule r) xs) :
    g.Leaves (.rule r) (g.leave c r p q xs) := by
  unfold leave
  rw [if_neg (by simp [hc])]
  cases hmode : g.mode r <;> rw [hmode] at h
  case inline => exact .inline hmode (h hc)
  case keyword => exact .keyword hmode
  case token => exact .token _ _ hmode
  case phrase => exact .phrase _ (.inl hmode) (h hc)
  case tight => exact .phrase _ (.inr hmode) (h rfl)

/-- A match outside of a token leaves phrases as its expression says. -/
theorem leaves_of_run_and (fuel : Nat) :
    (∀ {c : Context} {e : Peg ρ} {p q : Place} {f : Nat} {xs : List (Phrase ρ)},
      c.inToken = false → (g.run fuel c e p f).taken = some (xs, q) → g.Leaves e xs) ∧
    (∀ {c : Context} {e : Peg ρ} {p q : Place} {f : Nat} {t xs : List (Phrase ρ)},
      c.inToken = false → g.Leaves (.many e) t.reverse →
        (g.runMore fuel c e p f t).taken = some (xs, q) → g.Leaves (.many e) xs) := by
  induction fuel with
  | zero =>
    constructor
    · intro c e p q f xs _ h
      simp [run] at h
    · intro c e p q f t xs _ ht h
      simp only [runMore, Option.some.injEq, Prod.mk.injEq] at h
      exact h.1 ▸ ht
  | succ fuel ih =>
    obtain ⟨ihRun, ihMore⟩ := ih
    constructor
    · intro c e p q f xs hc h
      cases e with
      | text cs =>
        simp only [run, Option.map_eq_some_iff, Prod.mk.injEq] at h
        obtain ⟨-, -, rfl, -⟩ := h
        exact .text cs
      | char accepts =>
        simp only [run] at h
        split at h
        · split at h <;> cases h
          exact .char accepts
        · cases h
      | stop =>
        simp only [run] at h
        split at h <;> cases h
        exact .stop
      | rule r =>
        simp only [run, Option.map_eq_some_iff, Prod.mk.injEq] at h
        obtain ⟨⟨parts, q'⟩, hrun, rfl, -⟩ := h
        exact leaves_leave hc fun henter => ihRun henter hrun
      | seq a b =>
        simp only [run] at h
        split at h
        · cases h
        · next ys q' hrun =>
          simp only [Option.map_eq_some_iff, Prod.mk.injEq] at h
          obtain ⟨⟨zs, q''⟩, hrun', rfl, -⟩ := h
          exact .seq (ihRun hc hrun) (ihRun hc hrun')
      | alt a b =>
        simp only [run] at h
        split at h
        · exact .altLeft (ihRun hc h)
        · exact .altRight (ihRun hc h)
      | opt a =>
        simp only [run] at h
        split at h
        · exact .opt (ihRun hc h)
        · cases h
          exact .optNone a
      | many a =>
        simp only [run] at h
        split at h
        · cases h
          exact .manyNil a
        · next ys q' hrun =>
          have hfirst : g.Leaves (.many a) ys := by
            rw [← List.append_nil ys]
            exact .manyCons (ihRun hc hrun) (.manyNil a)
          split at h
          · exact ihMore hc (by rwa [List.reverse_reverse]) h
          · cases h
            exact hfirst
      | ahead a =>
        simp only [run, Option.map_eq_some_iff, Prod.mk.injEq] at h
        obtain ⟨-, -, rfl, -⟩ := h
        exact .ahead a
      | refuse a =>
        simp only [run] at h
        split at h <;> cases h
        exact .refuse a
    · intro c e p q f t xs hc ht h
      simp only [runMore] at h
      split at h
      · cases h
        exact ht
      · next ys q' hrun =>
        split at h
        · refine ihMore hc ?_ h
          rw [List.reverse_append, List.reverse_reverse]
          exact ht.many_append (by
            rw [← List.append_nil ys]
            exact .manyCons (ihRun hc hrun) (.manyNil e))
        · cases h
          exact ht

/-! ### Phrases of a given expression -/

@[simp] theorem leaves_text (cs : List Char) : g.Leaves (.text cs) xs ↔ xs = [] :=
  ⟨fun h => by cases h; rfl, fun h => h ▸ .text cs⟩

@[simp] theorem leaves_refuse : g.Leaves (.refuse e) xs ↔ xs = [] :=
  ⟨fun h => by cases h; rfl, fun h => h ▸ .refuse e⟩

@[simp] theorem leaves_seq :
    g.Leaves (.seq a b) xs ↔ ∃ ys zs, g.Leaves a ys ∧ g.Leaves b zs ∧ xs = ys ++ zs := by
  constructor
  · rintro (_ | _)
    exact ⟨_, _, ‹_›, ‹_›, rfl⟩
  · rintro ⟨ys, zs, ha, hb, rfl⟩
    exact .seq ha hb

@[simp] theorem leaves_alt : g.Leaves (.alt a b) xs ↔ g.Leaves a xs ∨ g.Leaves b xs := by
  constructor
  · rintro (_ | _)
    · exact .inl ‹_›
    · exact .inr ‹_›
  · rintro (h | h)
    · exact .altLeft h
    · exact .altRight h

@[simp] theorem leaves_opt : g.Leaves (.opt e) xs ↔ xs = [] ∨ g.Leaves e xs := by
  constructor
  · rintro (_ | _)
    · exact .inl rfl
    · exact .inr ‹_›
  · rintro (rfl | h)
    · exact .optNone e
    · exact .opt h

theorem leaves_inline (hr : g.mode r = .inline) :
    g.Leaves (.rule r) xs ↔ g.Leaves (g.rule r) xs := by
  refine ⟨fun h => ?_, .inline hr⟩
  cases h with
  | inline _ h => exact h
  | keyword hmode => cases hr ▸ hmode
  | token _ _ hmode => cases hr ▸ hmode
  | phrase _ hmode => rw [hr] at hmode; simp at hmode

theorem leaves_keyword (hr : g.mode r = .keyword) : g.Leaves (.rule r) xs ↔ xs = [] := by
  refine ⟨fun h => ?_, fun h => h ▸ .keyword hr⟩
  cases h with
  | inline hmode => cases hr ▸ hmode
  | keyword => rfl
  | token _ _ hmode => cases hr ▸ hmode
  | phrase _ hmode => rw [hr] at hmode; simp at hmode

theorem leaves_token (hr : g.mode r = .token) :
    g.Leaves (.rule r) xs ↔ ∃ s text, xs = [⟨r, s, text, []⟩] := by
  refine ⟨fun h => ?_, ?_⟩
  · cases h with
    | inline hmode => cases hr ▸ hmode
    | keyword hmode => cases hr ▸ hmode
    | token s text => exact ⟨s, text, rfl⟩
    | phrase _ hmode => rw [hr] at hmode; simp at hmode
  · rintro ⟨s, text, rfl⟩
    exact .token s text hr

theorem formed_token (hr : g.mode r = .token) (s : Span) (text : String) :
    g.Formed ⟨r, s, text, xs⟩ ↔ xs = [] := by
  simp only [Formed, Phrase.rule, Phrase.parts, hr]

theorem formed_phrase (hr : g.mode r = .phrase ∨ g.mode r = .tight) (s : Span) (text : String) :
    g.Formed ⟨r, s, text, xs⟩ ↔ g.Leaves (g.rule r) xs := by
  rcases hr with hr | hr <;> simp only [Formed, Phrase.rule, Phrase.parts, hr]

theorem leaves_phrase (hr : g.mode r = .phrase ∨ g.mode r = .tight) :
    g.Leaves (.rule r) xs ↔
      ∃ s parts, xs = [⟨r, s, "", parts⟩] ∧ g.Formed ⟨r, s, "", parts⟩ := by
  simp only [formed_phrase hr]
  refine ⟨fun h => ?_, ?_⟩
  · cases h with
    | inline hmode => simp [hmode] at hr
    | keyword hmode => simp [hmode] at hr
    | token _ _ hmode => simp [hmode] at hr
    | phrase s _ hparts => exact ⟨s, _, rfl, hparts⟩
  · rintro ⟨s, parts, rfl, h⟩
    exact .phrase s hr h

/-- All phrases that are left are formed. -/
theorem Leaves.formed (h : g.Leaves e xs) : ∀ p ∈ xs, g.Formed p := by
  induction h with
  | seq _ _ iha ihb => exact List.forall_mem_append.2 ⟨iha, ihb⟩
  | manyCons _ _ iha ihb => exact List.forall_mem_append.2 ⟨iha, ihb⟩
  | altLeft _ ih | altRight _ ih | opt _ ih | inline _ _ ih => exact ih
  | token s text hmode => exact List.forall_mem_singleton.2 ((formed_token hmode s text).2 rfl)
  | phrase s hmode hparts =>
    exact List.forall_mem_singleton.2 ((formed_phrase hmode s "").2 hparts)
  | _ => simp

/-- The parts of a formed phrase are formed. -/
theorem Formed.of_mem_parts {p q : Phrase ρ} (h : g.Formed p) (hq : q ∈ p.parts) : g.Formed q := by
  unfold Formed at h
  split at h
  · rw [h] at hq
    cases hq
  · exact h.formed q hq
  · exact h.formed q hq
  · exact h.elim
  · exact h.elim

/-! ### Texts -/

/-- A text that is read as a phrase is read as one that the rule can leave. -/
theorem formed_of_read {text : String} {p : Phrase ρ}
    (hr : g.mode r = .phrase) (h : g.read r text = .ok p) : p.rule = r ∧ g.Formed p := by
  unfold read at h
  dsimp only at h
  split at h
  · next phrase more q htaken =>
    cases h
    obtain ⟨s, parts, heq, hformed⟩ :=
      (leaves_phrase (.inl hr)).1 ((leaves_of_run_and _).1 rfl htaken)
    cases heq
    exact ⟨rfl, hformed⟩
  · cases h

end Grammar

end Quasiquote
