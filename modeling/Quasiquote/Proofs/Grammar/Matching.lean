import Quasiquote.Proofs.Grammar.Place

namespace Quasiquote

/-!
# Matching without fuel

The matcher of a grammar counts levels of nesting.  If no rule can reach itself
without taking a character, some number of levels is always enough, and what is
taken depends neither on that number nor on the notes about failed attempts.

* `Grammar.Bounded` — a rank for every rule that shows there is enough room;
* `Grammar.run_reaches` — a match ends at a place that its start reaches, and a
  later one unless the expression may be empty;
* `Grammar.run_taken_eq` — with enough room, what is taken is always the same;
* `Grammar.take` — what is taken, with one equation for every kind of expression.
-/

namespace Peg

variable {ρ : Type}

/-- Whether an expression may match without taking a character. -/
def mayBeEmpty (empty : ρ → Bool) : Peg ρ → Bool
  | .text cs => cs.isEmpty
  | .char _ => false
  | .stop => true
  | .rule r => empty r
  | .seq a b => mayBeEmpty empty a && mayBeEmpty empty b
  | .alt a b => mayBeEmpty empty a || mayBeEmpty empty b
  | .opt _ | .many _ | .ahead _ | .refuse _ => true

/-- The levels that an expression needs before it takes a character, if every
    character is worth `nesting` levels. -/
def depth (nesting : Nat) (empty : ρ → Bool) (rank : ρ → Nat) : Peg ρ → Nat
  | .text _ | .char _ | .stop => 0
  | .rule r => rank r
  | .seq a b =>
    max (depth nesting empty rank a)
      (if mayBeEmpty empty a then depth nesting empty rank b
        else depth nesting empty rank b - nesting) + 1
  | .alt a b => max (depth nesting empty rank a) (depth nesting empty rank b) + 1
  | .opt a | .many a | .ahead a | .refuse a => depth nesting empty rank a + 1

end Peg

namespace Grammar

variable {ρ : Type}

/-- A grammar in which every match that takes no character nests only so deep. -/
class Bounded (g : Grammar ρ) where
  /-- Whether a rule may match without taking a character. -/
  empty : ρ → Bool
  /-- The levels that a rule needs before it takes a character. -/
  rank : ρ → Nat
  nesting_pos : 0 < g.nesting
  reaches_skip (p : Place) : p.Reaches (g.skip p)
  empty_rule (r : ρ) : (g.rule r).mayBeEmpty empty = true → empty r = true
  rank_rule (r : ρ) : (g.rule r).depth g.nesting empty rank < rank r

variable (g : Grammar ρ) [hg : g.Bounded]

theorem reaches_next (c : Context) (p : Place) : p.Reaches (g.next c p) := by
  unfold next
  split
  · exact hg.reaches_skip p
  · exact .refl p

/-- What is known of a match: it ends later, and strictly later unless the
    expression may be empty. -/
def Ends (e : Peg ρ) (p q : Place) : Prop :=
  p.Reaches q ∧ (e.mayBeEmpty hg.empty = false → p.pos < q.pos)

variable {g}

theorem Ends.of_pos {e : Peg ρ} {p q : Place} (h : p.Reaches q) (hlt : p.pos < q.pos) :
    g.Ends e p q := ⟨h, fun _ => hlt⟩

theorem Ends.of_empty {e : Peg ρ} {p q : Place} (h : p.Reaches q)
    (he : e.mayBeEmpty hg.empty = true) : g.Ends e p q :=
  ⟨h, fun hne => absurd he (by simp [hne])⟩

theorem Ends.seq {a b : Peg ρ} {c : Context} {p q r : Place} (ha : g.Ends a p q)
    (hb : g.Ends b (g.next c q) r) : g.Ends (.seq a b) p r := by
  have hskip := reaches_next g c q
  refine ⟨ha.1.trans (hskip.trans hb.1), fun hne => ?_⟩
  have h₁ := ha.1.pos_le
  have h₂ := hskip.pos_le
  have h₃ := hb.1.pos_le
  simp only [Peg.mayBeEmpty, Bool.and_eq_false_iff] at hne
  rcases hne with hne | hne
  · have := ha.2 hne
    omega
  · have := hb.2 hne
    omega

theorem run_reaches_and (fuel : Nat) :
    (∀ {c : Context} {e : Peg ρ} {p q : Place} {f : Nat} {xs : List (Phrase ρ)},
      (g.run fuel c e p f).taken = some (xs, q) → g.Ends e p q) ∧
    (∀ {c : Context} {a : Peg ρ} {p q : Place} {f : Nat} {t xs : List (Phrase ρ)},
      (g.runMore fuel c a p f t).taken = some (xs, q) → p.Reaches q) := by
  induction fuel with
  | zero =>
    constructor
    · intro c e p q f xs h
      simp [run] at h
    · intro c a p q f t xs h
      simp only [runMore, Option.some.injEq, Prod.mk.injEq] at h
      rw [← h.2]
  | succ fuel ih =>
    obtain ⟨ihRun, ihMore⟩ := ih
    constructor
    · intro c e p q f xs h
      cases e with
      | text cs =>
        simp only [run, Option.map_eq_some_iff, Prod.mk.injEq] at h
        obtain ⟨q', hskip, -, rfl⟩ := h
        obtain ⟨hrest, hpos⟩ := Place.skipText_reaches hskip
        refine ⟨⟨cs, hrest, hpos⟩, fun hne => ?_⟩
        have := Utf8.length_pos (u := cs) (by rintro rfl; simp [Peg.mayBeEmpty] at hne)
        omega
      | char accepts =>
        simp only [run] at h
        split at h
        · next d rest hrest =>
          split at h
          · cases h
            have hd := d.utf8Size_pos
            exact .of_pos (Place.reaches_advance hrest) (by simp [Place.advance]; omega)
          · cases h
        · cases h
      | stop =>
        simp only [run] at h
        split at h
        · cases h
          exact .of_empty (.refl p) rfl
        · cases h
      | rule r =>
        simp only [run, Option.map_eq_some_iff, Prod.mk.injEq] at h
        obtain ⟨⟨parts, q'⟩, hrun, -, rfl⟩ := h
        obtain ⟨hreach, hpos⟩ := ihRun hrun
        refine ⟨hreach, fun hne => hpos ?_⟩
        have := hg.empty_rule r
        simp only [Peg.mayBeEmpty] at hne
        simp_all
      | seq a b =>
        simp only [run] at h
        split at h
        · cases h
        · next ys q' hrun =>
          simp only [Option.map_eq_some_iff, Prod.mk.injEq] at h
          obtain ⟨⟨zs, q''⟩, hrun', -, rfl⟩ := h
          exact (ihRun hrun).seq (ihRun hrun')
      | alt a b =>
        have hor : g.Ends a p q ∨ g.Ends b p q := by
          simp only [run] at h
          split at h
          · exact .inl (ihRun h)
          · exact .inr (ihRun h)
        rcases hor with ⟨hreach, hpos⟩ | ⟨hreach, hpos⟩ <;>
        · refine ⟨hreach, fun hne => hpos ?_⟩
          simp only [Peg.mayBeEmpty, Bool.or_eq_false_iff] at hne
          first | exact hne.1 | exact hne.2
      | opt a =>
        refine .of_empty ?_ rfl
        simp only [run] at h
        split at h
        · exact (ihRun h).1
        · cases h
          exact .refl p
      | many a =>
        refine .of_empty ?_ rfl
        simp only [run] at h
        split at h
        · cases h
          exact .refl p
        · next ys q' hrun =>
          split at h
          · exact (ihRun hrun).1.trans (ihMore h)
          · cases h
            exact (ihRun hrun).1
      | ahead a =>
        refine .of_empty ?_ rfl
        simp only [run, Option.map_eq_some_iff, Prod.mk.injEq] at h
        obtain ⟨_, -, -, rfl⟩ := h
        exact .refl p
      | refuse a =>
        refine .of_empty ?_ rfl
        simp only [run] at h
        split at h
        · cases h
        · cases h
          exact .refl p
    · intro c a p q f t xs h
      simp only [runMore] at h
      split at h
      · cases h
        exact .refl p
      · next ys q' hrun =>
        split at h
        · exact (reaches_next g c p).trans ((ihRun hrun).1.trans (ihMore h))
        · cases h
          exact .refl p

/-- A match ends at a place that its start reaches, and at a later one unless the
    expression may be empty. -/
theorem run_reaches {fuel : Nat} {c : Context} {e : Peg ρ} {p q : Place} {f : Nat}
    {xs : List (Phrase ρ)} (h : (g.run fuel c e p f).taken = some (xs, q)) : g.Ends e p q :=
  (run_reaches_and fuel).1 h

/-! ### What is taken does not depend on the room -/

variable (g) in
/-- The levels that a match of `e` at `p` can nest. -/
def room (e : Peg ρ) (p : Place) : Nat :=
  e.depth g.nesting hg.empty hg.rank + g.nesting * p.rest.length

theorem room_le {a : Peg ρ} {p q : Place} (h : p.Reaches q) : g.room a q ≤ g.room a p := by
  have := Nat.mul_le_mul_left g.nesting h.length_le
  simp only [room]
  omega

/-- What comes after a part that took a character may nest by `nesting` more. -/
theorem room_add_nesting_le {a : Peg ρ} {p q : Place} (h : p.Reaches q) (hlt : p.pos < q.pos) :
    g.room a q + g.nesting ≤ g.room a p := by
  have hlen := h.length_lt hlt
  have := Nat.mul_le_mul_left g.nesting (Nat.succ_le_of_lt hlen)
  rw [Nat.succ_eq_add_one, Nat.mul_add, Nat.mul_one] at this
  simp only [room]
  omega

theorem room_rule (r : ρ) (p : Place) : g.room (g.rule r) p < g.room (.rule r) p := by
  have := hg.rank_rule r
  simp only [room, Peg.depth]
  omega

theorem room_seq_left (a b : Peg ρ) (p : Place) : g.room a p < g.room (.seq a b) p := by
  simp only [room, Peg.depth]
  omega

theorem room_seq_right {a b : Peg ρ} {c : Context} {p q : Place} (h : g.Ends a p q) :
    g.room b (g.next c q) < g.room (.seq a b) p := by
  obtain ⟨hreach, hpos⟩ := h
  have hnext : g.room b (g.next c q) ≤ g.room b q := room_le (reaches_next g c q)
  cases hempty : a.mayBeEmpty hg.empty with
  | true =>
    have : g.room b q ≤ g.room b p := room_le hreach
    simp only [room, Peg.depth, hempty, if_true] at this hnext ⊢
    omega
  | false =>
    have : g.room b q + g.nesting ≤ g.room b p := room_add_nesting_le hreach (hpos hempty)
    simp only [room, Peg.depth, hempty, Bool.false_eq_true, if_false] at this hnext ⊢
    omega

theorem room_alt (a b : Peg ρ) (p : Place) :
    g.room a p < g.room (.alt a b) p ∧ g.room b p < g.room (.alt a b) p := by
  simp only [room, Peg.depth]
  omega

theorem room_opt (a : Peg ρ) (p : Place) : g.room a p < g.room (.opt a) p := by
  simp only [room, Peg.depth]
  omega

theorem room_many (a : Peg ρ) (p : Place) : g.room a p < g.room (.many a) p := by
  simp only [room, Peg.depth]
  omega

theorem room_many_next (a : Peg ρ) (c : Context) (p : Place) :
    g.room a (g.next c p) < g.room (.many a) p :=
  Nat.lt_of_le_of_lt (room_le (reaches_next g c p)) (room_many a p)

/-- After one repetition there is a level less to go. -/
theorem room_many_after {a : Peg ρ} {p q : Place} (h : p.Reaches q) (hlt : p.pos < q.pos) :
    g.room (.many a) q < g.room (.many a) p := by
  have : g.room (.many a) q + g.nesting ≤ g.room (.many a) p := room_add_nesting_le h hlt
  have := hg.nesting_pos
  omega

theorem enter_congr {c c' : Context} (hs : c.spaced = c'.spaced) (ht : c.inToken = c'.inToken)
    (m : Mode) : (c.enter m).spaced = (c'.enter m).spaced ∧
      (c.enter m).inToken = (c'.enter m).inToken := by
  cases m <;> simp [Context.enter, hs, ht]

theorem run_taken_and (fuel : Nat) :
    (∀ {fuel' : Nat} {c d : Context} {e : Peg ρ} {p : Place} {f z : Nat},
      c.spaced = d.spaced → c.inToken = d.inToken →
      g.room e p < fuel → g.room e p < fuel' →
      (g.run fuel c e p f).taken = (g.run fuel' d e p z).taken) ∧
    (∀ {fuel' : Nat} {c d : Context} {a : Peg ρ} {p : Place} {f z : Nat}
      {t : List (Phrase ρ)}, c.spaced = d.spaced → c.inToken = d.inToken →
      g.room (.many a) p < fuel → g.room (.many a) p < fuel' →
      (g.runMore fuel c a p f t).taken = (g.runMore fuel' d a p z t).taken) := by
  induction fuel with
  | zero => exact ⟨fun _ _ h => absurd h (Nat.not_lt_zero _),
      fun _ _ h => absurd h (Nat.not_lt_zero _)⟩
  | succ fuel ih =>
    obtain ⟨ihRun, ihMore⟩ := ih
    constructor
    · intro fuel' c d e p f z hs ht hroom hroom'
      cases fuel' with
      | zero => omega
      | succ fuel' =>
      cases e with
      | text cs => simp only [run]
      | char accepts =>
        simp only [run]
        split <;> rfl
      | stop => simp only [run]
      | rule r =>
        have hlt := room_rule (g := g) r p
        obtain ⟨hs', ht'⟩ := enter_congr hs ht (g.mode r)
        have hsame := ihRun (f := f) (z := z) hs' ht'
          (show g.room (g.rule r) p < fuel by omega)
          (show g.room (g.rule r) p < fuel' by omega)
        simp only [run, hsame, leave, ht]
      | seq a b =>
        have hlt := room_seq_left (g := g) a b p
        have hsame := ihRun (f := f) (z := z) hs ht (show g.room a p < fuel by omega)
          (show g.room a p < fuel' by omega)
        simp only [run]
        rcases hrun : g.run fuel c a p f with ⟨k, _ | ⟨xs, q⟩⟩ <;>
          rcases hrun' : g.run fuel' d a p z with ⟨k', _ | ⟨xs', q'⟩⟩ <;>
          rw [hrun, hrun'] at hsame <;> simp only [Option.some.injEq, reduceCtorEq] at hsame ⊢
        cases hsame
        have hnext : g.next c q = g.next d q := by simp only [next, hs]
        have hright := room_seq_right (b := b) (c := c) (run_reaches (congrArg Match.taken hrun))
        rw [ihRun (z := k') hs ht (show g.room b (g.next c q) < fuel by omega)
          (show _ < fuel' by omega), hnext]
      | alt a b =>
        obtain ⟨hlt, hlt'⟩ := room_alt (g := g) a b p
        have hsame := ihRun (f := f) (z := z) hs ht (show g.room a p < fuel by omega)
          (show g.room a p < fuel' by omega)
        simp only [run]
        rcases hrun : g.run fuel c a p f with ⟨k, _ | ⟨xs, q⟩⟩ <;>
          rcases hrun' : g.run fuel' d a p z with ⟨k', _ | ⟨xs', q'⟩⟩ <;>
          rw [hrun, hrun'] at hsame <;> simp only [Option.some.injEq, reduceCtorEq] at hsame ⊢
        · exact ihRun hs ht (by omega) (by omega)
        · rw [hsame]
      | opt a =>
        have hlt := room_opt (g := g) a p
        have hsame := ihRun (f := f) (z := z) hs ht (show g.room a p < fuel by omega)
          (show g.room a p < fuel' by omega)
        simp only [run]
        rcases hrun : g.run fuel c a p f with ⟨k, _ | ⟨xs, q⟩⟩ <;>
          rcases hrun' : g.run fuel' d a p z with ⟨k', _ | ⟨xs', q'⟩⟩ <;>
          rw [hrun, hrun'] at hsame <;> simp only [Option.some.injEq, reduceCtorEq] at hsame ⊢
        rw [hsame]
      | many a =>
        have hlt := room_many (g := g) a p
        have hsame := ihRun (f := f) (z := z) hs ht (show g.room a p < fuel by omega)
          (show g.room a p < fuel' by omega)
        simp only [run]
        rcases hrun : g.run fuel c a p f with ⟨k, _ | ⟨xs, q⟩⟩ <;>
          rcases hrun' : g.run fuel' d a p z with ⟨k', _ | ⟨xs', q'⟩⟩ <;>
          rw [hrun, hrun'] at hsame <;> simp only [Option.some.injEq, reduceCtorEq] at hsame ⊢
        cases hsame
        by_cases hpos : p.pos < q.pos
        · have hreach : p.Reaches q := (run_reaches (congrArg Match.taken hrun)).1
          have hafter : g.room (.many a) q < g.room (.many a) p := room_many_after hreach hpos
          rw [if_pos hpos, if_pos hpos]
          exact ihMore hs ht (by omega) (by omega)
        · rw [if_neg hpos, if_neg hpos]
      | ahead a =>
        have hlt : g.room a p < g.room (.ahead a) p := room_opt a p
        simp only [run, ihRun (f := f) (z := z) hs ht (show g.room a p < fuel by omega)
          (show g.room a p < fuel' by omega)]
      | refuse a =>
        have hlt : g.room a p < g.room (.refuse a) p := room_opt a p
        simp only [run, ihRun (f := f) (z := z) (c := { c with negated := !c.negated })
          (d := { d with negated := !d.negated }) hs ht (show g.room a p < fuel by omega)
          (show g.room a p < fuel' by omega)]
    · intro fuel' c d a p f z t hs ht hroom hroom'
      cases fuel' with
      | zero => omega
      | succ fuel' =>
      have hlt := room_many_next (g := g) a c p
      have hnext : g.next c p = g.next d p := by simp only [next, hs]
      have hsame := ihRun (f := f) (z := z) hs ht
        (show g.room a (g.next c p) < fuel by omega) (show _ < fuel' by omega)
      simp only [runMore]
      rw [← hnext]
      rcases hrun : g.run fuel c a (g.next c p) f with ⟨k, _ | ⟨xs, q⟩⟩ <;>
        rcases hrun' : g.run fuel' d a (g.next c p) z with ⟨k', _ | ⟨xs', q'⟩⟩ <;>
        rw [hrun, hrun'] at hsame <;> simp only [Option.some.injEq, reduceCtorEq] at hsame ⊢
      cases hsame
      by_cases hpos : p.pos < q.pos
      · have hreach := (reaches_next g c p).trans (run_reaches (congrArg Match.taken hrun)).1
        have hafter : g.room (.many a) q < g.room (.many a) p := room_many_after hreach hpos
        rw [if_pos hpos, if_pos hpos]
        exact ihMore hs ht (by omega) (by omega)
      · rw [if_neg hpos, if_neg hpos]

/-! ### What is taken -/

variable (g)

/-- What an expression takes at a place, given enough room. -/
def take (c : Context) (e : Peg ρ) (p : Place) : Option (List (Phrase ρ) × Place) :=
  (g.run (g.room e p + 1) c e p 0).taken

/-- What further repetitions take after a place. -/
def more (c : Context) (a : Peg ρ) (p : Place) : Option (List (Phrase ρ) × Place) :=
  (g.runMore (g.room (.many a) p + 1) c a p 0 []).taken

variable {g}

/-- With enough room, what is taken is always the same. -/
theorem run_taken_eq {fuel : Nat} (c : Context) {e : Peg ρ} {p : Place} (f : Nat)
    (h : g.room e p < fuel) : (g.run fuel c e p f).taken = g.take c e p :=
  (run_taken_and fuel).1 rfl rfl h (Nat.lt_succ_self _)

theorem take_negated (c : Context) (e : Peg ρ) (p : Place) (b : Bool) :
    g.take { c with negated := b } e p = g.take c e p :=
  (run_taken_and _).1 rfl rfl (Nat.lt_succ_self _) (Nat.lt_succ_self _)

theorem take_reaches {c : Context} {e : Peg ρ} {p q : Place} {xs : List (Phrase ρ)}
    (h : g.take c e p = some (xs, q)) : g.Ends e p q := run_reaches h

/-! ### One equation for each kind of expression -/

variable (c : Context) (a b : Peg ρ) (p : Place)

@[simp] theorem take_text (cs : List Char) :
    g.take c (.text cs) p = (p.skipText cs).map fun q => ([], q) := rfl

theorem take_char (accepts : Char → Bool) (d : Char) (pos : Nat) (rest : List Char) :
    g.take c (.char accepts) ⟨pos, d :: rest⟩ =
      if accepts d then some ([], ⟨pos + d.utf8Size, rest⟩) else none := rfl

theorem take_char_nil (accepts : Char → Bool) (pos : Nat) :
    g.take c (.char accepts) ⟨pos, []⟩ = none := rfl

theorem take_stop : g.take c .stop p = if p.rest.isEmpty then some ([], p) else none := rfl

theorem take_rule (r : ρ) :
    g.take c (.rule r) p = (g.take (c.enter (g.mode r)) (g.rule r) p).map fun m =>
      (g.leave c r p m.2 m.1, m.2) := by
  rw [take, run, run_taken_eq _ _ (room_rule r p)]

theorem take_seq :
    g.take c (.seq a b) p = (g.take c a p).bind fun m =>
      (g.take c b (g.next c m.2)).map fun n => (m.1 ++ n.1, n.2) := by
  have hleft : (g.run (g.room (.seq a b) p) c a p 0).taken = g.take c a p :=
    run_taken_eq c 0 (room_seq_left a b p)
  rw [take, run, ← hleft]
  rcases hrun : g.run (g.room (.seq a b) p) c a p 0 with ⟨k, _ | ⟨xs, q⟩⟩
  · rfl
  · have hends : g.Ends a p q := run_reaches (congrArg Match.taken hrun)
    simp only [run_taken_eq c k (room_seq_right hends), Option.bind_some]

theorem take_alt : g.take c (.alt a b) p = (g.take c a p).or (g.take c b p) := by
  obtain ⟨hlt, hlt'⟩ := room_alt (g := g) a b p
  have hleft : (g.run (g.room (.alt a b) p) c a p 0).taken = g.take c a p :=
    run_taken_eq c 0 hlt
  rw [take, run, ← hleft]
  rcases hrun : g.run (g.room (.alt a b) p) c a p 0 with ⟨k, _ | ⟨xs, q⟩⟩
  · simp only [run_taken_eq c k hlt', Option.none_or]
  · rfl

theorem take_opt : g.take c (.opt a) p = (g.take c a p).or (some ([], p)) := by
  have hsame : (g.run (g.room (.opt a) p) c a p 0).taken = g.take c a p :=
    run_taken_eq c 0 (room_opt a p)
  rw [take, run, ← hsame]
  rcases g.run (g.room (.opt a) p) c a p 0 with ⟨k, _ | ⟨xs, q⟩⟩ <;> rfl

theorem take_ahead : g.take c (.ahead a) p = (g.take c a p).map fun _ => ([], p) := by
  have hlt : g.room a p < g.room (.ahead a) p := room_opt a p
  rw [take, run, run_taken_eq c 0 hlt]

theorem take_refuse :
    g.take c (.refuse a) p = if (g.take c a p).isSome then none else some ([], p) := by
  have hlt : g.room a p < g.room (.refuse a) p := room_opt a p
  rw [take, run, run_taken_eq _ 0 hlt, take_negated]

omit hg in
/-- Repetitions are put behind the phrases so far. -/
theorem runMore_taken (fuel : Nat) (f : Nat) (t : List (Phrase ρ)) :
    (g.runMore fuel c a p f t).taken =
      (g.runMore fuel c a p f []).taken.map fun m => (t.reverse ++ m.1, m.2) := by
  induction fuel generalizing p f t with
  | zero => simp [runMore]
  | succ fuel ih =>
    simp only [runMore]
    rcases g.run fuel c a (g.next c p) f with ⟨k, _ | ⟨xs, q⟩⟩
    · simp
    · dsimp only
      split
      · rw [ih q k (xs.reverse ++ t), ih q k (xs.reverse ++ [])]
        simp [Function.comp_def]
      · simp

theorem more_eq :
    g.more c a p = match g.take c a (g.next c p) with
      | none => some ([], p)
      | some (xs, q) =>
        if p.pos < q.pos then (g.more c a q).map fun m => (xs ++ m.1, m.2) else some ([], p) := by
  have hsame : (g.run (g.room (.many a) p) c a (g.next c p) 0).taken = g.take c a (g.next c p) :=
    run_taken_eq c 0 (room_many_next a c p)
  rw [more, runMore, ← hsame]
  rcases hrun : g.run (g.room (.many a) p) c a (g.next c p) 0 with ⟨k, _ | ⟨xs, q⟩⟩
  · rfl
  · by_cases hpos : p.pos < q.pos
    · have hreach : p.Reaches q :=
        (reaches_next g c p).trans (run_reaches (congrArg Match.taken hrun)).1
      have hafter : g.room (.many a) q < g.room (.many a) p := room_many_after hreach hpos
      simp only [if_pos hpos]
      rw [runMore_taken, more,
        (run_taken_and _).2 (z := 0) rfl rfl hafter (Nat.lt_succ_self _)]
      simp
    · simp only [if_neg hpos, List.reverse_nil]

theorem take_many :
    g.take c (.many a) p = match g.take c a p with
      | none => some ([], p)
      | some (xs, q) =>
        if p.pos < q.pos then (g.more c a q).map fun m => (xs ++ m.1, m.2)
        else some (xs, q) := by
  have hsame : (g.run (g.room (.many a) p) c a p 0).taken = g.take c a p :=
    run_taken_eq c 0 (room_many a p)
  rw [take, run, ← hsame]
  rcases hrun : g.run (g.room (.many a) p) c a p 0 with ⟨k, _ | ⟨xs, q⟩⟩
  · rfl
  · by_cases hpos : p.pos < q.pos
    · have hreach : p.Reaches q := (run_reaches (congrArg Match.taken hrun)).1
      have hafter : g.room (.many a) q < g.room (.many a) p := room_many_after hreach hpos
      simp only [if_pos hpos]
      rw [runMore_taken, more,
        (run_taken_and _).2 (z := 0) rfl rfl hafter (Nat.lt_succ_self _)]
      simp
    · simp only [if_neg hpos]

omit hg in
/-- Further repetitions may be none. -/
theorem runMore_isSome (fuel : Nat) (f : Nat) (t : List (Phrase ρ)) :
    (g.runMore fuel c a p f t).taken.isSome := by
  induction fuel generalizing p f t with
  | zero => rfl
  | succ fuel ih =>
    simp only [runMore]
    split
    · rfl
    · split
      · exact ih _ _ _
      · rfl

theorem take_opt_isSome : (g.take c (.opt a) p).isSome := by
  rw [take_opt, Option.isSome_or]
  exact Bool.or_true _

theorem take_many_isSome : (g.take c (.many a) p).isSome := by
  rw [take_many]
  split
  · rfl
  · split
    · rw [Option.isSome_map]
      exact runMore_isSome c a _ _ _ _
    · rfl

variable {c a b p} {q : Place} {xs : List (Phrase ρ)}

theorem take_seq_eq_some {zs : List (Phrase ρ)} {r : Place} :
    g.take c (.seq a b) p = some (zs, r) ↔ ∃ xs q ys, g.take c a p = some (xs, q) ∧
      g.take c b (g.next c q) = some (ys, r) ∧ zs = xs ++ ys := by
  rw [take_seq]
  simp only [Option.bind_eq_some_iff, Option.map_eq_some_iff, Prod.exists, Prod.mk.injEq]
  constructor
  · rintro ⟨xs, q, ha, ys, r', hb, rfl, rfl⟩
    exact ⟨xs, q, ys, ha, hb, rfl⟩
  · rintro ⟨xs, q, ys, ha, hb, rfl⟩
    exact ⟨xs, q, ha, ys, r, hb, rfl, rfl⟩

theorem take_seq_isSome (ha : (g.take c a p).isSome) (hb : ∀ q, (g.take c b q).isSome) :
    (g.take c (.seq a b) p).isSome := by
  obtain ⟨m, hm⟩ := Option.isSome_iff_exists.1 ha
  rw [take_seq, hm, Option.bind_some, Option.isSome_map]
  exact hb _

theorem more_nil (h : g.take c a (g.next c p) = none) : g.more c a p = some ([], p) := by
  rw [more_eq, h]

theorem more_cons (h : g.take c a (g.next c p) = some (xs, q)) (hlt : p.pos < q.pos) :
    g.more c a p = (g.more c a q).map fun m => (xs ++ m.1, m.2) := by
  rw [more_eq, h]
  exact if_pos hlt

theorem take_many_nil (h : g.take c a p = none) : g.take c (.many a) p = some ([], p) := by
  rw [take_many, h]

theorem take_many_cons (h : g.take c a p = some (xs, q)) (hlt : p.pos < q.pos) :
    g.take c (.many a) p = (g.more c a q).map fun m => (xs ++ m.1, m.2) := by
  rw [take_many, h]
  exact if_pos hlt

end Grammar

end Quasiquote
