import Quasiquote.Proofs.Macro.Turns

namespace Quasiquote.Node

/-!
# Expanded trees — inline expansion ends, and leaves nothing to expand

The walk goes into what it has just put in the place of a call, so that it could go on for ever,
and a call could be left where the walk does not go.

* `Node.walk` — the walk with a bound on the depth of its visits, and no other reason to end;
* `Node.walk_eq` — two levels more than the tree has forms are enough;
* `Node.outcome_expanded` — an expanded tree has nothing that is replaced and nothing that fails;
* `Node.expandInline_settles` — inline expansion ends, and does nothing the second time.
-/

variable {env : InlineEnv} {quoted q : Bool} {n r : Node}

/-! ### The walk ends -/

/-- The walk whose visits go down a number of levels.  It answers nothing if that is not enough. -/
def walk (env : InlineEnv) : Nat → Bool → Node → OptionT (Except Diagnostic) Node
  | 0 => fun _ _ => failure
  | k + 1 => visitM env (fun d => OptionT.lift (throw d)) (walk env k)

/-- Two levels are enough for an output stream. -/
theorem walk_outputStream (env : InlineEnv) (k : Nat) (s : Span) :
    walk env (k + 2) false (outputStream s) = pure (outputStream s) := rfl

/-- As many levels as the tree has forms are enough, with two more for a stream that is put in. -/
theorem walk_eq (env : InlineEnv) {k : Nat} (h : n.weight + 2 ≤ k) (quoted : Bool) :
    walk env k quoted n = expandInlineM env (fun d => OptionT.lift (throw d)) quoted n := by
  induction k generalizing n quoted with
  | zero => omega
  | succ k ih =>
    rw [expandInlineM_eq_report]
    refine visitM_eq_report _ fun q r hr c hc => ?_
    rw [← expandInlineM_eq_report]
    obtain hlighter | ⟨rfl, s, rfl⟩ := turn_enter_part hr hc
    · exact ih (by omega) q
    · have := n.weight_pos
      obtain ⟨j, rfl⟩ : ∃ j, k = j + 2 := ⟨k - 2, by omega⟩
      rw [walk_outputStream, expandInlineM_outputStream]

/-- Ending at the first failure is the same under a bound that is not reached. -/
theorem run_report_lift (es : List Diagnostic) (t : Node) :
    (report (m := OptionT (Except Diagnostic)) (fun d => OptionT.lift (throw d)) es t).run =
      some <$> report (m := Except Diagnostic) throw es t := by
  cases es <;> rfl

/-! ### Nothing is left to do -/

section Parts

variable (g : Node → Node) (n)

@[simp] theorem isQuote_descend : (n.descend g).form.isQuote = n.form.isQuote := by
  obtain ⟨s, form⟩ := n
  cases form <;> rfl

@[simp] theorem inlineMacro?_descend : (n.descend g).inlineMacro? env = n.inlineMacro? env := by
  obtain ⟨s, form⟩ := n
  cases form <;> rfl

@[simp] theorem inside_descend : (n.descend g).inside quoted = n.inside quoted := by
  obtain ⟨s, form⟩ := n
  cases form <;> rfl

end Parts

/-- Where the walk goes on, it goes on in the same way if the parts have changed. -/
theorem turn_descend (h : n.turn env quoted = .enter q r) (g : Node → Node) :
    (r.descend g).turn env quoted = .enter q (r.descend g) := by
  unfold turn at h
  split at h
  · cases h
  rename_i hleft
  split at h
  · rename_i hbound
    cases h
    rw [turn, isQuote_descend, inlineMacro?_descend, if_neg hleft, hbound, inside_descend]
  · rename_i name kind hbound
    -- only in code is anything replaced, and no call with a receiver is
    cases quoted with
    | true => cases hbound
    | false =>
      split at h
      · cases h
      rename_i hr
      split at h
      · cases h
      rename_i hdef
      cases h
      obtain ⟨-, method, rfl⟩ := (replace_cases hr).resolve_left hdef
      rfl

/-- Where the walk stops without a failure, it has nothing to do the next time. -/
theorem outcome_left (h : n.turn env quoted = .leave r) :
    failures env quoted r = [] ∧ expanded env quoted r = r := by
  unfold turn at h
  split at h
  · rename_i hquote
    cases h
    exact outcome_leave (by rw [turn, if_pos hquote])
  · split at h
    · cases h
    · rename_i hbound
      split at h
      · cases h
      split at h
      · rename_i hdef
        cases h
        -- what is left in code is a definition, which has no parts
        obtain ⟨s, form⟩ := r
        cases form with
        | macroDef name args body id =>
          cases quoted with
          | true => cases hbound
          | false =>
            have hturn : turn env false ⟨s, .macroDef name args body id⟩ =
                .enter false ⟨s, .macroDef name args body id⟩ := rfl
            exact outcome_enter hturn
        | _ => cases hdef
      · cases h

/-- A tree that has been expanded without a failure is expanded to itself. -/
theorem outcome_expanded (env : InlineEnv) (quoted : Bool) (n : Node) :
    failures env quoted n = [] → failures env quoted (expanded env quoted n) = [] ∧
      expanded env quoted (expanded env quoted n) = expanded env quoted n := by
  refine turn_induction (P := fun quoted n => failures env quoted n = [] →
    failures env quoted (expanded env quoted n) = [] ∧
      expanded env quoted (expanded env quoted n) = expanded env quoted n) env ?_ quoted n
  intro quoted n ih hnone
  cases hturn : n.turn env quoted with
  | leave r =>
    rw [(outcome_leave hturn).2]
    exact outcome_left hturn
  | refuse d =>
    rw [(outcome_refuse hturn).1] at hnone
    cases hnone
  | enter q r =>
    obtain ⟨hfailures, hexpanded⟩ := outcome_enter hturn
    rw [hfailures, List.flatMap_eq_nil_iff] at hnone
    obtain ⟨hagain, hsame⟩ := outcome_enter (turn_descend hturn (expanded env q))
    -- the parts of the new tree are expanded parts, to which the hypothesis applies
    have hparts : ∀ c ∈ (r.descend (expanded env q)).children,
        failures env q c = [] ∧ expanded env q c = c := by
      rw [children_descend]
      refine List.forall_mem_map.2 fun c hc => ?_
      exact ih q r hturn c hc (hnone c hc)
    rw [hexpanded, hagain, hsame]
    exact ⟨List.flatMap_eq_nil_iff.2 fun c hc => (hparts c hc).1,
      descend_eq_self fun c hc => (hparts c hc).2⟩

/-! ### Both at once -/

/-- Inline expansion ends: visits that go down only so many levels give the same result.  A tree
    that it answers with it answers with again. -/
theorem expandInline_settles (env : InlineEnv) (n : Node) :
    (∀ k, n.weight + 2 ≤ k → (walk env k false n).run = some <$> n.expandInline env) ∧
      ∀ t, n.expandInline env = .ok t → t.expandInline env = .ok t := by
  refine ⟨fun k hk => ?_, fun t ht => ?_⟩
  · rw [walk_eq env hk, expandInlineM_eq_report, run_report_lift, expandInline,
      expandInlineM_eq_report]
  · obtain ⟨hnone, rfl⟩ := expandInline_ok_iff.1 ht
    exact expandInline_ok_iff.2 (outcome_expanded env false n hnone)

/-- An output shorthand whose argument is quoted text, where the same name is a word but in a hole
    a shorthand again. -/
theorem expandInline_settles_quoted :
    let env : InlineEnv := ⟨.builtins, "demo"⟩
    let quoted (v : Node) : Node := ⟨⟨5, 30⟩, .quote ⟨⟨13, 28⟩, .invoke "puts"
      [⟨⟨18, 27⟩, .unquote v⟩] none⟩⟩
    let n : Node := ⟨⟨0, 30⟩, .invoke "puts" [quoted ⟨⟨20, 25⟩, .ident "print"⟩] none⟩
    let t : Node := ⟨⟨0, 30⟩, .call (outputStream ⟨0, 30⟩) "println"
      [quoted ⟨⟨20, 25⟩, .call (outputStream ⟨20, 25⟩) "print" [] none⟩] none⟩
    (walk env 7 false n).run = .ok (some t) ∧ n.expandInline env = .ok t ∧
      t.expandInline env = .ok t := by
  intro env quoted n t
  have ht : n.expandInline env = .ok t := expandInline_ok_iff.2 ⟨rfl, rfl⟩
  obtain ⟨hends, hagain⟩ := expandInline_settles env n
  refine ⟨?_, ht, hagain t ht⟩
  rw [hends 7 (by decide), ht]
  rfl

end Quasiquote.Node
