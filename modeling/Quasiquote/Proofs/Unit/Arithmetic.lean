import Quasiquote.Proofs.Unit.Endings

namespace Quasiquote

/-!
# Arithmetic — integers in running units

An operator that is sent to an integer answers the exact result, or ends the expansion.  What the
exact result is is said without the operators of the evaluator: a quotient is truncated toward zero
where the remainder is smaller than the divisor and has the sign of the dividend.

* `Truncated`, `Exact` — quotients with remainders, and exact results;
* `Evaluator.Answers` — a computation answers a certain integer, or fails for want of one;
* `Evaluator.answers_intOperator`, `Evaluator.answers_negate` — operators, and the change of sign;
* `Evaluator.integers_exact` — integers in expansions.

A remainder is computed together with its quotient, so it also fails where it is the quotient that
is no word.
-/

/-! ### Exact results -/

/-- Whether `q` is the quotient of `a` by `b`, truncated toward zero, and `r` the remainder that is
    left, which has the sign of `a`. -/
structure Truncated (a b q r : Int) : Prop where
  eq : a = b * q + r
  small : r.natAbs < b.natAbs
  nonneg : 0 ≤ a → 0 ≤ r
  nonpos : a ≤ 0 → r ≤ 0

namespace Truncated

variable {a b q r : Int}

/-- There is no quotient by zero. -/
theorem ne_zero (h : Truncated a b q r) : b ≠ 0 := by
  intro hb
  have := h.small
  rw [hb] at this
  exact Nat.not_lt_zero _ this

theorem of_ne_zero (a : Int) (hb : b ≠ 0) : Truncated a b (a.tdiv b) (a.tmod b) where
  eq := (Int.mul_tdiv_add_tmod a b).symm
  small := by
    rw [Int.natAbs_tmod]
    exact Nat.mod_lt _ (Int.natAbs_pos.2 hb)
  nonneg := Int.tmod_nonneg b
  nonpos h := by
    -- the remainder of the opposite dividend is the opposite one
    have hneg := Int.tmod_nonneg b (Int.neg_nonneg_of_nonpos h)
    rw [Int.neg_tmod] at hneg
    omega

theorem neg (h : Truncated a b q r) : Truncated (-a) b (-q) (-r) where
  eq := by rw [h.eq, Int.mul_neg, Int.neg_add]
  small := by rw [Int.natAbs_neg]; exact h.small
  nonneg ha := by
    have := h.nonpos (by omega)
    omega
  nonpos ha := by
    have := h.nonneg (by omega)
    omega

/-- There is only one truncated quotient, and one remainder. -/
theorem unique (h : Truncated a b q r) : q = a.tdiv b ∧ r = a.tmod b := by
  -- a negative dividend has the opposite quotient and remainder of its opposite
  by_cases ha : 0 ≤ a
  · have hr := h.nonneg ha
    have hsmall := h.small
    obtain ⟨hq, hr⟩ := (Int.tdiv_tmod_unique ha h.ne_zero).2
      ⟨(Int.add_comm r _).trans h.eq.symm, hr, by omega⟩
    exact ⟨hq.symm, hr.symm⟩
  · have hneg : 0 ≤ -a := by omega
    have hr := h.neg.nonneg hneg
    have hsmall := h.neg.small
    obtain ⟨hq, hr⟩ := (Int.tdiv_tmod_unique hneg h.ne_zero).2
      ⟨(Int.add_comm (-r) _).trans h.neg.eq.symm, hr, by omega⟩
    rw [Int.neg_tdiv] at hq
    rw [Int.neg_tmod] at hr
    exact ⟨by omega, by omega⟩

end Truncated

/-- The operators of exact arithmetic. -/
inductive Arith where
  | add | sub | mul | quot | rem
deriving DecidableEq

namespace Arith

/-- How an operator is written. -/
def symbol : Arith → String
  | .add => "+"
  | .sub => "-"
  | .mul => "*"
  | .quot => "/"
  | .rem => "%"

/-- Whether an operator divides. -/
def divides : Arith → Prop
  | .quot | .rem => True
  | _ => False

/-- Whether `r` is the exact result of an operator between two integers. -/
def Exact (a b r : Int) : Arith → Prop
  | .add => r = a + b
  | .sub => r = a - b
  | .mul => r = a * b
  | .quot => ∃ s, Truncated a b r s
  | .rem => ∃ q, Truncated a b q r

variable {a b r r' : Int}

theorem exact_quot_iff : Exact a b r .quot ↔ b ≠ 0 ∧ r = a.tdiv b := by
  constructor
  · rintro ⟨s, h⟩
    exact ⟨h.ne_zero, h.unique.1⟩
  · rintro ⟨hb, rfl⟩
    exact ⟨_, .of_ne_zero a hb⟩

theorem exact_rem_iff : Exact a b r .rem ↔ b ≠ 0 ∧ r = a.tmod b := by
  constructor
  · rintro ⟨q, h⟩
    exact ⟨h.ne_zero, h.unique.2⟩
  · rintro ⟨hb, rfl⟩
    exact ⟨_, .of_ne_zero a hb⟩

/-- There is a result, except where zero would divide. -/
theorem exists_exact_iff {op : Arith} : (∃ r, Exact a b r op) ↔ ¬(op.divides ∧ b = 0) := by
  cases op with
  | add => exact ⟨fun _ h => h.1, fun _ => ⟨_, rfl⟩⟩
  | sub => exact ⟨fun _ h => h.1, fun _ => ⟨_, rfl⟩⟩
  | mul => exact ⟨fun _ h => h.1, fun _ => ⟨_, rfl⟩⟩
  | quot => simp [exact_quot_iff, divides]
  | rem => simp [exact_rem_iff, divides]

/-- There is at most one result. -/
theorem Exact.unique {op : Arith} (h : Exact a b r op) (h' : Exact a b r' op) : r = r' := by
  cases op with
  | add => exact h.trans h'.symm
  | sub => exact h.trans h'.symm
  | mul => exact h.trans h'.symm
  | quot => exact (exact_quot_iff.1 h).2.trans (exact_quot_iff.1 h').2.symm
  | rem => exact (exact_rem_iff.1 h).2.trans (exact_rem_iff.1 h').2.symm

end Arith

/-! ### Words -/

namespace Word

variable {a b : Int}

/-- The only quotient of words that is no word is that of the least by minus one. -/
theorem fits_tdiv (ha : fits a = true) : fits (a.tdiv b) = true ↔ ¬(a = -bound ∧ b = -1) := by
  constructor
  · rintro hfits ⟨rfl, rfl⟩
    exact absurd hfits (by decide)
  · intro hne
    rw [fits_iff] at ha ⊢
    by_cases hone : b.natAbs = 1
    · rcases Int.natAbs_eq b with hb | hb
      · have hb : b = 1 := by omega
        rw [hb, Int.tdiv_one]
        exact ha
      · have hb : b = -1 := by omega
        rw [hb, Int.tdiv_neg, Int.tdiv_one]
        omega
    · -- any other divisor halves the dividend at least
      have hhalf : (a.tdiv b).natAbs ≤ a.natAbs / 2 := by
        rw [Int.natAbs_tdiv]
        show a.natAbs / b.natAbs ≤ a.natAbs / 2
        by_cases hzero : b.natAbs = 0
        · rw [hzero, Nat.div_zero]
          exact Nat.zero_le _
        · exact Nat.div_le_div_left (by omega) (by decide)
      have : (0 : Int) < bound := by decide
      omega

end Word

/-! ### Running units -/

namespace Evaluator

variable {env : Evaluator} {a b : Int}

/-- Whether a computation answers the integer with a property, and fails where there is none.  It
    changes nothing in the running unit. -/
def Answers (env : Evaluator) (x : RunM Value) (P : Int → Prop) : Prop :=
  ∀ m : Machine, (∃ r, P r ∧ x.run m = (.ok (.int r), m)) ∨
    (∀ r, ¬P r) ∧ ∃ reason,
      x.run m = (.error (.unplaced "expand" (.expansionFailed env.unit.name reason)), m)

theorem answers_exactly {result : Option Int} {op : String} {P : Int → Prop}
    (h : ∀ r, P r ↔ result = some r ∧ Word.fits r = true) :
    env.Answers (env.exactly a op b result) P := by
  intro m
  rw [exactly]
  -- a result that is computed may still be no word
  cases hr : result.bind Word.exact with
  | some r =>
    obtain ⟨i, hi, hexact⟩ := Option.bind_eq_some_iff.1 hr
    obtain ⟨rfl, hfits⟩ := Word.exact_eq_some_iff.1 hexact
    exact .inl ⟨i, (h i).2 ⟨hi, Word.fits_iff.2 hfits⟩, rfl⟩
  | none =>
    refine .inr ⟨fun r hP => ?_, _, rfl⟩
    obtain ⟨rfl, hfits⟩ := (h r).1 hP
    have : (some r).bind Word.exact = some r :=
      Word.exact_eq_some_iff.2 ⟨rfl, Word.fits_iff.1 hfits⟩
    rw [hr] at this
    cases this

/-- Whether it is the remainder whose quotient is no word. -/
def Wide (op : Arith) (a b : Int) : Prop := op = .rem ∧ a = -Word.bound ∧ b = -1

theorem not_wide {op : Arith} (h : op ≠ .rem) : ¬Wide op a b := fun hw => h hw.1

/-- An operator answers its exact result, if this is a word. -/
theorem answers_intOperator (ha : Word.fits a = true) (op : Arith) :
    env.Answers (env.intOperator a op.symbol b)
      fun r => op.Exact a b r ∧ Word.fits r = true ∧ ¬Wide op a b := by
  cases op with
  | add =>
    refine answers_exactly fun r => ?_
    rw [and_iff_left (not_wide (by decide)), Option.some_inj, eq_comm (a := a + b)]
    rfl
  | sub =>
    refine answers_exactly fun r => ?_
    rw [and_iff_left (not_wide (by decide)), Option.some_inj, eq_comm (a := a - b)]
    rfl
  | mul =>
    refine answers_exactly fun r => ?_
    rw [and_iff_left (not_wide (by decide)), Option.some_inj, eq_comm (a := a * b)]
    rfl
  | quot =>
    refine answers_exactly fun r => ?_
    rw [and_iff_left (not_wide (by decide)), Arith.exact_quot_iff]
    by_cases hb : b = 0
    · simp [hb]
    · rw [if_neg hb, Option.some_inj, eq_comm (a := a.tdiv b), and_iff_right hb]
  | rem =>
    refine answers_exactly fun r => ?_
    rw [Arith.exact_rem_iff]
    by_cases hb : b = 0
    · simp [hb]
    · -- the quotient has to be a word, and then the remainder is one
      rw [if_neg hb, and_iff_right hb]
      by_cases hq : Word.fits (a.tdiv b) = true
      · have hw : ¬Wide .rem a b := fun hw => (Word.fits_tdiv ha).1 hq hw.2
        rw [Word.exact, if_pos hq, and_iff_left hw, Option.map_some, Option.some_inj,
          eq_comm (a := a.tmod b)]
      · have hw : Wide .rem a b := ⟨rfl, not_not.1 fun h => hq ((Word.fits_tdiv ha).2 h)⟩
        rw [Word.exact, if_neg hq]
        simp [hw]

/-- The change of sign answers the opposite integer, if this is a word. -/
theorem answers_negate (a : Int) :
    env.Answers (env.negate a) fun r => r = -a ∧ Word.fits r = true := by
  intro m
  rw [negate, Word.exact]
  by_cases h : Word.fits (-a) = true
  · rw [if_pos h]
    exact .inl ⟨-a, ⟨rfl, h⟩, rfl⟩
  · rw [if_neg h]
    refine .inr ⟨?_, _, rfl⟩
    rintro r ⟨rfl, hfits⟩
    exact h hfits

/-! ### Expansions -/

/-- Whether the expansion of a call goes on with an integer that has a property, or fails where
    there is none. -/
def Decides (env : Evaluator) (call : Node) (scopes : Scopes Node) (c : Config)
    (P : Int → Prop) : Prop :=
  (∃ r, P r ∧ env.step c = some (c.turn (.done (.ok (.int r))))) ∨
    (∀ r, ¬P r) ∧ ∃ reason, (env.unit.expand env.compiler call scopes).result =
      .error (.unplaced "expand" (.expansionFailed env.unit.name reason))

/-- What is carried out in an expansion decides how the expansion goes on. -/
theorem Answers.decides {x : RunM Value} {P : Int → Prop} (h : env.Answers x P) {call : Node}
    {scopes : Scopes Node} {c : Config} (hc : env.Reaches (env.start call scopes) c)
    (hstep : env.step c = some (c.carryOut x)) : env.Decides call scopes c P := by
  rcases h c.machine with ⟨r, hP, hrun⟩ | ⟨hnone, reason, hrun⟩
  · refine .inl ⟨r, hP, ?_⟩
    rw [hstep, Config.carryOut, hrun]
    rfl
  · refine .inr ⟨hnone, reason, ?_⟩
    rw [Config.carryOut, hrun] at hstep
    exact Reaches.result_eq (hc.tail hstep)

/-- Arithmetic in macros is exact or fails.  An operator that is sent to a word `a` with the
    argument `b` answers its exact result if there is one and it is a word, and the change of sign
    of `a` answers the opposite integer if it is a word; otherwise, and only then, they fail, and
    with them the whole expansion in which they are sent.  There is an exact result except where
    zero divides, and no more than one.  Only the remainder of the least word by minus one, which is
    zero, fails too. -/
theorem integers_exact (env : Evaluator) {a : Int} (ha : Word.fits a = true) (b : Int)
    (op : Arith) :
    let exact := fun r => op.Exact a b r ∧ Word.fits r = true ∧ ¬Wide op a b
    let opposite := fun r => r = -a ∧ Word.fits r = true
    ((∃ r, op.Exact a b r) ↔ ¬(op.divides ∧ b = 0)) ∧
    (∀ r r', op.Exact a b r → op.Exact a b r' → r = r') ∧
    env.Answers (env.send (.int a) op.symbol [.int b]) exact ∧
    env.Answers (env.send (.int a) "-@" []) opposite ∧
    ∀ (call : Node) (scopes : Scopes Node) (c : Config), env.Reaches (env.start call scopes) c →
      (c.focus = .arguments (.send (.int a) op.symbol) [.int b] [] →
        env.Decides call scopes c exact) ∧
      (c.focus = .arguments (.send (.int a) "-@") [] [] →
        env.Decides call scopes c opposite) := by
  intro exact opposite
  have hop : env.Answers (env.send (.int a) op.symbol [.int b]) exact := by
    have hsend : env.send (.int a) op.symbol [.int b] = env.intOperator a op.symbol b := by
      cases op <;> rfl
    rw [hsend]
    exact answers_intOperator ha op
  have hneg : env.Answers (env.send (.int a) "-@" []) opposite := answers_negate a
  refine ⟨Arith.exists_exact_iff, fun r r' => Arith.Exact.unique, hop, hneg, ?_⟩
  intro call scopes c hc
  obtain ⟨focus, K, d, m⟩ := c
  constructor
  · intro hfocus
    cases hfocus
    exact hop.decides hc rfl
  · intro hfocus
    cases hfocus
    exact hneg.decides hc rfl

/-- A remainder with the sign of its dividend, and the quotient that is no word. -/
theorem integers_exact_least :
    let env : Evaluator := ⟨.named "Unit", fun _ _ _ => pure ⟨Span.zero, .nil⟩⟩
    let least := -Word.bound
    Word.fits (-7) = true ∧ Word.fits least = true ∧
    (∀ m, (env.send (.int (-7)) "%" [.int 2]).run m = (.ok (.int (-1)), m)) ∧
    ∀ m, ∃ reason, (env.send (.int least) "/" [.int (-1)]).run m =
      (.error (.unplaced "expand" (.expansionFailed "Unit" reason)), m) := by
  intro env least
  have hseven : Word.fits (-7) = true := by decide
  have hleast : Word.fits least = true := by decide
  refine ⟨hseven, hleast, ?_, ?_⟩
  · intro m
    obtain ⟨-, hunique, hop, -⟩ := integers_exact env hseven 2 .rem
    have hexact : Arith.rem.Exact (-7) 2 (-1) :=
      ⟨-3, by decide, by decide, by decide, by decide⟩
    rcases hop m with ⟨r, ⟨hr, -⟩, hrun⟩ | ⟨hnone, -⟩
    · rw [hunique (-1) r hexact hr]
      exact hrun
    · exact absurd ⟨hexact, by decide, fun hw => absurd hw.2.2 (by decide)⟩ (hnone (-1))
  · intro m
    obtain ⟨-, -, hop, -⟩ := integers_exact env hleast (-1) .quot
    rcases hop m with ⟨r, ⟨hr, hfits, -⟩, -⟩ | ⟨-, reason, hrun⟩
    · rw [(Arith.exact_quot_iff.1 hr).2] at hfits
      exact absurd hfits (by decide)
    · exact ⟨reason, hrun⟩

end Evaluator

end Quasiquote
