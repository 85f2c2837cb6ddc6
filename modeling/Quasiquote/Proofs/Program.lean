import Quasiquote.Program
import Quasiquote.Proofs.Node.Unquoted
import Quasiquote.Proofs.State

namespace Quasiquote

/-!
# Programs that are read — texts make no markers

The grammar has no phrase for the marker of a failure, so a text without placeholders is
read as a tree without markers.

* `Reading.Gives` — what holds of every result of reading;
* `Reading.ReadsBelow` — the hypothesis of the induction on the size of phrases;
* `Operand.markerFree_tree` — the tree of a line of operators is made of its values;
* `Reading.gives_node`, `Program.markerFree_of_parse` — no phrase, and no text, is read as a
  tree with markers.
-/

namespace Operand

variable (place : Span → Span → Span)

theorem markerFree_applySigns {line : List Operand} (h : ∀ n, .value n ∈ line → n.MarkerFree) :
    ∀ n, .value n ∈ applySigns place line → n.MarkerFree := by
  fun_induction applySigns place line with
  | case1 => exact h
  | case2 name span rest v more heq ih =>
    have hrest := ih fun n hn => h n (List.mem_cons_of_mem _ hn)
    rw [heq] at hrest
    intro n hn
    rcases List.mem_cons.1 hn with hn | hn
    · cases hn
      have hv : v.MarkerFree := hrest v List.mem_cons_self
      exact Node.holds_call.2 ⟨rfl, hv, by simp, by simp⟩
    · exact hrest n (List.mem_cons_of_mem _ hn)
  | case3 name span rest _ ih => exact ih fun n hn => h n (List.mem_cons_of_mem _ hn)
  | case4 o rest _ ih =>
    intro n hn
    rcases List.mem_cons.1 hn with hn | hn
    · exact h n (hn ▸ List.mem_cons_self)
    · exact ih (fun n hn => h n (List.mem_cons_of_mem _ hn)) n hn

theorem value_of_mem_pairs {line : List Operand} {p : String × Node} (hp : p ∈ pairs line) :
    .value p.2 ∈ line := by
  fun_induction pairs line with
  | case1 name v rest ih =>
    rcases List.mem_cons.1 hp with rfl | hp
    · simp
    · exact List.mem_cons_of_mem _ (List.mem_cons_of_mem _ (ih hp))
  | case2 => cases hp

theorem markerFree_apply {lhs rhs : Node} (name : String) (hl : lhs.MarkerFree)
    (hr : rhs.MarkerFree) : (apply place lhs name rhs).MarkerFree :=
  Node.holds_call.2 ⟨rfl, hl, fun n hn => List.mem_singleton.1 hn ▸ hr, by simp⟩

theorem markerFree_reduce (level : Nat) {pending : List (Node × String)} {rhs : Node}
    (hp : ∀ p ∈ pending, p.1.MarkerFree) (hr : rhs.MarkerFree) :
    (∀ p ∈ (reduce place level pending rhs).1, p.1.MarkerFree) ∧
      (reduce place level pending rhs).2.MarkerFree := by
  fun_induction reduce place level pending rhs with
  | case1 => exact ⟨hp, hr⟩
  | case2 lhs name pending rhs' _ ih =>
    have hl : lhs.MarkerFree := hp (lhs, name) List.mem_cons_self
    exact ih (fun p hp' => hp p (List.mem_cons_of_mem _ hp')) (markerFree_apply place name hl hr)
  | case3 => exact ⟨hp, hr⟩

theorem markerFree_group {pending : List (Node × String)} {last : Node}
    {rest : List (String × Node)} (hp : ∀ p ∈ pending, p.1.MarkerFree) (hl : last.MarkerFree)
    (hrest : ∀ p ∈ rest, p.2.MarkerFree) : (group place pending last rest).MarkerFree := by
  induction rest generalizing pending last with
  | nil => exact (markerFree_reduce place 0 hp hl).2
  | cons q rest ih =>
    obtain ⟨hpending, hlhs⟩ := markerFree_reduce place (Operator.level q.1) hp hl
    refine ih (fun p hp' => ?_) (hrest q List.mem_cons_self)
      fun p hp' => hrest p (List.mem_cons_of_mem _ hp')
    rcases List.mem_cons.1 hp' with rfl | hp'
    · exact hlhs
    · exact hpending p hp'

/-- The tree of a line of operators is made of its values. -/
theorem markerFree_tree {line : List Operand} (h : ∀ n, .value n ∈ line → n.MarkerFree) {n : Node}
    (hn : tree place line = some n) : n.MarkerFree := by
  have hsigns := markerFree_applySigns place h
  unfold tree at hn
  split at hn
  · rename_i v rest heq
    rw [heq] at hsigns
    cases hn
    refine markerFree_group place (fun p hp => by cases hp) (hsigns v List.mem_cons_self) fun p hp => ?_
    exact hsigns p.2 (List.mem_cons_of_mem _ (value_of_mem_pairs hp))
  · cases hn

end Operand

namespace Reading

/-- What holds of every result of reading. -/
def Gives {α : Type} (x : Reader α) (P : α → Prop) : Prop :=
  ∀ scopes a scopes', x.run scopes = (.ok a, scopes') → P a

namespace Gives

variable {α β : Type} {P : α → Prop} {Q : β → Prop}

theorem pure {a : α} (h : P a) : Gives (Pure.pure a) P := by
  intro s b s' hb
  cases hb
  exact h

theorem throw (e : Diagnostic) : Gives (MonadExcept.throw e : Reader α) P := by
  intro s b s' hb
  cases hb

theorem bind {x : Reader α} {f : α → Reader β} (hx : Gives x P) (hf : ∀ a, P a → Gives (f a) Q) :
    Gives (x >>= f) Q := by
  intro s b s' hb
  rw [run_bind_apply] at hb
  split at hb
  · rename_i a s₁ ha
    exact hf a (hx s a s₁ ha) s₁ b s' hb
  · cases hb

end Gives

/-! ### Trees without markers -/

theorem markerFree_collapse {n : Node} (h : n.MarkerFree) : n.collapse.MarkerFree := by
  unfold Node.collapse
  split
  · rename_i s item
    exact (Node.holds_body.1 h).2 item List.mem_cons_self
  · exact h

theorem markerFree_takeDoBlock {n : Node} (h : n.MarkerFree) :
    (takeDoBlock n).1.MarkerFree ∧ ∀ b ∈ (takeDoBlock n).2, b.MarkerFree := by
  unfold takeDoBlock
  split
  · obtain ⟨-, htarget, hargs, hblock⟩ := Node.holds_call.1 h
    exact ⟨Node.holds_call.2 ⟨rfl, htarget, hargs, by simp⟩, hblock⟩
  · obtain ⟨-, hargs, hblock⟩ := Node.holds_invoke.1 h
    exact ⟨Node.holds_invoke.2 ⟨rfl, hargs, by simp⟩, hblock⟩
  · exact ⟨h, by simp⟩

theorem markerFree_takeLastDoBlock {ns : List Node} (h : ∀ n ∈ ns, n.MarkerFree) :
    (∀ n ∈ (takeLastDoBlock ns).1, n.MarkerFree) ∧ ∀ b ∈ (takeLastDoBlock ns).2, b.MarkerFree := by
  fun_induction takeLastDoBlock ns with
  | case1 => exact ⟨h, by simp⟩
  | case2 n n' block heq =>
    have hn := markerFree_takeDoBlock (h n List.mem_cons_self)
    rw [heq] at hn
    exact ⟨by simpa using hn.1, hn.2⟩
  | case3 n ns _ ns' block heq ih =>
    have hns := ih fun m hm => h m (List.mem_cons_of_mem _ hm)
    rw [heq] at hns
    refine ⟨fun m hm => ?_, hns.2⟩
    rcases List.mem_cons.1 hm with rfl | hm
    · exact h m List.mem_cons_self
    · exact hns.1 m hm

theorem markerFree_command {s : Span} {name : String} {args : List Node} {block : Option Node}
    (hargs : ∀ n ∈ args, n.MarkerFree) (hblock : ∀ b ∈ block, b.MarkerFree) :
    (command s name args block).MarkerFree := by
  cases block with
  | some block => exact Node.holds_invoke.2 ⟨rfl, hargs, hblock⟩
  | none => exact Node.holds_invoke.2 ⟨rfl, markerFree_takeLastDoBlock hargs⟩

/-! ### Phrases -/

variable {env : Reading}

theorem gives_integer (text : String) (s : Span) : Gives (env.integer text s) Node.MarkerFree := by
  unfold integer
  split
  · exact .pure ((Node.holds_leaf rfl).2 rfl)
  · exact .throw _

/-- Where placeholders have no values, none is read. -/
theorem gives_placeholderValue (h : env.resolves = false) (digits : String) (s : Span) :
    Gives (env.placeholderValue digits s) Node.MarkerFree := by
  unfold placeholderValue
  rw [h]
  dsimp only
  split
  · exact .throw _
  · exact .throw _

/-- Whether phrases that are smaller than a bound are read as trees without markers. -/
def ReadsBelow (env : Reading) (n : Nat) : Prop :=
  ∀ p : Phrase Rule, sizeOf p < n → Gives (env.node p) Node.MarkerFree

namespace ReadsBelow

variable {n : Nat}

theorem nodes (h : env.ReadsBelow n) : ∀ ps : List (Phrase Rule), sizeOf ps ≤ n →
    Gives (env.nodes ps) fun ns => ∀ n ∈ ns, n.MarkerFree
  | [], _ => by
    unfold Reading.nodes
    exact .pure (by simp)
  | p :: ps, hsize => by
    simp only [List.cons.sizeOf_spec] at hsize
    unfold Reading.nodes
    refine .bind (h p (by omega)) fun n hn => .bind (h.nodes ps (by omega)) fun ns hns => .pure ?_
    exact List.forall_mem_cons.2 ⟨hn, hns⟩

theorem operands (h : env.ReadsBelow n) : ∀ ps : List (Phrase Rule), sizeOf ps ≤ n →
    Gives (env.operands ps) fun os => ∀ n, .value n ∈ os → n.MarkerFree
  | ps, hsize => by
    unfold Reading.operands
    split
    case h_1 => exact .pure (by simp)
    all_goals simp only [List.cons.sizeOf_spec] at hsize
    case h_2 more | h_3 more | h_4 more =>
      exact .bind (h.operands more (by omega)) fun os hos => .pure (by simpa using hos)
    case h_5 p more _ _ _ =>
      refine .bind (h p (by omega)) fun n hn => .bind (h.operands more (by omega)) fun os hos =>
        .pure fun m hm => ?_
      rcases List.mem_cons.1 hm with hm | hm
      · cases hm
        exact hn
      · exact hos m hm
termination_by ps => sizeOf ps

theorem chain (h : env.ReadsBelow n) {target : Node} (ht : target.MarkerFree) :
    ∀ ps : List (Phrase Rule), sizeOf ps ≤ n → Gives (env.chain target ps) Node.MarkerFree
  | ps, hsize => by
    unfold Reading.chain
    split
    case h_1 => exact .pure ht
    case h_6 => exact .throw _
    all_goals simp only [List.cons.sizeOf_spec, Phrase.mk.sizeOf_spec] at hsize
    case h_2 more => exact h.chain (Node.holds_call.2 ⟨rfl, ht, by simp, by simp⟩) more (by omega)
    case h_3 args more =>
      refine .bind (h.nodes args (by omega)) fun ns hns => ?_
      exact h.chain (Node.holds_call.2 ⟨rfl, ht, hns, by simp⟩) more (by omega)
    case h_4 block more _ =>
      refine .bind (h block (by omega)) fun b hb => h.chain ?_ more (by omega)
      exact Node.holds_call.2 ⟨rfl, ht, by simp, fun m hm => Option.some.inj hm ▸ hb⟩
    case h_5 args block more =>
      refine .bind (h.nodes args (by omega)) fun ns hns => .bind (h block (by omega)) fun b hb =>
        h.chain ?_ more (by omega)
      exact Node.holds_call.2 ⟨rfl, ht, hns, fun m hm => Option.some.inj hm ▸ hb⟩
termination_by ps => sizeOf ps

theorem otherwise (h : env.ReadsBelow n) : ∀ ps : List (Phrase Rule), sizeOf ps ≤ n →
    Gives (env.otherwise ps) fun n => ∀ b ∈ n, b.MarkerFree
  | ps, hsize => by
    unfold Reading.otherwise
    split
    case h_1 => exact .pure (by simp)
    case h_4 => exact .throw _
    all_goals simp only [List.cons.sizeOf_spec, Phrase.mk.sizeOf_spec] at hsize
    case h_2 test body more =>
      refine .bind (h test (by omega)) fun t ht => .bind (h body (by omega)) fun y hy =>
        .bind (h.otherwise more (by omega)) fun n hn => .pure fun m hm => ?_
      exact Option.some.inj hm ▸ Node.holds_cond.2 ⟨rfl, ht, markerFree_collapse hy, hn⟩
    case h_3 body _ =>
      exact .bind (h body (by omega)) fun n hn =>
        .pure fun m hm => Option.some.inj hm ▸ markerFree_collapse hn
termination_by ps => sizeOf ps

theorem parameter (h : env.ReadsBelow n) (s : Span) (name : String) (type : Option String)
    (block : Bool) : ∀ ps : List (Phrase Rule), sizeOf ps ≤ n →
      Gives (env.parameter s name type block ps) fun p => ∀ d ∈ p.default, d.MarkerFree
  | ps, hsize => by
    unfold Reading.parameter
    split
    case h_1 => exact .pure (by simp [Parameter.default])
    all_goals simp only [List.cons.sizeOf_spec] at hsize
    case h_2 text _ more => exact h.parameter s name (some text) block more (by omega)
    case h_3 value _ _ =>
      exact .bind (h value (by omega)) fun n hn => .pure fun m hm => Option.some.inj hm ▸ hn
termination_by ps => sizeOf ps

theorem parameters (h : env.ReadsBelow n) : ∀ ps : List (Phrase Rule), sizeOf ps ≤ n →
    Gives (env.parameters ps) fun ps => ∀ p ∈ ps, ∀ d ∈ p.default, d.MarkerFree
  | ps, hsize => by
    unfold Reading.parameters
    split
    case h_1 => exact .pure (by simp)
    case h_4 => exact .throw _
    all_goals simp only [List.cons.sizeOf_spec, Phrase.mk.sizeOf_spec] at hsize
    all_goals
      rename_i rest more
      refine .bind (h.parameter _ _ none _ rest (by omega)) fun p hp =>
        .bind (h.parameters more (by omega)) fun ps hps => .pure ?_
      exact List.forall_mem_cons.2 ⟨hp, hps⟩
termination_by ps => sizeOf ps

theorem method (h : env.ReadsBelow n) (s : Span) (name : String) {params : List Parameter}
    (hp : ∀ p ∈ params, ∀ d ∈ p.default, d.MarkerFree) (returns : Option String) :
    ∀ ps : List (Phrase Rule), sizeOf ps ≤ n →
      Gives (env.method s name params returns ps) Node.MarkerFree
  | ps, hsize => by
    unfold Reading.method
    split
    case h_1 => exact .pure (Node.holds_methodDef.2 ⟨rfl, hp, Node.holds_body.2 ⟨rfl, by simp⟩⟩)
    all_goals simp only [List.cons.sizeOf_spec, Phrase.mk.sizeOf_spec] at hsize
    case h_2 list more =>
      exact .bind (h.parameters list (by omega)) fun params hp =>
        h.method s name hp returns more (by omega)
    case h_3 type _ more => exact h.method s name hp (some type) more (by omega)
    case h_4 body _ _ _ =>
      exact .bind (h body (by omega)) fun n hn => .pure (Node.holds_methodDef.2 ⟨rfl, hp, hn⟩)
termination_by ps => sizeOf ps

/-- A phrase is read as a tree without markers if all smaller ones are. -/
theorem node (h : env.ReadsBelow n) (henv : env.resolves = false) (rule : Rule) (s : Span)
    (text : String) (parts : List (Phrase Rule)) (hsize : sizeOf parts ≤ n) :
    Gives (env.node ⟨rule, s, text, parts⟩) Node.MarkerFree := by
  have hleaf {f : Form} (hf : f.isMarker = false)
      (hparts : (⟨env.place s, f⟩ : Node).children = []) :
      Gives (pure ⟨env.place s, f⟩) Node.MarkerFree :=
    .pure ((Node.holds_leaf hparts).2 hf)
  unfold Reading.node
  split
  case h_36 => exact .throw _
  -- literals and names
  case h_9 | h_10 | h_11 | h_12 | h_13 | h_14 | h_15 | h_16 | h_17 | h_23 | h_24 =>
    exact hleaf rfl rfl
  case h_8 => exact gives_integer text s
  -- bodies and operators, which may have any number of parts
  case h_1 => exact .bind (h.nodes parts hsize) fun ns hns => .pure (Node.holds_body.2 ⟨rfl, hns⟩)
  case h_6 =>
    refine .bind (h.operands parts hsize) fun os hos => ?_
    split
    · rename_i n hn
      exact .pure (Operand.markerFree_tree env.cover hos hn)
    · exact .throw _
  all_goals simp only [List.cons.sizeOf_spec, Phrase.mk.sizeOf_spec] at hsize
  -- assignments and conditionals
  case h_2 _ value =>
    exact .bind (h value (by omega)) fun n hn => .pure (Node.holds_fieldAssign.2 ⟨rfl, hn⟩)
  case h_3 _ value _ =>
    exact .bind (h value (by omega)) fun n hn => .pure (Node.holds_assign.2 ⟨rfl, hn⟩)
  case h_4 test => exact h test (by omega)
  case h_5 test yes no =>
    refine .bind (h test (by omega)) fun t ht => .bind (h yes (by omega)) fun y hy =>
      .bind (h no (by omega)) fun n hn => .pure ?_
    exact Node.holds_cond.2 ⟨rfl, ht, hy, fun m hm => Option.some.inj hm ▸ hn⟩
  case h_32 test body clauses =>
    refine .bind (h test (by omega)) fun t ht => .bind (h body (by omega)) fun y hy =>
      .bind (h.otherwise clauses (by omega)) fun n hn => .pure ?_
    exact Node.holds_cond.2 ⟨rfl, ht, markerFree_collapse hy, hn⟩
  -- chains and calls
  case h_7 first suffixes =>
    exact .bind (h first (by omega)) fun n hn => h.chain hn suffixes (by omega)
  case h_18 inside =>
    refine .bind (h inside (by omega)) fun n hn => ?_
    split
    · exact hleaf rfl rfl
    · exact .pure (markerFree_collapse hn)
  case h_19 args =>
    exact .bind (h.nodes args (by omega)) fun ns hns =>
      .pure (Node.holds_invoke.2 ⟨rfl, hns, by simp⟩)
  case h_20 args block =>
    refine .bind (h.nodes args (by omega)) fun ns hns => .bind (h block (by omega)) fun b hb =>
      .pure ?_
    exact Node.holds_invoke.2 ⟨rfl, hns, fun m hm => Option.some.inj hm ▸ hb⟩
  case h_21 args =>
    exact .bind (h.nodes args (by omega)) fun ns hns => .pure (markerFree_command hns (by simp))
  case h_22 args block =>
    refine .bind (h.nodes args (by omega)) fun ns hns => .bind (h block (by omega)) fun b hb =>
      .pure ?_
    exact markerFree_command hns fun m hm => Option.some.inj hm ▸ hb
  case h_25 body | h_26 body | h_27 body | h_28 body =>
    exact .bind (h body (by omega)) fun n hn => .pure (Node.holds_block.2 ⟨rfl, hn⟩)
  -- quoted bodies and holes
  case h_29 block =>
    refine .bind (h block (by omega)) fun n _ => ?_
    split
    · exact .pure (Node.holds_quote.2 rfl)
    · exact .pure (Node.holds_quote.2 rfl)
  case h_30 digits _ => exact gives_placeholderValue henv digits s
  case h_31 inside _ =>
    exact .bind (h inside (by omega)) fun n hn => .pure (Node.holds_unquote.2 ⟨rfl, hn⟩)
  -- definitions
  case h_33 body | h_34 body =>
    exact .bind (h body (by omega)) fun n hn => .pure (Node.holds_classDef.2 ⟨rfl, hn⟩)
  case h_35 name _ rest => exact h.method (env.place s) name (by simp) none rest (by omega)

end ReadsBelow

/-- Where placeholders have no values, no phrase is read as a tree with markers. -/
theorem gives_node (h : env.resolves = false) (p : Phrase Rule) :
    Gives (env.node p) Node.MarkerFree := by
  have hbelow (n : Nat) : env.ReadsBelow n := by
    induction n with
    | zero => exact fun p hp => absurd hp (Nat.not_lt_zero _)
    | succ n ih =>
      rintro ⟨rule, s, text, parts⟩ hp
      simp only [Phrase.mk.sizeOf_spec] at hp
      exact ih.node h rule s text parts (by omega)
  exact hbelow _ p (Nat.lt_succ_self _)

/-- Where placeholders have no values, no text is read as a tree with markers. -/
theorem gives_program (h : env.resolves = false) (text : String) :
    Gives (env.program text) Node.MarkerFree := by
  unfold program
  split
  · exact .throw _
  · exact gives_node h _
  · exact .throw _

end Reading

/-- **Lemma.** A text without placeholders is read as a tree without markers. -/
theorem Program.markerFree_of_parse {source text : String} {anchor : Option Span} {n : Node}
    (h : Program.parse source text anchor = .ok n) : n.MarkerFree := by
  have hgives : Reading.Gives (Reading.program { source, anchor } text) Node.MarkerFree :=
    Reading.gives_program rfl text
  exact hgives [] n _ (Prod.ext h rfl)

end Quasiquote
