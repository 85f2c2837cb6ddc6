import Quasiquote.Proofs.Node.Parts
import Quasiquote.Proofs.Program
import Quasiquote.Proofs.Program.Phrases

namespace Quasiquote

/-!
# Splices — trees around values

A tree that is read at an anchor is made of nodes that stand at the anchor, and of values that
were put in for placeholders.  A value stays in one piece, unless a command takes the `do` block
of its last argument: then the call and the block are two pieces.

* `Spliced`, `SplicedAll` — trees of nodes at an anchor, and of pieces in order;
* `Cut` — values in order, and the pieces that are made of them;
* `Spliced.takeDoBlock`, `SplicedAll.takeLastDoBlock` — a block that a command takes goes behind
  the other pieces;
* `Reading.Same` — trees that differ in their spans only, one of them spliced together.
-/

open Reading (takeDoBlock takeLastDoBlock)

mutual

/-- A tree of nodes that stand at `a`, and of pieces that may stand anywhere.  The pieces are
    listed in source order. -/
inductive Spliced (a : Span) : Node → List Node → Prop where
  | piece (v : Node) : Spliced a v [v]
  | text {f : Form} {ps : List Node} : SplicedAll a (Node.mk a f).parts ps → Spliced a ⟨a, f⟩ ps

/-- Trees of nodes that stand at `a`, and of pieces. -/
inductive SplicedAll (a : Span) : List Node → List Node → Prop where
  | nil : SplicedAll a [] []
  | cons {n : Node} {ns ps qs : List Node} :
    Spliced a n ps → SplicedAll a ns qs → SplicedAll a (n :: ns) (ps ++ qs)

end

/-- Values and the pieces that are made of them, in order.  A call may be cut off from its `do`
    block. -/
inductive Cut : List Node → List Node → Prop where
  | nil : Cut [] []
  | whole (v : Node) {vs ps : List Node} : Cut vs ps → Cut (v :: vs) (v :: ps)
  | split {v w b : Node} {vs ps : List Node} :
    takeDoBlock v = (w, some b) → Cut vs ps → Cut (v :: vs) (w :: b :: ps)

variable {a : Span} {n m v w b : Node} {ns ms vs ws ps qs front : List Node}

/-! ### Lists of trees -/

namespace SplicedAll

theorem append (h : SplicedAll a ns ps) (h' : SplicedAll a ms qs) :
    SplicedAll a (ns ++ ms) (ps ++ qs) := by
  induction ns generalizing ps with
  | nil =>
    cases h
    exact h'
  | cons n ns ih =>
    obtain _ | ⟨hn, hns⟩ := h
    rw [List.append_assoc]
    exact .cons hn (ih hns)

theorem single (h : Spliced a n ps) : SplicedAll a [n] ps := by
  rw [← List.append_nil ps]
  exact .cons h .nil

theorem of_single (h : SplicedAll a [n] ps) : Spliced a n ps := by
  obtain _ | ⟨hn, hns⟩ := h
  cases hns
  exact (List.append_nil _).symm ▸ hn

theorem exists_of_append (h : SplicedAll a (ns ++ ms) ps) :
    ∃ qs rs, SplicedAll a ns qs ∧ SplicedAll a ms rs ∧ ps = qs ++ rs := by
  induction ns generalizing ps with
  | nil => exact ⟨[], ps, .nil, h, rfl⟩
  | cons n ns ih =>
    obtain _ | ⟨hn, hns⟩ := h
    obtain ⟨qs, rs, hqs, hrs, rfl⟩ := ih hns
    exact ⟨_, rs, .cons hn hqs, hrs, (List.append_assoc _ _ _).symm⟩

end SplicedAll

/-! ### Pieces -/

/-- What is taken from a call is a `do` block. -/
theorem takeDoBlock_some (h : takeDoBlock v = (w, some b)) :
    ∃ s params body, b = ⟨s, .block params body false⟩ := by
  unfold Reading.takeDoBlock at h
  split at h <;> cases h <;> exact ⟨_, _, _, rfl⟩

namespace Cut

theorem append (h : Cut vs ps) (h' : Cut ws qs) : Cut (vs ++ ws) (ps ++ qs) := by
  induction h with
  | nil => exact h'
  | whole v _ ih => exact .whole v ih
  | split hv _ ih => exact .split hv ih

/-- The last piece can still be cut if it has a `do` block. -/
theorem split_last (h : Cut vs (front ++ [v])) (hv : takeDoBlock v = (w, some b)) :
    Cut vs (front ++ [w, b]) := by
  generalize hps : front ++ [v] = ps at h
  induction h generalizing front with
  | nil => simp at hps
  | whole u hrest ih =>
    cases front with
    | nil =>
      cases hps
      exact .split hv hrest
    | cons x front =>
      obtain ⟨rfl, hrest⟩ : x = u ∧ front ++ [v] = _ := by simpa using hps
      exact .whole x (ih hrest)
  | split hu hrest ih =>
    rcases front with _ | ⟨x, _ | ⟨y, front⟩⟩
    · cases hps
    · -- the last piece is a block, which has no block
      obtain ⟨s, params, body, rfl⟩ := takeDoBlock_some hu
      cases hps
      cases hv
    · obtain ⟨rfl, rfl, hrest⟩ : x = _ ∧ y = _ ∧ front ++ [v] = _ := by simpa using hps
      exact .split hu (ih hrest)

end Cut

/-! ### Blocks that commands take -/

theorem takeDoBlock_eq_self (h : (takeDoBlock n).2 = none) : (takeDoBlock n).1 = n := by
  unfold Reading.takeDoBlock at h ⊢
  split at h
  · cases h
  · cases h
  · rfl

theorem Spliced.takeDoBlock (h : Spliced a n ps) (hcut : Cut vs (front ++ ps)) :
    ∃ qs rs, Spliced a (takeDoBlock n).1 qs ∧ SplicedAll a (takeDoBlock n).2.toList rs ∧
      Cut vs (front ++ (qs ++ rs)) := by
  cases htake : (Reading.takeDoBlock n).2 with
  | none =>
    refine ⟨ps, [], ?_, .nil, by rwa [List.append_nil]⟩
    rw [takeDoBlock_eq_self htake]
    exact h
  | some b =>
    cases h with
    | piece => exact ⟨[_], [b], .piece _, .single (.piece b), hcut.split_last (by rw [← htake])⟩
    | text hparts =>
      -- a call of the text gives its last part away
      revert htake
      unfold Reading.takeDoBlock
      split
      · rename_i s target name args bs params body heq
        cases heq
        intro htake
        cases htake
        have hsplit : SplicedAll a ((target :: args) ++ [⟨bs, .block params body false⟩]) ps :=
          hparts
        obtain ⟨qs, rs, hqs, hrs, rfl⟩ := hsplit.exists_of_append
        exact ⟨qs, rs, .text (by simpa [Node.parts, Node.children] using hqs), hrs, hcut⟩
      · rename_i s name args bs params body heq
        cases heq
        intro htake
        cases htake
        have hsplit : SplicedAll a (args ++ [⟨bs, .block params body false⟩]) ps := hparts
        obtain ⟨qs, rs, hqs, hrs, rfl⟩ := hsplit.exists_of_append
        exact ⟨qs, rs, .text (by simpa [Node.parts, Node.children] using hqs), hrs, hcut⟩
      · rintro ⟨⟩

/-- A command takes the block of its last argument. -/
theorem SplicedAll.takeLastDoBlock (h : SplicedAll a ns ps) (hcut : Cut vs (front ++ ps)) :
    ∃ qs rs, SplicedAll a (takeLastDoBlock ns).1 qs ∧
      SplicedAll a (takeLastDoBlock ns).2.toList rs ∧ Cut vs (front ++ (qs ++ rs)) := by
  fun_induction Reading.takeLastDoBlock ns generalizing front ps with
  | case1 => exact ⟨ps, [], h, .nil, by rwa [List.append_nil]⟩
  | case2 n n' block heq =>
    obtain ⟨qs, rs, hqs, hrs, hcut⟩ := h.of_single.takeDoBlock hcut
    rw [heq] at hqs hrs
    exact ⟨qs, rs, .single hqs, hrs, hcut⟩
  | case3 n ns hne ns' block heq ih =>
    obtain _ | ⟨hn, hns⟩ := h
    rw [← List.append_assoc] at hcut
    obtain ⟨qs, rs, hqs, hrs, hcut⟩ := ih hns hcut
    rw [heq] at hqs hrs
    exact ⟨_, rs, .cons hn hqs, hrs, by simpa [List.append_assoc] using hcut⟩

namespace Reading

/-! ### Trees that differ in their spans -/

section Same

variable (a : Span)

/-- Trees that differ in their spans only.  The second one is spliced together at `a`. -/
def Same (m n : Node) (ps : List Node) : Prop := m.unplaced = n.unplaced ∧ Spliced a n ps

def SameAll (ms ns ps : List Node) : Prop :=
  Node.unplacedAll ms = Node.unplacedAll ns ∧ SplicedAll a ns ps

def SameOpt (m n : Option Node) (ps : List Node) : Prop :=
  Node.unplacedOpt m = Node.unplacedOpt n ∧ SplicedAll a n.toList ps

def SameParams (xs ys : List Parameter) (ps : List Node) : Prop :=
  Node.unplacedParams xs = Node.unplacedParams ys ∧
    SplicedAll a (ys.filterMap Parameter.default) ps

/-- Bodies that differ in their spans only. -/
def SameBody (m n : Node) (ps : List Node) : Prop :=
  ∃ s xs ys, m = ⟨s, .body xs⟩ ∧ n = ⟨a, .body ys⟩ ∧ SameAll a xs ys ps

/-- Blocks that differ in their spans only. -/
def SameBlock (m n : Node) (ps : List Node) : Prop :=
  ∃ s params b b' brace, m = ⟨s, .block params b brace⟩ ∧ n = ⟨a, .block params b' brace⟩ ∧
    Same a b b' ps

variable {a} {s : Span} {m n v w t t' : Node} {ms ns ps qs rs vs : List Node} {b b' : Option Node}
  {name : String}

theorem Same.piece (v : Node) : Same a v v [v] := ⟨rfl, .piece v⟩

/-- Nodes of the text without parts. -/
theorem Same.leaf {f : Form} (hf : (Node.mk a f).parts = []) : Same a ⟨s, f⟩ ⟨a, f⟩ [] := by
  refine ⟨?_, .text (by rw [hf]; exact .nil)⟩
  cases f <;> rfl

theorem SameAll.nil : SameAll a [] [] [] := ⟨rfl, .nil⟩

theorem SameAll.cons (h : Same a m n ps) (hs : SameAll a ms ns qs) :
    SameAll a (m :: ms) (n :: ns) (ps ++ qs) :=
  ⟨by rw [Node.unplacedAll, Node.unplacedAll, h.1, hs.1], .cons h.2 hs.2⟩

theorem SameAll.single (h : Same a m n ps) : SameAll a [m] [n] ps :=
  ⟨by simp only [Node.unplacedAll, h.1], .single h.2⟩

theorem SameOpt.none : SameOpt a none none [] := ⟨rfl, .nil⟩

theorem SameOpt.some (h : Same a m n ps) : SameOpt a (some m) (some n) ps :=
  ⟨by rw [Node.unplacedOpt, Node.unplacedOpt, h.1], .single h.2⟩

theorem Same.assign (h : Same a v w ps) : Same a ⟨s, .assign name v⟩ ⟨a, .assign name w⟩ ps :=
  ⟨by simp only [Node.unplaced, h.1], .text (.single h.2)⟩

theorem Same.fieldAssign (h : Same a v w ps) :
    Same a ⟨s, .fieldAssign name v⟩ ⟨a, .fieldAssign name w⟩ ps :=
  ⟨by simp only [Node.unplaced, h.1], .text (.single h.2)⟩

theorem Same.call (ht : Same a t t' ps) (hargs : SameAll a ms ns qs) (hb : SameOpt a b b' rs) :
    Same a ⟨s, .call t name ms b⟩ ⟨a, .call t' name ns b'⟩ (ps ++ (qs ++ rs)) :=
  ⟨by simp only [Node.unplaced, ht.1, hargs.1, hb.1], .text (.cons ht.2 (hargs.2.append hb.2))⟩

theorem Same.invoke (hargs : SameAll a ms ns qs) (hb : SameOpt a b b' rs) :
    Same a ⟨s, .invoke name ms b⟩ ⟨a, .invoke name ns b'⟩ (qs ++ rs) :=
  ⟨by simp only [Node.unplaced, hargs.1, hb.1], .text (hargs.2.append hb.2)⟩

theorem Same.cond (ht : Same a t t' ps) (hy : Same a v w qs) (hn : SameOpt a b b' rs) :
    Same a ⟨s, .cond t v b⟩ ⟨a, .cond t' w b'⟩ (ps ++ (qs ++ rs)) :=
  ⟨by simp only [Node.unplaced, ht.1, hy.1, hn.1], .text (.cons ht.2 (.cons hy.2 hn.2))⟩

theorem Same.body (h : SameAll a ms ns ps) : Same a ⟨s, .body ms⟩ ⟨a, .body ns⟩ ps :=
  ⟨by simp only [Node.unplaced, h.1], .text h.2⟩

theorem Same.block {params : List String} {brace : Bool} (h : Same a v w ps) :
    Same a ⟨s, .block params v brace⟩ ⟨a, .block params w brace⟩ ps :=
  ⟨by simp only [Node.unplaced, h.1], .text (.single h.2)⟩

theorem Same.classDef {superclass : Option String} (h : Same a v w ps) :
    Same a ⟨s, .classDef name superclass v⟩ ⟨a, .classDef name superclass w⟩ ps :=
  ⟨by simp only [Node.unplaced, h.1], .text (.single h.2)⟩

theorem Same.methodDef {xs ys : List Parameter} {returns : Option String}
    (hp : SameParams a xs ys ps) (h : Same a v w qs) :
    Same a ⟨s, .methodDef name xs returns v⟩ ⟨a, .methodDef name ys returns w⟩ (ps ++ qs) :=
  ⟨by simp only [Node.unplaced, hp.1, h.1], .text (hp.2.append (.single h.2))⟩

theorem Same.quote (h : Same a v w ps) : Same a ⟨s, .quote v⟩ ⟨a, .quote w⟩ ps :=
  ⟨by simp only [Node.unplaced, h.1], .text (.single h.2)⟩

theorem Same.unquote (h : Same a v w ps) : Same a ⟨s, .unquote v⟩ ⟨a, .unquote w⟩ ps :=
  ⟨by simp only [Node.unplaced, h.1], .text (.single h.2)⟩

theorem SameBody.same (h : SameBody a m n ps) : Same a m n ps := by
  obtain ⟨s, xs, ys, rfl, rfl, h⟩ := h
  exact .body h

theorem SameBlock.same (h : SameBlock a m n ps) : Same a m n ps := by
  obtain ⟨s, params, b, b', brace, rfl, rfl, h⟩ := h
  exact .block h

/-- A body of the text that has one statement stands for it. -/
theorem SameBody.collapse (h : SameBody a m n ps) : Same a m.collapse n.collapse ps := by
  refine ⟨by rw [Node.unplaced_collapse, h.same.1, Node.unplaced_collapse], ?_⟩
  obtain ⟨s, xs, ys, rfl, rfl, h⟩ := h
  rcases ys with _ | ⟨y, _ | ⟨y', ys⟩⟩
  · exact .text h.2
  · exact h.2.of_single
  · exact .text h.2

theorem unplaced_takeDoBlock (n : Node) : takeDoBlock n.unplaced =
    ((takeDoBlock n).1.unplaced, Node.unplacedOpt (takeDoBlock n).2) := by
  obtain ⟨s, f⟩ := n
  cases f with
  | call target name args block | invoke name args block =>
    rcases block with _ | ⟨bs, f⟩
    · rfl
    · cases f with
      | block params body brace => cases brace <;> rfl
      | _ => rfl
  | _ => rfl

theorem unplacedAll_takeLastDoBlock (ns : List Node) : takeLastDoBlock (Node.unplacedAll ns) =
    (Node.unplacedAll (takeLastDoBlock ns).1, Node.unplacedOpt (takeLastDoBlock ns).2) := by
  fun_induction takeLastDoBlock ns with
  | case1 => rfl
  | case2 n n' block heq =>
    simp only [Node.unplacedAll, takeLastDoBlock, unplaced_takeDoBlock, heq]
  | case3 n ns hne ns' block heq ih =>
    cases ns with
    | nil => exact absurd rfl hne
    | cons n' ns =>
      rw [Node.unplacedAll, Node.unplacedAll, takeLastDoBlock, ← Node.unplacedAll, ih, heq]
      · rfl
      · simp

/-- A command that takes the block of its last argument, whether that is of the text or not. -/
theorem Same.command (h : SameAll a ms ns ps) (hcut : Cut vs ps) :
    ∃ qs, Cut vs qs ∧ Same a (command s name ms none) (command a name ns none) qs := by
  have hcut' : Cut vs ([] ++ ps) := hcut
  obtain ⟨qs, rs, hargs, hblock, hcut⟩ := h.2.takeLastDoBlock hcut'
  have hunplaced := unplacedAll_takeLastDoBlock ms
  rw [h.1, unplacedAll_takeLastDoBlock, Prod.mk.injEq] at hunplaced
  exact ⟨qs ++ rs, hcut, .invoke ⟨hunplaced.1.symm, hargs⟩ ⟨hunplaced.2.symm, hblock⟩⟩

end Same

/-! ### Lines of operators -/

section Operators

/-- Operands, signs included, that differ in the spans of their nodes and signs. -/
inductive SameOperand (a : Span) : List Operand → List Operand → List Node → Prop where
  | value {m n : Node} {ps : List Node} :
    Same a m n ps → SameOperand a [.value m] [.value n] ps
  | sign {name : String} {sp : Span} {os os' : List Operand} {ps : List Node} :
    SameOperand a os os' ps → SameOperand a (.sign name sp :: os) (.sign name a :: os') ps

/-- Lines of operators that differ in their spans. -/
inductive SameLine (a : Span) : List Operand → List Operand → List Node → Prop where
  | one {os os' : List Operand} {ps : List Node} : SameOperand a os os' ps → SameLine a os os' ps
  | more {name : String} {os os' rest rest' : List Operand} {ps qs : List Node} :
    SameOperand a os os' ps → SameLine a rest rest' qs →
      SameLine a (os ++ .operator name :: rest) (os' ++ .operator name :: rest') (ps ++ qs)

/-- The operators of two lines and the values behind them. -/
inductive SamePairs (a : Span) :
    List (String × Node) → List (String × Node) → List Node → Prop where
  | nil : SamePairs a [] [] []
  | cons {name : String} {m n : Node} {xs ys : List (String × Node)} {ps qs : List Node} :
    Same a m n ps → SamePairs a xs ys qs →
      SamePairs a ((name, m) :: xs) ((name, n) :: ys) (ps ++ qs)

/-- The open operators of two lines and the values before them, the last one first. -/
inductive SamePending (a : Span) :
    List (Node × String) → List (Node × String) → List Node → Prop where
  | nil : SamePending a [] [] []
  | cons {name : String} {m n : Node} {xs ys : List (Node × String)} {ps qs : List Node} :
    SamePending a xs ys ps → Same a m n qs →
      SamePending a ((m, name) :: xs) ((n, name) :: ys) (ps ++ qs)

variable {a : Span} (place : Span → Span → Span) {os os' rest rest' : List Operand}
  {xs ys : List (String × Node)} {pending pending' : List (Node × String)} {m n : Node}
  {ps qs rs : List Node}

/-- An operand is a value once its signs are applied. -/
theorem SameOperand.applySigns (h : SameOperand a os os' ps) (rest rest' : List Operand) :
    ∃ m n, Same a m n ps ∧
    Operand.applySigns place (os ++ rest) = .value m :: Operand.applySigns place rest ∧
    Operand.applySigns (fun _ _ => a) (os' ++ rest') =
      .value n :: Operand.applySigns (fun _ _ => a) rest' := by
  induction h with
  | value h => exact ⟨_, _, h, rfl, rfl⟩
  | @sign name sp os os' ps _ ih =>
    obtain ⟨m, n, h, hm, hn⟩ := ih
    refine ⟨⟨place sp m.span, .call m name [] none⟩, ⟨a, .call n name [] none⟩, ?_, ?_, ?_⟩
    · simpa using Same.call h .nil .none
    · rw [List.cons_append, Operand.applySigns, hm]
    · rw [List.cons_append, Operand.applySigns, hn]

/-- A line is a value and operators with values behind them once all signs are applied. -/
theorem SameLine.applySigns (h : SameLine a os os' ps) : ∃ m n xs ys qs rs,
    Same a m n qs ∧ SamePairs a xs ys rs ∧ ps = qs ++ rs ∧
    (∃ more, Operand.applySigns place os = .value m :: more ∧ Operand.pairs more = xs) ∧
    ∃ more, Operand.applySigns (fun _ _ => a) os' = .value n :: more ∧ Operand.pairs more = ys := by
  induction h with
  | @one os os' ps h =>
    obtain ⟨m, n, h, hm, hn⟩ := h.applySigns place [] []
    rw [List.append_nil] at hm hn
    exact ⟨m, n, [], [], ps, [], h, .nil, (List.append_nil _).symm, ⟨[], hm, rfl⟩, [], hn, rfl⟩
  | @more name os os' rest rest' ps qs h _ ih =>
    obtain ⟨m', n', xs, ys, ps', qs', hfirst, hpairs, rfl, ⟨more, hm', rfl⟩, more', hn', rfl⟩ := ih
    obtain ⟨m, n, h, hm, hn⟩ := h.applySigns place
      (.operator name :: rest) (.operator name :: rest')
    have hoperator (place : Span → Span → Span) (rest : List Operand) :
        Operand.applySigns place (.operator name :: rest) =
          .operator name :: Operand.applySigns place rest := rfl
    rw [hoperator, hm'] at hm
    rw [hoperator, hn'] at hn
    exact ⟨m, n, (name, m') :: Operand.pairs more, (name, n') :: Operand.pairs more', ps,
      ps' ++ qs', h, .cons hfirst hpairs, rfl, ⟨_, hm, rfl⟩, _, hn, rfl⟩

theorem SamePending.reduce (level : Nat) (hp : SamePending a pending pending' qs)
    (h : Same a m n rs) : ∃ ps ps',
      SamePending a (Operand.reduce place level pending m).1
        (Operand.reduce (fun _ _ => a) level pending' n).1 ps ∧
      Same a (Operand.reduce place level pending m).2
        (Operand.reduce (fun _ _ => a) level pending' n).2 ps' ∧ qs ++ rs = ps ++ ps' := by
  induction hp generalizing m n rs with
  | nil => exact ⟨[], rs, .nil, h, rfl⟩
  | @cons name lhs lhs' xs ys ps qs hxs hlhs ih =>
    rw [Operand.reduce, Operand.reduce]
    split
    · have happly : Same a (Operand.apply place lhs name m)
          (Operand.apply (fun _ _ => a) lhs' name n) (qs ++ (rs ++ [])) :=
        Same.call hlhs (.single h) .none
      obtain ⟨ps', rs', hpending, hlast, heq⟩ := ih happly
      exact ⟨ps', rs', hpending, hlast, by rw [← heq]; simp⟩
    · exact ⟨ps ++ qs, rs, .cons hxs hlhs, h, rfl⟩

/-- All operators are closed at the end of a line. -/
theorem reduce_zero (place : Span → Span → Span) (pending : List (Node × String)) (n : Node) :
    (Operand.reduce place 0 pending n).1 = [] := by
  induction pending generalizing n with
  | nil => rfl
  | cons p pending ih => rw [Operand.reduce, if_pos (Nat.zero_le _), ih]

theorem SamePairs.group (hpairs : SamePairs a xs ys rs) (hp : SamePending a pending pending' ps)
    (h : Same a m n qs) : Same a (Operand.group place pending m xs)
      (Operand.group (fun _ _ => a) pending' n ys) (ps ++ (qs ++ rs)) := by
  induction hpairs generalizing pending pending' m n ps qs with
  | nil =>
    obtain ⟨ps', qs', hpending, hlast, heq⟩ := hp.reduce place 0 h
    rw [reduce_zero, reduce_zero] at hpending
    cases hpending
    rw [List.append_nil, heq, List.nil_append]
    exact hlast
  | @cons name m' n' xs ys qs' rs' hm' _ ih =>
    obtain ⟨ps', qs'', hpending, hlast, heq⟩ := hp.reduce place (Operator.level name) h
    have hopen : SamePending a ((_, name) :: _) ((_, name) :: _) (ps' ++ qs'') :=
      .cons hpending hlast
    rw [← heq] at hopen
    have hgroup := ih hopen hm'
    rw [List.append_assoc] at hgroup
    exact hgroup

/-- Lines that differ in their spans make trees that differ in their spans. -/
theorem SameLine.tree (h : SameLine a os os' ps) : ∃ m n, Operand.tree place os = some m ∧
    Operand.tree (fun _ _ => a) os' = some n ∧ Same a m n ps := by
  obtain ⟨m, n, xs, ys, qs, rs, hfirst, hpairs, rfl, ⟨more, hm, rfl⟩, more', hn, rfl⟩ :=
    h.applySigns place
  refine ⟨_, _, ?_, ?_, hpairs.group place .nil hfirst⟩
  · rw [Operand.tree, hm]
  · rw [Operand.tree, hn]

end Operators

end Reading

end Quasiquote
