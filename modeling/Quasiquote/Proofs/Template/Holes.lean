import Quasiquote.Node.Printer
import Quasiquote.Proofs.Node.Parts
import Quasiquote.Proofs.State

namespace Quasiquote

/-!
# Holes — what a quoted tree leaves open

The holes of a quoted tree are filled when the quote is evaluated.  Printing the tree as a template
captures the values of its holes, in order, and leaves their numbers in the text.  A hole inside a
further quote belongs to that quote.

* `Node.holes` — the values of the holes, in order;
* `Node.refill` — a quoted tree with other values in its holes;
* `Node.Visits` — whether an operation comes upon these trees, in order;
* `Node.extract_printTemplate` — a template captures the values of the holes, and its text is that
  of the tree with their numbers in their places.
-/

namespace Node

mutual

/-- The values of the holes of a quoted tree, in order.  Quotes inside the tree keep theirs. -/
def holes : Node → List Node
  | ⟨_, .unquote v⟩ => [v]
  | ⟨_, .assign _ v⟩ | ⟨_, .fieldAssign _ v⟩ => holes v
  | ⟨_, .call target _ args block⟩ => holes target ++ (holesAll args ++ holesOpt block)
  | ⟨_, .invoke _ args block⟩ => holesAll args ++ holesOpt block
  | ⟨_, .cond test yes no⟩ => holes test ++ (holes yes ++ holesOpt no)
  | ⟨_, .body items⟩ => holesAll items
  | ⟨_, .block _ body _⟩ | ⟨_, .classDef _ _ body⟩ => holes body
  | ⟨_, .methodDef _ params _ body⟩ => holesParams params ++ holes body
  | ⟨_, .macroDef _ args body _⟩ => holesArgs args ++ holes body
  | _ => []

/-- The holes of several quoted trees. -/
def holesAll : List Node → List Node
  | [] => []
  | n :: ns => holes n ++ holesAll ns

/-- The holes of a quoted tree that may be absent. -/
def holesOpt : Option Node → List Node
  | none => []
  | some n => holes n

/-- The holes in the defaults of quoted parameters. -/
def holesParams : List Parameter → List Node
  | [] => []
  | ⟨_, _, default, _⟩ :: ps => holesOpt default ++ holesParams ps

/-- The holes in the defaults of quoted macro arguments. -/
def holesArgs : List Argument → List Node
  | [] => []
  | .required _ :: args => holesArgs args
  | .optional _ default :: args => holes default ++ holesArgs args
  | .block _ _ :: args => holesArgs args

end

/-- Several trees have the holes of each. -/
theorem holesAll_eq (ns : List Node) : holesAll ns = ns.flatMap holes := by
  induction ns with
  | nil => rfl
  | cons n ns ih => rw [holesAll, ih, List.flatMap_cons]

theorem holesOpt_eq (n : Option Node) : holesOpt n = n.toList.flatMap holes := by
  cases n with
  | none => rfl
  | some n => rw [holesOpt, Option.toList_some, List.flatMap_singleton]

theorem holesParams_eq (ps : List Parameter) :
    holesParams ps = (ps.filterMap Parameter.default).flatMap holes := by
  induction ps with
  | nil => rfl
  | cons p ps ih =>
    obtain ⟨name, type, default, block⟩ := p
    cases default <;> simp [holesParams, holesOpt, ih, List.filterMap_cons]

/-- A tree that is no hole and no quote has the holes of its parts.  Of a macro definition only the
    text knows the parts. -/
theorem holes_eq {n : Node} (hquote : ∀ body, n.form ≠ .quote body)
    (hunquote : ∀ v, n.form ≠ .unquote v)
    (hdef : ∀ name args body id, n.form ≠ .macroDef name args body id) :
    n.holes = n.children.flatMap holes := by
  obtain ⟨s, f⟩ := n
  cases f
  case quote body => exact absurd rfl (hquote body)
  case unquote v => exact absurd rfl (hunquote v)
  case macroDef name args body id => exact absurd rfl (hdef name args body id)
  all_goals simp [holes, children, holesAll_eq, holesOpt_eq, holesParams_eq]

/-- What is left of a definition has no holes. -/
theorem holes_of_isNoop {n : Node} (h : n.isNoop = true) : n.holes = [] := by
  obtain ⟨s, f⟩ := n
  cases f <;> first | rfl | cases h

/-- The holes of a tree are those of its statements, and what is left of a definition has none. -/
theorem holesAll_statements (n : Node) :
    holesAll (n.statements.filter fun s => !s.isNoop) = n.holes := by
  have hstatements : holesAll n.statements = n.holes := by
    obtain ⟨s, f⟩ := n
    cases f <;> simp [statements, holes, holesAll]
  rw [← hstatements]
  induction n.statements with
  | nil => rfl
  | cons c ns ih =>
    by_cases hc : c.isNoop = true
    · simp [hc, ih, holesAll, holes_of_isNoop hc]
    · simp [hc, ih, holesAll]

/-! ### Other values -/

mutual

/-- A quoted tree with other values in its holes, in order. -/
def refill : Node → List Node → Node
  | ⟨s, .unquote v⟩ => fun vs => ⟨s, .unquote (vs.headD v)⟩
  | ⟨s, .assign name v⟩ => fun vs => ⟨s, .assign name (refill v vs)⟩
  | ⟨s, .fieldAssign name v⟩ => fun vs => ⟨s, .fieldAssign name (refill v vs)⟩
  | ⟨s, .call target name args block⟩ => fun vs =>
    let us := vs.drop (holes target).length
    ⟨s, .call (refill target (vs.take (holes target).length)) name
      (refillAll args (us.take (holesAll args).length))
      (refillOpt block (us.drop (holesAll args).length))⟩
  | ⟨s, .invoke name args block⟩ => fun vs =>
    ⟨s, .invoke name (refillAll args (vs.take (holesAll args).length))
      (refillOpt block (vs.drop (holesAll args).length))⟩
  | ⟨s, .cond test yes no⟩ => fun vs =>
    let us := vs.drop (holes test).length
    ⟨s, .cond (refill test (vs.take (holes test).length))
      (refill yes (us.take (holes yes).length)) (refillOpt no (us.drop (holes yes).length))⟩
  | ⟨s, .body items⟩ => fun vs => ⟨s, .body (refillAll items vs)⟩
  | ⟨s, .block params body brace⟩ => fun vs => ⟨s, .block params (refill body vs) brace⟩
  | ⟨s, .classDef name superclass body⟩ => fun vs =>
    ⟨s, .classDef name superclass (refill body vs)⟩
  | ⟨s, .methodDef name params returns body⟩ => fun vs =>
    ⟨s, .methodDef name (refillParams params (vs.take (holesParams params).length)) returns
      (refill body (vs.drop (holesParams params).length))⟩
  | ⟨s, .macroDef name args body id⟩ => fun vs =>
    ⟨s, .macroDef name (refillArgs args (vs.take (holesArgs args).length))
      (refill body (vs.drop (holesArgs args).length)) id⟩
  | n => fun _ => n

/-- Several quoted trees with other values in their holes. -/
def refillAll : List Node → List Node → List Node
  | [] => fun _ => []
  | n :: ns => fun vs => refill n (vs.take (holes n).length) ::
    refillAll ns (vs.drop (holes n).length)

/-- A quoted tree that may be absent, with other values in its holes. -/
def refillOpt : Option Node → List Node → Option Node
  | none => fun _ => none
  | some n => fun vs => some (refill n vs)

/-- Quoted parameters with other values in the holes of their defaults. -/
def refillParams : List Parameter → List Node → List Parameter
  | [] => fun _ => []
  | ⟨name, type, default, block⟩ :: ps => fun vs =>
    ⟨name, type, refillOpt default (vs.take (holesOpt default).length), block⟩ ::
      refillParams ps (vs.drop (holesOpt default).length)

/-- Quoted macro arguments with other values in the holes of their defaults. -/
def refillArgs : List Argument → List Node → List Argument
  | [] => fun _ => []
  | .required name :: args => fun vs => .required name :: refillArgs args vs
  | .optional name default :: args => fun vs =>
    .optional name (refill default (vs.take (holes default).length)) ::
      refillArgs args (vs.drop (holes default).length)
  | .block name optional :: args => fun vs => .block name optional :: refillArgs args vs

end

/-- The values that a tree has fill it as it is. -/
theorem refill_holes :
    (∀ n, refill n (holes n) = n) ∧
    (∀ args, refillArgs args (holesArgs args) = args) ∧
    (∀ ps, refillParams ps (holesParams ps) = ps) ∧
    (∀ n, refillOpt n (holesOpt n) = n) ∧
    (∀ ns, refillAll ns (holesAll ns) = ns) := by
  apply holes.mutual_induct
  all_goals intros
  all_goals simp_all [refill, refillAll, refillOpt, refillParams, refillArgs,
    holes, holesAll, holesOpt, holesParams, holesArgs]

/-- The holes of a tree that is filled with other values have these values. -/
theorem holes_refill :
    (∀ n vs, vs.length = (holes n).length → holes (refill n vs) = vs) ∧
    (∀ args vs, vs.length = (holesArgs args).length → holesArgs (refillArgs args vs) = vs) ∧
    (∀ ps vs, vs.length = (holesParams ps).length → holesParams (refillParams ps vs) = vs) ∧
    (∀ n vs, vs.length = (holesOpt n).length → holesOpt (refillOpt n vs) = vs) ∧
    (∀ ns vs, vs.length = (holesAll ns).length → holesAll (refillAll ns vs) = vs) := by
  apply holes.mutual_induct
  case case1 =>
    intro s v vs h
    obtain ⟨w, rfl⟩ := List.length_eq_one_iff.1 h
    rfl
  all_goals intros
  all_goals simp_all [refill, refillAll, refillOpt, refillParams, refillArgs,
    holes, holesAll, holesOpt, holesParams, holesArgs]
  -- with three parts the values are cut twice
  case case4 ih _ h | case6 ih _ h =>
    rw [ih _ (by simp only [List.length_drop]; omega), ← List.drop_drop, List.take_append_drop,
      List.take_append_drop]

section Shape

variable (n : Node) (vs : List Node)

@[simp] theorem isLoose_refill : (n.refill vs).isLoose = n.isLoose := by
  obtain ⟨s, f⟩ := n
  cases f <;> rfl

@[simp] theorem isBlock_refill : (n.refill vs).isBlock = n.isBlock := by
  obtain ⟨s, f⟩ := n
  cases f <;> rfl

@[simp] theorem isNoop_refill : (n.refill vs).isNoop = n.isNoop := by
  obtain ⟨s, f⟩ := n
  cases f <;> rfl

@[simp] theorem length_refillAll (ns : List Node) : (refillAll ns vs).length = ns.length := by
  induction ns generalizing vs with
  | nil => rfl
  | cons n ns ih => simp [refillAll, ih]

@[simp] theorem isSome_refillOpt (n : Option Node) : (refillOpt n vs).isSome = n.isSome := by
  cases n <;> rfl

end Shape

/-- The statements of a tree that is filled are its statements, filled. -/
theorem statements_refill {n : Node} {vs : List Node} (h : vs.length = n.holes.length) :
    (n.refill vs).statements.filter (fun s => !s.isNoop) =
      refillAll (n.statements.filter fun s => !s.isNoop) vs := by
  have hfilter : ∀ (ns vs : List Node), (refillAll ns vs).filter (fun s => !s.isNoop) =
      refillAll (ns.filter fun s => !s.isNoop) vs := by
    intro ns
    induction ns with
    | nil => exact fun _ => rfl
    | cons n ns ih =>
      intro vs
      by_cases hn : n.isNoop = true
      · simp [refillAll, hn, ih, holes_of_isNoop hn]
      · simp [refillAll, hn, ih]
  have hstatements : (n.refill vs).statements = refillAll n.statements vs := by
    obtain ⟨s, items, rfl⟩ | ⟨hrefill, hn⟩ : (∃ s items, n = ⟨s, .body items⟩) ∨
        (n.refill vs).statements = [n.refill vs] ∧ n.statements = [n] := by
      obtain ⟨s, f⟩ := n
      cases f <;> first | exact .inl ⟨_, _, rfl⟩ | exact .inr ⟨rfl, rfl⟩
    · rfl
    · simp only [hrefill, hn, refillAll, List.take_of_length_le (Nat.le_of_eq h)]
  rw [hstatements, hfilter]

/-! ### Operations that come upon holes -/

section Visits

variable {m : Type → Type} [Monad m] [LawfulMonad m] {α β γ : Type} {f : Node → m α}

/-- Whether an operation comes upon these trees, in order, and upon no others: it does the same to
    each of them, and `g` makes its answer from theirs. -/
def Visits (f : Node → m α) (vs : List Node) (x : m β) (g : List α → β) : Prop :=
  x = do let as ← vs.mapM f; return g as

/-- What is done with the answers of a traversal may rely on their number. -/
theorem mapM_bind_congr (f : Node → m α) {vs : List Node} {k k' : List α → m β}
    (h : ∀ as, as.length = vs.length → k as = k' as) : vs.mapM f >>= k = vs.mapM f >>= k' := by
  induction vs generalizing k k' with
  | nil => simpa using h [] rfl
  | cons v vs ih =>
    simp only [List.mapM_cons, bind_assoc, pure_bind]
    refine bind_congr fun a => ih fun as has => h _ ?_
    rw [List.length_cons, List.length_cons, has]

namespace Visits

theorem pure (b : β) : Visits f [] (Pure.pure b) fun _ => b := by
  simp [Visits]

theorem one {v : Node} {h : α → β} {g : List α → β} (hg : ∀ a, g [a] = h a) :
    Visits f [v] (do return h (← f v)) g := by
  simp [Visits, hg]

theorem congr {vs : List Node} {x : m β} {g g' : List α → β} (hx : Visits f vs x g)
    (h : ∀ as, as.length = vs.length → g as = g' as) : Visits f vs x g' :=
  Eq.trans hx (mapM_bind_congr f fun as has => by rw [h as has])

theorem bind {us vs : List Node} {x : m β} {k : β → m γ} {g : List α → β} {g' : β → List α → γ}
    (hx : Visits f us x g) (hk : ∀ b, Visits f vs (k b) (g' b)) :
    Visits f (us ++ vs) (x >>= k)
      fun as => g' (g (as.take us.length)) (as.drop us.length) := by
  unfold Visits at hx hk ⊢
  simp only [hx, hk, List.mapM_append, bind_assoc, pure_bind]
  refine mapM_bind_congr f fun as has => bind_congr fun bs => ?_
  rw [← has, List.take_left, List.drop_left]

/-- A last step that comes upon no tree. -/
theorem map {vs : List Node} {x : m β} {g : List α → β} {h : β → γ} (hx : Visits f vs x g) :
    Visits f vs (do return h (← x)) fun as => h (g as) := by
  unfold Visits at hx ⊢
  simp [hx]

end Visits

/-! ### Printing templates -/

/-- What a hole leaves in a text that gives names to the values of holes. -/
def leaveName (name : Node → m String) (v : Node) : m String := do
  return "`" ++ (← name v) ++ "`"

/-- What stands for the values of holes in a text that gives names to them. -/
def idents (names : List String) : List Node := names.map fun x => ⟨Span.zero, .ident x⟩

@[simp] theorem idents_take (k : Nat) (names : List String) :
    idents (names.take k) = (idents names).take k := List.map_take

@[simp] theorem idents_drop (k : Nat) (names : List String) :
    idents (names.drop k) = (idents names).drop k := List.map_drop

omit [LawfulMonad m] in
/-- The text of a node is that of its form. -/
theorem textM_eq (outer : Option (Node → m String)) (indent : Nat) (n : Node) :
    textM outer indent n = formM outer indent n.form := by
  obtain ⟨s, f⟩ := n
  rw [textM, form_mk]

/-- Printing does nothing but answer a text where no holes are left. -/
theorem texts_of_none :
    (∀ (outer : Option (Node → m String)) indent f, outer = none →
      formM outer indent f = pure (formM (m := Id) none indent f)) ∧
    (∀ (outer : Option (Node → m String)) indent args, outer = none →
      argsM outer indent args = pure (argsM (m := Id) none indent args)) ∧
    (∀ (outer : Option (Node → m String)) indent n, outer = none →
      textM outer indent n = pure (textM (m := Id) none indent n)) ∧
    (∀ (outer : Option (Node → m String)) indent ps, outer = none →
      paramsM outer indent ps = pure (paramsM (m := Id) none indent ps)) ∧
    (∀ (outer : Option (Node → m String)) indent n, outer = none →
      linesOfM outer indent n = pure (linesOfM (m := Id) none indent n)) ∧
    (∀ (outer : Option (Node → m String)) indent ns, outer = none →
      linesM outer indent ns = pure (linesM (m := Id) none indent ns)) ∧
    (∀ (outer : Option (Node → m String)) indent n, outer = none →
      blockM outer indent n = pure (blockM (m := Id) none indent n)) ∧
    (∀ (outer : Option (Node → m String)) indent ns, outer = none →
      textsM outer indent ns = pure (textsM (m := Id) none indent ns)) := by
  apply formM.mutual_induct
  case case4 =>
    intro outer indent span f hbody hnoop ih h
    unfold linesOfM
    split
    · exact absurd rfl (hbody _)
    · exact absurd rfl hnoop
    · rw [ih h]; simp; rfl
  -- what is printed of the parts is known, and nothing is done between them
  all_goals intros
  all_goals simp_all [formM, textM, linesOfM, linesM, textsM, blockM, paramsM, argsM]
  all_goals rfl

/-- Printing comes upon the values of the holes, and answers what it would answer without them if
    their names stood in their places. -/
theorem visits_texts (name : Node → m String) :
    (∀ outer indent f, outer = some (leaveName name) → ∀ s,
      Visits name (holes ⟨s, f⟩) (formM outer indent f)
        fun as => formM (m := Id) none indent (refill ⟨s, f⟩ (idents as)).form) ∧
    (∀ outer indent args, outer = some (leaveName name) →
      Visits name (holesArgs args) (argsM outer indent args)
        fun as => argsM (m := Id) none indent (refillArgs args (idents as))) ∧
    (∀ outer indent n, outer = some (leaveName name) →
      Visits name (holes n) (textM outer indent n)
        fun as => textM (m := Id) none indent (refill n (idents as))) ∧
    (∀ outer indent ps, outer = some (leaveName name) →
      Visits name (holesParams ps) (paramsM outer indent ps)
        fun as => paramsM (m := Id) none indent (refillParams ps (idents as))) ∧
    (∀ outer indent n, outer = some (leaveName name) →
      Visits name (holes n) (linesOfM outer indent n)
        fun as => linesOfM (m := Id) none indent (refill n (idents as))) ∧
    (∀ outer indent ns, outer = some (leaveName name) →
      Visits name (holesAll ns) (linesM outer indent ns)
        fun as => linesM (m := Id) none indent (refillAll ns (idents as))) ∧
    (∀ outer indent n, outer = some (leaveName name) →
      Visits name (holesOpt n) (blockM outer indent n)
        fun as => blockM (m := Id) none indent (refillOpt n (idents as))) ∧
    (∀ outer indent ns, outer = some (leaveName name) →
      Visits name (holesAll ns) (textsM outer indent ns)
        fun as => textsM (m := Id) none indent (refillAll ns (idents as))) := by
  apply formM.mutual_induct
  case case1 =>
    intro outer indent span f ih h
    rw [textM]
    exact .congr (ih h span) fun as _ => (textM_eq none indent _).symm
  case case4 =>
    intro outer indent span f hbody hnoop ih h
    have hf := ih h span
    unfold linesOfM
    split
    · exact absurd rfl (hbody _)
    · exact absurd rfl hnoop
    · refine .congr hf.map fun as _ => ?_
      cases f <;> first | rfl | exact absurd rfl (hbody _) | exact absurd rfl hnoop
  case case26 =>
    -- the holes of a further quote are printed like everything else
    intro outer indent body ih h s
    rw [formM, texts_of_none.2.2.2.2.1 none (indent + 1) body rfl]
    exact .map (.pure _)
  case case27 =>
    intro indent v leave h s
    obtain rfl := Option.some.inj h
    rw [formM]
    exact .one fun a => rfl
  all_goals intros
  all_goals first
    | rw [formM] | rw [textM] | rw [linesOfM] | rw [linesM]
    | rw [textsM] | rw [blockM] | rw [paramsM] | rw [argsM]
  case case2 ih h => exact ih h
  -- one part
  case case12 ih h _ | case14 ih h _ | case20 ih h _ | case21 ih h _ | case23 ih h _ =>
    exact (ih h).map
  case case42 ih h | case44 ih h => exact (ih h).map
  case case40 ih h =>
    rw [pure_bind]
    exact (ih h).map
  -- two parts
  case case17 ih ih' h _ | case24 ih ih' h _ | case25 ih ih' h _ =>
    refine .congr ((ih h).bind fun _ => (ih' h).map) fun as _ => ?_
    simp [refill, formM]
    rfl
  case case18 ih ih' h _ =>
    refine .congr ((ih h).bind fun _ => (ih' h).bind fun _ => .pure _) fun as _ => ?_
    simp [refill, refillOpt, formM]
    rfl
  case case32 ih ih' h | case34 ih ih' h | case43 ih ih' h =>
    refine .congr ((ih h).bind fun _ => (ih' h).map) fun as _ => ?_
    simp [refillAll, refillArgs, textsM, linesM, argsM]
    rfl
  case case39 ih ih' h =>
    simp only [pure_bind]
    refine .congr ((ih' h).bind fun _ => (ih h).map) fun as _ => ?_
    simp [refillParams, paramsM]
    rfl
  -- three parts
  case case16 target name args block ih ih' ih'' h _ =>
    refine .congr ((ih h).bind fun _ => (ih' h).bind fun _ => (ih'' h).map) fun as _ => ?_
    -- a name stands between two texts only if there is exactly one argument
    rcases args with _ | ⟨arg, _ | ⟨arg', args⟩⟩
    · simp [refill, refillAll, formM]
      rfl
    · simp [refill, refillAll, formM, textsM]
      cases callStyle name 1 block.isSome <;> simp <;> rfl
    · simp [refill, refillAll, formM, textsM]
      cases callStyle name _ block.isSome <;> rfl
  case case19 ih ih' ih'' h _ =>
    refine .congr ((ih h).bind fun _ => (ih' h).bind fun _ => (ih'' h).map) fun as _ => ?_
    simp [refill, formM]
    rfl
  -- a block is printed as it is, anything else between braces
  case case36 hblock ih h =>
    rw [if_pos hblock]
    refine .congr (ih h) fun as _ => ?_
    rw [refillOpt, blockM, if_pos (by rwa [isBlock_refill])]
  case case37 hblock ih h =>
    rw [if_neg hblock]
    refine .congr (ih h).map fun as _ => ?_
    rw [refillOpt, blockM, if_neg (by rwa [isBlock_refill])]
    rfl
  case case28 h _ => cases h
  all_goals exact .pure _

/-- Printing a program comes upon the values of its holes, and answers what it would answer without
    them if their names stood in their places. -/
theorem visits_programM (name : Node → m String) (n : Node) :
    Visits name n.holes (programM (some (leaveName name)) n)
      fun as => (n.refill (idents as)).print := by
  have htexts := (visits_texts name).2.2.2.2.2.2.2 _ 0
    (n.statements.filter fun s => !s.isNoop) rfl
  rw [holesAll_statements] at htexts
  refine .congr htexts.map fun as has => ?_
  rw [← statements_refill (by rwa [idents, List.length_map])]
  rfl

end Visits

/-- The name that an ordinal has in a template text. -/
def ordinalName (i : Nat) : String := "$" ++ toString i

/-- What stands for the values of the first `n` holes in a template: their numbers. -/
def ordinals (n : Nat) : List Node :=
  (List.range n).map fun i => ⟨Span.zero, .ident (ordinalName i)⟩

/-- A value that a scope collects, by its name. -/
def captureName (v : Node) : ExceptT TemplateError (StateM (Scopes Node)) String := do
  return ordinalName (← Scopes.capture v)

/-- A template leaves the names of the values that are collected. -/
theorem printTemplate_eq (n : Node) : n.printTemplate = programM (some (leaveName captureName)) n := by
  have hleave : (fun v => do return placeholder (← Scopes.capture v)) = leaveName captureName := by
    funext v
    simp [leaveName, captureName, placeholder, ordinalName, ← String.append_assoc]
  rw [printTemplate, hleave]

/-- Values are collected in order, and the outer scopes do not matter. -/
theorem run_mapM_captureName (vs earlier : List Node) (outer : Scopes Node) :
    (vs.mapM captureName).run (.extract earlier :: outer) =
      (.ok ((List.range' earlier.length vs.length).map ordinalName),
        .extract (earlier ++ vs) :: outer) := by
  induction vs generalizing earlier with
  | nil => simp
  | cons v vs ih =>
    have hv : (captureName v).run (.extract earlier :: outer) =
        (.ok (ordinalName earlier.length), .extract (earlier ++ [v]) :: outer) := rfl
    rw [List.mapM_cons, run_bind_apply, hv]
    simp only [run_bind_apply, ih]
    simp [List.range'_succ]

/-- **Lemma.** Printing a template in a scope of its own never fails and leaves the scopes around it
    alone.  It captures the values of the holes in order, and its text is that of the tree with their
    numbers in their places. -/
theorem extract_printTemplate (n : Node) (scopes : Scopes Node) :
    (Scopes.extract n.printTemplate.run).run scopes =
      ((.ok (n.refill (ordinals n.holes.length)).print, n.holes), scopes) := by
  have hvisits : n.printTemplate = _ := (printTemplate_eq n).trans (visits_programM captureName n)
  have hrun : n.printTemplate.run (.extract [] :: scopes) =
      (.ok (n.refill (ordinals n.holes.length)).print, .extract n.holes :: scopes) := by
    simp only [hvisits, run_bind_apply, run_mapM_captureName, List.length_nil,
      ← List.range_eq_range', List.nil_append, run_pure_apply, idents, List.map_map]
    rfl
  show (match n.printTemplate.run (.extract [] :: scopes) with
    | (r, inner) => ((r, Scopes.collected inner), Scopes.closeTo scopes.length inner)) = _
  rw [hrun]
  exact congrArg (Prod.mk _) (Scopes.closeTo_cons_length _ scopes)

end Node

end Quasiquote
