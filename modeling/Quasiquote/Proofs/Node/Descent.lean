import Quasiquote.Proofs.Node.Parts

namespace Quasiquote

/-!
# Descent — one level of a tree at a time

A walk over a tree does something to a node and goes on with its direct parts.  What it does to
the parts is the same for every form, and is said here once.

* `Node.descendM`, `Node.descend` — a node with something done to each of its direct parts;
* `Report` — the computation that hands over failures and then answers;
* `Node.descendM_report` — what is reported from the parts is reported from the node, in order;
* `Node.weight_child` — parts are lighter than the node.
-/

/-- The same parameter with another default. -/
def Parameter.withDefault (p : Parameter) (d : Option Node) : Parameter :=
  ⟨p.name, p.typeName, d, p.isBlock⟩

/-- Hands some failures to `fail`, in order, and then answers. -/
def report {m : Type → Type} [Monad m] {α ε : Type} (fail : ε → m Unit) (es : List ε) (a : α) :
    m α := do
  es.forM fail
  return a

section Report

variable {m : Type → Type} [Monad m] [LawfulMonad m] {α β γ ε : Type} (fail : ε → m Unit)

@[simp] theorem report_nil (a : α) : report fail [] a = pure a := by
  simp [report]

theorem report_bind (es fs : List ε) (a : α) (k : α → m β) (b : β)
    (hk : k a = report fail fs b) : report fail es a >>= k = report fail (es ++ fs) b := by
  simp [report, hk, List.forM_append]

theorem report_map (es : List ε) (a : α) (f : α → β) :
    (do return f (← report fail es a)) = report fail es (f a) := by
  simp [report]

/-- A list is gone through from the left. -/
theorem mapM_report {f : γ → m α} {es : γ → List ε} {g : γ → α} {cs : List γ}
    (h : ∀ c ∈ cs, f c = report fail (es c) (g c)) :
    cs.mapM f = report fail (cs.flatMap es) (cs.map g) := by
  induction cs with
  | nil => simp
  | cons c cs ih =>
    obtain ⟨hc, hcs⟩ := List.forall_mem_cons.1 h
    rw [List.mapM_cons, hc, ih hcs, List.flatMap_cons, List.map_cons]
    exact report_bind fail _ _ _ _ _ (report_map fail _ _ _)

theorem option_mapM_report {f : γ → m α} {es : γ → List ε} {g : γ → α} {c : Option γ}
    (h : ∀ c' ∈ c, f c' = report fail (es c') (g c')) :
    c.mapM f = report fail (c.toList.flatMap es) (c.map g) := by
  cases c with
  | none => simp
  | some c =>
    rw [Option.toList_some, List.flatMap_singleton, Option.map_some, Option.mapM_some, h c rfl]
    simp [report]

end Report

namespace Node

section Descent

variable {m : Type → Type} [Monad m]

/-- A node with something done to each of its direct parts, in source order. -/
def descendM (f : Node → m Node) : Node → m Node
  | ⟨s, .assign name v⟩ => do return ⟨s, .assign name (← f v)⟩
  | ⟨s, .fieldAssign name v⟩ => do return ⟨s, .fieldAssign name (← f v)⟩
  | ⟨s, .call target name args block⟩ => do
    let target ← f target
    let args ← args.mapM f
    let block ← block.mapM f
    return ⟨s, .call target name args block⟩
  | ⟨s, .invoke name args block⟩ => do
    let args ← args.mapM f
    let block ← block.mapM f
    return ⟨s, .invoke name args block⟩
  | ⟨s, .cond test yes no⟩ => do
    let test ← f test
    let yes ← f yes
    let no ← no.mapM f
    return ⟨s, .cond test yes no⟩
  | ⟨s, .body items⟩ => do return ⟨s, .body (← items.mapM f)⟩
  | ⟨s, .block params body brace⟩ => do return ⟨s, .block params (← f body) brace⟩
  | ⟨s, .classDef name superclass body⟩ => do return ⟨s, .classDef name superclass (← f body)⟩
  | ⟨s, .methodDef name params returns body⟩ => do
    let params ← params.mapM fun p => do return p.withDefault (← p.default.mapM f)
    let body ← f body
    return ⟨s, .methodDef name params returns body⟩
  | ⟨s, .quote body⟩ => do return ⟨s, .quote (← f body)⟩
  | ⟨s, .unquote v⟩ => do return ⟨s, .unquote (← f v)⟩
  | n => return n

/-- A node with its direct parts replaced. -/
def descend (f : Node → Node) : Node → Node
  | ⟨s, .assign name v⟩ => ⟨s, .assign name (f v)⟩
  | ⟨s, .fieldAssign name v⟩ => ⟨s, .fieldAssign name (f v)⟩
  | ⟨s, .call target name args block⟩ => ⟨s, .call (f target) name (args.map f) (block.map f)⟩
  | ⟨s, .invoke name args block⟩ => ⟨s, .invoke name (args.map f) (block.map f)⟩
  | ⟨s, .cond test yes no⟩ => ⟨s, .cond (f test) (f yes) (no.map f)⟩
  | ⟨s, .body items⟩ => ⟨s, .body (items.map f)⟩
  | ⟨s, .block params body brace⟩ => ⟨s, .block params (f body) brace⟩
  | ⟨s, .classDef name superclass body⟩ => ⟨s, .classDef name superclass (f body)⟩
  | ⟨s, .methodDef name params returns body⟩ =>
    ⟨s, .methodDef name (params.map fun p => p.withDefault (p.default.map f)) returns (f body)⟩
  | ⟨s, .quote body⟩ => ⟨s, .quote (f body)⟩
  | ⟨s, .unquote v⟩ => ⟨s, .unquote (f v)⟩
  | n => n

/-- A walk that reports from the parts of a node reports from the node, in the order of its
    parts. -/
theorem descendM_report [LawfulMonad m] {ε : Type} (fail : ε → m Unit) {f : Node → m Node}
    {es : Node → List ε} {g : Node → Node} {n : Node}
    (h : ∀ c ∈ n.children, f c = report fail (es c) (g c)) :
    descendM f n = report fail (n.children.flatMap es) (n.descend g) := by
  obtain ⟨s, form⟩ := n
  cases form
  case assign name v | fieldAssign name v | block params v brace | classDef name superclass v
      | quote v | unquote v =>
    simp only [children, List.mem_singleton, forall_eq] at h
    simp only [descendM, descend, children, List.flatMap_singleton, h, report_map]
  case call target name args block =>
    simp only [children, List.mem_cons, List.mem_append, Option.mem_toList, or_imp, forall_and,
      forall_eq] at h
    obtain ⟨htarget, hargs, hblock⟩ := h
    simp only [descendM, descend, children, List.flatMap_cons, List.flatMap_append]
    rw [htarget, mapM_report fail hargs, option_mapM_report fail hblock]
    exact report_bind fail _ _ _ _ _ (report_bind fail _ _ _ _ _ (report_map fail _ _ _))
  case invoke name args block =>
    simp only [children, List.mem_append, Option.mem_toList, or_imp, forall_and] at h
    obtain ⟨hargs, hblock⟩ := h
    simp only [descendM, descend, children, List.flatMap_append]
    rw [mapM_report fail hargs, option_mapM_report fail hblock]
    exact report_bind fail _ _ _ _ _ (report_map fail _ _ _)
  case cond test yes no =>
    simp only [children, List.mem_cons, Option.mem_toList, or_imp, forall_and, forall_eq] at h
    obtain ⟨htest, hyes, hno⟩ := h
    simp only [descendM, descend, children, List.flatMap_cons]
    rw [htest, hyes, option_mapM_report fail hno]
    exact report_bind fail _ _ _ _ _ (report_bind fail _ _ _ _ _ (report_map fail _ _ _))
  case body items =>
    simp only [children] at h
    simp only [descendM, descend, children]
    rw [mapM_report fail h, report_map]
  case methodDef name params returns body =>
    simp only [children, List.mem_append, List.mem_filterMap, List.mem_singleton, or_imp,
      forall_and, forall_eq] at h
    obtain ⟨hparams, hbody⟩ := h
    have hdefault : ∀ p ∈ params, (do return p.withDefault (← p.default.mapM f)) =
        report fail (p.default.toList.flatMap es) (p.withDefault (p.default.map g)) := by
      intro p hp
      rw [option_mapM_report fail fun d hd => hparams d ⟨p, hp, hd⟩, report_map]
    have hall : params.flatMap (fun p => p.default.toList.flatMap es) =
        (params.filterMap Parameter.default).flatMap es := by
      clear hparams hdefault
      induction params with
      | nil => rfl
      | cons p ps ih => cases hp : p.default <;> simp [hp, ih]
    simp only [descendM, descend, children, List.flatMap_append, List.flatMap_singleton]
    rw [mapM_report fail hdefault, hall, hbody]
    exact report_bind fail _ _ _ _ _ (report_map fail _ _ _)
  all_goals exact (report_nil fail _).symm

/-- Parts that stay as they are make the same node. -/
theorem descend_eq_self {g : Node → Node} {n : Node} (h : ∀ c ∈ n.children, g c = c) :
    n.descend g = n := by
  have hlist {α : Type} {f : α → α} {xs : List α} (h : ∀ x ∈ xs, f x = x) : xs.map f = xs :=
    (List.map_congr_left h).trans (List.map_id' xs)
  have hoption {n : Option Node} (h : ∀ c ∈ n, g c = c) : n.map g = n := by
    cases n with
    | none => rfl
    | some n => exact congrArg some (h n rfl)
  obtain ⟨s, form⟩ := n
  cases form
  case methodDef name params returns body =>
    simp only [children, List.mem_append, List.mem_filterMap, List.mem_singleton, or_imp,
      forall_and, forall_eq] at h
    obtain ⟨hparams, hbody⟩ := h
    have hdefault : params.map (fun p => p.withDefault (p.default.map g)) = params := by
      refine hlist fun p hp => ?_
      rw [hoption fun d hd => hparams d ⟨p, hp, hd⟩]
      cases p
      rfl
    rw [descend, hdefault, hbody]
  case call target name args block =>
    simp only [children, List.mem_cons, List.mem_append, Option.mem_toList, or_imp, forall_and,
      forall_eq] at h
    rw [descend, h.1, hlist h.2.1, hoption h.2.2]
  case invoke name args block =>
    simp only [children, List.mem_append, Option.mem_toList, or_imp, forall_and] at h
    rw [descend, hlist h.1, hoption h.2]
  case cond test yes no =>
    simp only [children, List.mem_cons, Option.mem_toList, or_imp, forall_and, forall_eq] at h
    rw [descend, h.1, h.2.1, hoption h.2.2]
  case body items => exact congrArg (fun ns => mk s (.body ns)) (hlist h)
  case assign | fieldAssign | block | classDef | quote | unquote =>
    rw [descend, h _ List.mem_cons_self]
  all_goals rfl

end Descent

/-- The parts of a replaced node are the replaced parts. -/
theorem children_descend (g : Node → Node) (n : Node) :
    (n.descend g).children = n.children.map g := by
  have hoption (n : Option Node) : (n.map g).toList = n.toList.map g := by cases n <;> rfl
  obtain ⟨s, form⟩ := n
  cases form
  case methodDef name params returns body =>
    have hparams : (params.map fun p => p.withDefault (p.default.map g)).filterMap
        Parameter.default = (params.filterMap Parameter.default).map g := by
      rw [List.filterMap_map, List.map_filterMap]
      rfl
    simp [descend, children, hparams]
  all_goals simp [descend, children, hoption]

/-- Parts are lighter than the node. -/
theorem weight_child {n c : Node} (h : c ∈ n.children) : c.weight < n.weight := by
  have hall : ∀ {ns : List Node}, c ∈ ns → c.weight ≤ weightAll ns := by
    intro ns hc
    induction ns with
    | nil => cases hc
    | cons n ns ih =>
      rw [weightAll]
      rcases List.mem_cons.1 hc with rfl | hc
      · omega
      · have := ih hc
        omega
  have hopt : ∀ {n : Option Node}, c ∈ n → c.weight ≤ weightOpt n := by
    rintro _ ⟨⟩
    exact Nat.le_refl _
  have hparams : ∀ {ps : List Parameter}, c ∈ ps.filterMap Parameter.default →
      c.weight ≤ weightParams ps := by
    intro ps hc
    induction ps with
    | nil => cases hc
    | cons p ps ih =>
      obtain ⟨name, type, default, block⟩ := p
      rw [weightParams]
      cases default with
      | none => exact Nat.le_add_left_of_le (ih hc)
      | some d =>
        rcases List.mem_cons.1 hc with rfl | hc
        · exact Nat.le_add_right _ _
        · exact Nat.le_add_left_of_le (ih hc)
  obtain ⟨s, form⟩ := n
  cases form
  case call target name args block =>
    simp only [children, List.mem_cons, List.mem_append, Option.mem_toList] at h
    rw [weight]
    rcases h with rfl | h | h
    · omega
    · have := hall h
      omega
    · have := hopt h
      omega
  case invoke name args block =>
    simp only [children, List.mem_append, Option.mem_toList] at h
    rw [weight]
    rcases h with h | h
    · have := hall h
      omega
    · have := hopt h
      omega
  case cond test yes no =>
    simp only [children, List.mem_cons, Option.mem_toList] at h
    rw [weight]
    rcases h with rfl | rfl | h
    · omega
    · omega
    · have := hopt h
      omega
  case body items => exact Nat.lt_succ_of_le (hall h)
  case methodDef name params returns body =>
    simp only [children, List.mem_append, List.mem_singleton] at h
    rw [weight]
    rcases h with h | rfl
    · have := hparams h
      omega
    · omega
  case assign | fieldAssign | block | classDef | quote | unquote =>
    cases List.mem_singleton.1 h
    exact Nat.lt_succ_self _
  all_goals cases h

end Node

end Quasiquote
