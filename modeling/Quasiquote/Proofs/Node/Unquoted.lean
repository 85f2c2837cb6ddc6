import Quasiquote.Node.Printer

namespace Quasiquote

/-!
# Unquoted code — what stands outside quoted bodies

A quoted body is data; what stands outside of it is code.  Markers of failures among the
code are seen in the printed text.

* `Node.Unquoted` — the nodes of a tree outside its quoted bodies;
* `Node.Holds` — whether all of them have forms with a property, and one equation for each
  form;
* `Node.MarkerFree` — whether none of them is the marker of a failure;
* `ShowsMarker`, `Node.markerFree_of_print` — a text without the sign of a marker is the text
  of a tree without markers.
-/

namespace Form

/-- Whether a form is a quoted body. -/
def isQuote : Form → Bool
  | .quote _ => true
  | _ => false

/-- Whether a form is the marker of a failure. -/
def isMarker : Form → Bool
  | .error _ => true
  | _ => false

end Form

namespace Node

/-- The nodes of a tree that stand outside its quoted bodies. -/
inductive Unquoted : Node → Node → Prop
  | refl (n : Node) : Unquoted n n
  | child {n c m : Node} (hn : n.form.isQuote = false) (hc : c ∈ n.children)
      (hm : Unquoted c m) : Unquoted n m

/-- Whether all forms outside quoted bodies have a property. -/
def Holds (P : Form → Prop) (n : Node) : Prop := ∀ m, n.Unquoted m → P m.form

/-- Whether no marker of a failure stands outside quoted bodies. -/
def MarkerFree (n : Node) : Prop := n.Holds fun f => f.isMarker = false

/-! ### Properties of unquoted forms -/

section Holds

variable {P : Form → Prop}

attribute [local simp] Form.isQuote children

/-- A property holds of a node and, unless it is a quoted body, of its parts. -/
theorem holds_iff (n : Node) :
    n.Holds P ↔ P n.form ∧ (n.form.isQuote = false → ∀ c ∈ n.children, c.Holds P) := by
  constructor
  · intro h
    exact ⟨h n (.refl n), fun hn c hc m hm => h m (.child hn hc hm)⟩
  · rintro ⟨hform, hparts⟩ m (_ | ⟨hn, hc, hm⟩)
    · exact hform
    · exact hparts hn _ hc m hm

variable {s : Span}

/-- A node without parts. -/
theorem holds_leaf {n : Node} (hn : n.children = []) : n.Holds P ↔ P n.form := by
  rw [holds_iff, hn]
  simp

@[simp] theorem holds_quote {body : Node} : (⟨s, .quote body⟩ : Node).Holds P ↔ P (.quote body) := by
  rw [holds_iff]
  simp

@[simp] theorem holds_assign {name : String} {v : Node} :
    (⟨s, .assign name v⟩ : Node).Holds P ↔ P (.assign name v) ∧ v.Holds P := by
  rw [holds_iff]
  simp

@[simp] theorem holds_fieldAssign {name : String} {v : Node} :
    (⟨s, .fieldAssign name v⟩ : Node).Holds P ↔ P (.fieldAssign name v) ∧ v.Holds P := by
  rw [holds_iff]
  simp

@[simp] theorem holds_call {target : Node} {name : String} {args : List Node}
    {block : Option Node} : (⟨s, .call target name args block⟩ : Node).Holds P ↔
      P (.call target name args block) ∧ target.Holds P ∧ (∀ a ∈ args, a.Holds P) ∧
        ∀ b ∈ block, b.Holds P := by
  rw [holds_iff]
  simp [or_imp, forall_and]

@[simp] theorem holds_invoke {name : String} {args : List Node} {block : Option Node} :
    (⟨s, .invoke name args block⟩ : Node).Holds P ↔
      P (.invoke name args block) ∧ (∀ a ∈ args, a.Holds P) ∧ ∀ b ∈ block, b.Holds P := by
  rw [holds_iff]
  simp [or_imp, forall_and]

@[simp] theorem holds_cond {test yes : Node} {no : Option Node} :
    (⟨s, .cond test yes no⟩ : Node).Holds P ↔
      P (.cond test yes no) ∧ test.Holds P ∧ yes.Holds P ∧ ∀ n ∈ no, n.Holds P := by
  rw [holds_iff]
  simp

@[simp] theorem holds_body {items : List Node} :
    (⟨s, .body items⟩ : Node).Holds P ↔ P (.body items) ∧ ∀ n ∈ items, n.Holds P := by
  rw [holds_iff]
  simp

@[simp] theorem holds_block {params : List String} {body : Node} {brace : Bool} :
    (⟨s, .block params body brace⟩ : Node).Holds P ↔ P (.block params body brace) ∧ body.Holds P := by
  rw [holds_iff]
  simp

@[simp] theorem holds_classDef {name : String} {superclass : Option String} {body : Node} :
    (⟨s, .classDef name superclass body⟩ : Node).Holds P ↔
      P (.classDef name superclass body) ∧ body.Holds P := by
  rw [holds_iff]
  simp

@[simp] theorem holds_methodDef {name : String} {params : List Parameter}
    {returns : Option String} {body : Node} :
    (⟨s, .methodDef name params returns body⟩ : Node).Holds P ↔
      P (.methodDef name params returns body) ∧
        (∀ p ∈ params, ∀ d ∈ p.default, d.Holds P) ∧ body.Holds P := by
  rw [holds_iff]
  simp only [form_mk, Form.isQuote, children, List.mem_append, List.mem_filterMap,
    List.mem_singleton, or_imp, forall_and, forall_eq, forall_exists_index, and_imp, forall_const]
  refine and_congr_right fun _ => and_congr_left fun _ => ?_
  exact ⟨fun h p hp d hd => h d p hp hd, fun h d p hp hd => h p hp d hd⟩

@[simp] theorem holds_unquote {v : Node} :
    (⟨s, .unquote v⟩ : Node).Holds P ↔ P (.unquote v) ∧ v.Holds P := by
  rw [holds_iff]
  simp

end Holds

end Node

/-! ### Markers in printed text -/

/-- Whether the sign that starts every marker stands somewhere in a text. -/
def ShowsMarker (text : String) : Prop := "# error: ".toList <:+: text.toList

instance (text : String) : Decidable (ShowsMarker text) :=
  inferInstanceAs (Decidable (_ <:+: _))

namespace ShowsMarker

variable {a b : String}

theorem left (h : ShowsMarker a) (b : String) : ShowsMarker (a ++ b) := by
  rw [ShowsMarker, String.toList_append]
  exact List.IsInfix.trans h (List.prefix_append _ _).isInfix

theorem right (h : ShowsMarker b) (a : String) : ShowsMarker (a ++ b) := by
  rw [ShowsMarker, String.toList_append]
  exact List.IsInfix.trans h (List.suffix_append _ _).isInfix

theorem intercalate {texts : List String} (h : a ∈ texts) (ha : ShowsMarker a) (sep : String) :
    ShowsMarker (sep.intercalate texts) := by
  induction texts with
  | nil => cases h
  | cons text texts ih =>
    cases texts with
    | nil =>
      rw [List.mem_singleton.1 h] at ha
      simpa using ha
    | cons next texts =>
      rw [String.intercalate_cons_cons]
      rcases List.mem_cons.1 h with rfl | h
      · exact (ha.left sep).left _
      · exact (ih h).right _

theorem wrapIf (h : ShowsMarker a) (loose : Bool) : ShowsMarker (Node.wrapIf loose a) := by
  cases loose
  · exact h
  · exact (h.right "(").left ")"

end ShowsMarker

namespace Node

/-- The text of a node inside a line. -/
def phrase (indent : Nat) (n : Node) : String := (textM (m := Id) none indent n).run

/-- The texts of several nodes inside a line. -/
def phrases (indent : Nat) (ns : List Node) : List String := (textsM (m := Id) none indent ns).run

/-- The text of a node on lines of its own. -/
def lines (indent : Nat) (n : Node) : String := (linesOfM (m := Id) none indent n).run

section Phrases

variable {s : Span}

attribute [local simp] phrase phrases formM textM textsM

@[simp] theorem phrase_noop (indent : Nat) : phrase indent ⟨s, .noop⟩ = "" := by simp

@[simp] theorem phrase_error (indent : Nat) (message : String) :
    phrase indent ⟨s, .error message⟩ = "# error: " ++ message := by simp

theorem phrases_eq (indent : Nat) (ns : List Node) : phrases indent ns = ns.map (phrase indent) := by
  induction ns with
  | nil => simp
  | cons n ns ih =>
    rw [phrases] at ih
    simp [ih]

end Phrases

/-- How a call is written depends on its arguments. -/
theorem callStyle_cases (name : String) (argc : Nat) (hasBlock : Bool) :
    callStyle name argc hasBlock = .dotted ∨ hasBlock = false ∧
      (callStyle name argc hasBlock = .between ∧ argc = 1 ∨
        ∃ sign, callStyle name argc hasBlock = .before sign ∧ argc = 0) := by
  unfold callStyle
  grind

/-- Whether a node shows a marker wherever it is printed. -/
structure Shows (n : Node) : Prop where
  phrase (indent : Nat) : ShowsMarker (n.phrase indent)
  lines (indent : Nat) : ShowsMarker (n.lines indent)

namespace Shows

variable {c : Node} {s : Span}

theorem not_noop (h : c.Shows) : c.isNoop = false := by
  obtain ⟨s, f⟩ := c
  cases f
  case noop =>
    have hempty : ShowsMarker "" := by simpa using h.phrase 0
    exact absurd hempty (by decide)
  all_goals rfl

/-- A node that is no body, and shows a marker inside a line. -/
theorem of_phrase {n : Node} (hbody : ∀ items, n.form ≠ .body items) (h : ∀ i, ShowsMarker (n.phrase i)) :
    n.Shows where
  phrase := h
  lines indent := by
    obtain ⟨s, f⟩ := n
    cases f
    case body items => exact absurd rfl (hbody items)
    case noop =>
      have hempty : ShowsMarker "" := by simpa using h 0
      exact absurd hempty (by decide)
    all_goals
      have := (h indent).right (lineBreak indent)
      simpa [Node.lines, linesOfM, Node.phrase, textM] using this

theorem error (message : String) : (⟨s, .error message⟩ : Node).Shows := by
  refine .of_phrase (fun items h => by cases h) fun i => ?_
  have hsign : ShowsMarker "# error: " := List.infix_rfl
  rw [phrase_error]
  exact hsign.left message

/-- What is printed in braces shows what is on its lines. -/
theorem block (h : c.Shows) (indent : Nat) :
    ShowsMarker (blockM (m := Id) none indent (some c)).run := by
  by_cases hblock : c.isBlock
  · simpa [blockM, hblock, Node.phrase] using h.phrase indent
  · have := ((h.lines (indent + 1)).right " \x7b").left (lineBreak indent ++ "\x7d")
    simpa [blockM, hblock, Node.lines, String.append_assoc] using this

theorem phrases (h : c.Shows) {ns : List Node} (hc : c ∈ ns) (indent : Nat) (sep : String) :
    ShowsMarker (sep.intercalate (Node.phrases indent ns)) := by
  rw [phrases_eq]
  exact ShowsMarker.intercalate (List.mem_map_of_mem hc) (h.phrase indent) sep

/-- A call shows what its receiver, its arguments or its block shows. -/
theorem call {target : Node} {name : String} {args : List Node} {block : Option Node}
    (h : c.Shows) (hc : c = target ∨ c ∈ args ∨ c ∈ block) :
    (⟨s, .call target name args block⟩ : Node).Shows := by
  refine .of_phrase (fun items h => by cases h) fun i => ?_
  have hargs : (textsM (m := Id) none i args).run = args.map (Node.phrase i) := phrases_eq i args
  have htarget : (textM (m := Id) none i target).run = Node.phrase i target := rfl
  simp only [Node.phrase, textM, formM, Id.run_bind, Id.run_pure]
  rw [hargs, htarget]
  rcases callStyle_cases name args.length block.isSome with
    hstyle | ⟨hblock, ⟨hstyle, hargc⟩ | ⟨sign, hstyle, hargc⟩⟩
  · -- after a point
    simp only [hstyle]
    rcases hc with rfl | hc | hc
    · exact ((((h.phrase i).wrapIf _).left ".").left name |>.left _).left _
    · have hne : (args.map (Node.phrase i)).isEmpty = false := by
        cases args
        · cases hc
        · rfl
      rw [hne]
      have hlist : ShowsMarker (", ".intercalate (args.map (Node.phrase i))) :=
        phrases_eq i args ▸ h.phrases hc i ", "
      exact (((hlist.right "(").left ")").right _).left _
    · cases hc
      exact (h.block i).right _
  · -- between two operands
    obtain ⟨arg, rfl⟩ := List.length_eq_one_iff.1 hargc
    simp only [hstyle, List.map_cons, List.map_nil]
    rcases hc with rfl | hc | hc
    · have hoperand := ((h.phrase i).wrapIf c.isLoose).right "("
      exact (((hoperand.left " ").left name |>.left " ").left _).left ")"
    · cases List.mem_singleton.1 hc
      exact (((h.phrase i).wrapIf _).right _).left ")"
    · cases hc
      cases hblock
  · -- behind a sign
    cases List.length_eq_zero_iff.1 hargc
    simp only [hstyle]
    rcases hc with rfl | hc | hc
    · exact ((h.phrase i).right _).left _
    · cases hc
    · cases hc
      cases hblock

theorem body {items : List Node} (h : c.Shows) (hc : c ∈ items) :
    (⟨s, .body items⟩ : Node).Shows where
  phrase i := by
    have := ((h.phrases hc i "; ").right "(").left ")"
    simpa [Node.phrase, textM, formM, Node.phrases] using this
  lines i := by
    simp only [Node.lines, linesOfM]
    induction items with
    | nil => cases hc
    | cons n items ih =>
      simp only [linesM, Id.run_bind, Id.run_pure]
      rcases List.mem_cons.1 hc with rfl | hc
      · rw [h.not_noop]
        exact ((h.phrase i).right (lineBreak i)).left _
      · split
        · exact ih hc
        · exact (ih hc).right _

theorem cond {test yes : Node} {no : Option Node} (h : c.Shows)
    (hc : c = test ∨ c = yes ∨ no = some c) : (⟨s, .cond test yes no⟩ : Node).Shows := by
  refine .of_phrase (fun items h => by cases h) fun i => ?_
  cases no with
  | none =>
    simp only [Node.phrase, textM, formM, Id.run_bind, Id.run_pure]
    rcases hc with rfl | rfl | hc
    · exact ((((h.phrase i).right "if ").left _).left _).left "end"
    · exact (((h.lines (i + 1)).right _).left _).left "end"
    · cases hc
  | some no =>
    simp only [Node.phrase, textM, formM, Id.run_bind, Id.run_pure]
    rcases hc with rfl | rfl | hc
    · exact ((((((h.phrase i).right "if ").left _).left _).left "else").left _ |>.left _).left "end"
    · exact (((((h.lines (i + 1)).right _).left _).left "else").left _ |>.left _).left "end"
    · cases hc
      exact (((h.lines (i + 1)).right _).left _).left "end"

theorem params {ps : List Parameter} (h : c.Shows) (hc : c ∈ ps.filterMap Parameter.default)
    (indent : Nat) : ∃ text ∈ (paramsM (m := Id) none indent ps).run, ShowsMarker text := by
  induction ps with
  | nil => cases hc
  | cons p ps ih =>
    obtain ⟨name, type, default, block⟩ := p
    obtain ⟨p, hp, hdefault⟩ := List.mem_filterMap.1 hc
    rcases List.mem_cons.1 hp with rfl | hp
    · cases (show default = some c from hdefault)
      simp only [paramsM, Id.run_bind, Id.run_pure]
      exact ⟨_, List.mem_cons_self, (h.phrase indent).right _⟩
    · obtain ⟨text, htext, hshows⟩ := ih (List.mem_filterMap.2 ⟨p, hp, hdefault⟩)
      refine ⟨text, ?_, hshows⟩
      cases default
      · exact List.mem_cons_of_mem _ htext
      · exact List.mem_cons_of_mem _ htext

theorem methodDef {name : String} {params : List Parameter} {returns : Option String}
    {body : Node} (h : c.Shows) (hc : c ∈ params.filterMap Parameter.default ∨ c ∈ [body]) :
    (⟨s, .methodDef name params returns body⟩ : Node).Shows := by
  refine .of_phrase (fun items h => by cases h) fun i => ?_
  simp only [Node.phrase, textM, formM, Id.run_bind, Id.run_pure]
  rcases hc with hc | hc
  · obtain ⟨text, htext, hshows⟩ := h.params hc i
    have hnonempty : (paramsM (m := Id) none i params).run.isEmpty = false := by
      cases hparams : (paramsM (m := Id) none i params).run
      · rw [hparams] at htext
        cases htext
      · rfl
    rw [hnonempty]
    have hlist := ((ShowsMarker.intercalate htext hshows ", ").right "(").left ")"
    exact (((hlist.right ("def " ++ name)).left _).left _).left _ |>.left "end"
  · cases List.mem_singleton.1 hc
    exact (((h.lines (i + 1)).right _).left _).left "end"

/-- Where a node shows a marker, the node around it shows one. -/
theorem parent (h : c.Shows) {n : Node} (hc : c ∈ n.children) : n.Shows := by
  obtain ⟨s, f⟩ := n
  cases f
  case call target name args block => exact h.call (by simpa [children] using hc)
  case body items => exact h.body hc
  case cond test yes no => exact h.cond (by simpa [children] using hc)
  case methodDef name params returns body => exact h.methodDef (List.mem_append.1 hc)
  -- no other form is printed on several lines where it is a statement
  all_goals
    first
    | cases hc; done
    | refine .of_phrase (fun items h => by cases h) fun i => ?_
      simp only [Node.phrase, textM, formM, Id.run_bind, Id.run_pure]
  case assign name v =>
    cases List.mem_singleton.1 hc
    exact (h.phrase i).right _
  case fieldAssign name v =>
    cases List.mem_singleton.1 hc
    exact (h.phrase i).right _
  case invoke name args block =>
    rcases List.mem_append.1 hc with hc | hc
    · exact (((h.phrases hc i ", ").right _).left _).left _
    · cases Option.mem_toList.1 hc
      exact (h.block i).right _
  case block params body brace =>
    cases List.mem_singleton.1 hc
    exact (((h.lines (i + 1)).right _).left _).left _
  case classDef name superclass body =>
    cases List.mem_singleton.1 hc
    exact (((h.lines (i + 1)).right _).left _).left _
  case quote body =>
    cases List.mem_singleton.1 hc
    exact (((h.lines (i + 1)).right _).left _).left _
  case unquote v =>
    cases List.mem_singleton.1 hc
    exact ((h.phrase i).right _).left _

/-- A tree with a marker among its code shows a marker. -/
theorem of_unquoted {n m : Node} (h : n.Unquoted m) (hm : m.form.isMarker = true) : n.Shows := by
  induction h with
  | refl n =>
    obtain ⟨s, f⟩ := n
    cases f
    case error message => exact .error message
    all_goals cases hm
  | child hn hc _ ih => exact (ih hm).parent hc

/-- One of the statements of such a tree shows it. -/
theorem statement {n m : Node} (h : n.Unquoted m) (hm : m.form.isMarker = true) :
    ∃ c ∈ n.statements, c.Shows := by
  by_cases hbody : ∃ s items, n = ⟨s, .body items⟩
  · obtain ⟨s, items, rfl⟩ := hbody
    cases h with
    | refl => cases hm
    | child _ hc h => exact ⟨_, hc, of_unquoted h hm⟩
  · have hself : n.statements = [n] := by
      obtain ⟨s, f⟩ := n
      cases f
      case body items => exact absurd ⟨s, items, rfl⟩ hbody
      all_goals rfl
    exact ⟨n, by simp [hself], of_unquoted h hm⟩

end Shows

/-- **Lemma.** A text without the sign of a marker is the text of a tree without markers. -/
theorem markerFree_of_print {n : Node} (h : ¬ ShowsMarker n.print) : n.MarkerFree := by
  intro m hm
  cases hmarker : m.form.isMarker with
  | false => rfl
  | true =>
    obtain ⟨c, hc, hshows⟩ := Shows.statement hm hmarker
    have hkept : c ∈ n.statements.filter fun s => !s.isNoop :=
      List.mem_filter.2 ⟨hc, by rw [hshows.not_noop]; rfl⟩
    refine absurd (hshows.phrases hkept 0 "\n") ?_
    simpa [Node.print, programM, Node.phrases] using h

end Node

end Quasiquote
