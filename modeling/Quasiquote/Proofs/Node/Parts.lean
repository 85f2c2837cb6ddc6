import Quasiquote.Node.Basic

namespace Quasiquote

/-!
# Parts — all nodes of a tree

A macro definition is closed for the tree around it, but what it holds is stored and moved
together with it.  Here its defaults and its body count as parts.

* `Node.parts` — the direct parts of a node, those of a macro definition included;
* `Node.Every` — whether all nodes of a tree have a property, and one equation for each form;
* `Node.MacroFree` — whether none of them is a macro definition;
* `Argument.default` — what stands in a macro's declaration for an argument left out.
-/

namespace Argument

/-- The default of an argument, if it has one. -/
def default : Argument → Option Node
  | .optional _ d => some d
  | _ => none

@[simp] theorem default_required (name : String) : (required name).default = none := rfl

@[simp] theorem default_optional (name : String) (d : Node) :
    (optional name d).default = some d := rfl

@[simp] theorem default_block (name : String) (opt : Bool) : (block name opt).default = none := rfl

end Argument

/-- Whether a form is a macro definition. -/
def Form.isMacroDef : Form → Bool
  | .macroDef _ _ _ _ => true
  | _ => false

@[simp] theorem Parameter.default_mk (name : String) (type : Option String) (d : Option Node)
    (block : Bool) : (Parameter.mk name type d block).default = d := rfl

namespace Node

/-- The direct parts of a node, those of a macro definition included. -/
def parts : Node → List Node
  | ⟨_, .macroDef _ args b _⟩ => args.filterMap Argument.default ++ [b]
  | n => n.children

/-- The nodes of a tree. -/
inductive Part : Node → Node → Prop
  | refl (n : Node) : Part n n
  | child {n c m : Node} (hc : c ∈ n.parts) (hm : Part c m) : Part n m

/-- Whether all nodes of a tree have a property. -/
def Every (P : Node → Prop) (n : Node) : Prop := ∀ m, n.Part m → P m

/-- Whether no node of a tree is a macro definition. -/
def MacroFree (n : Node) : Prop := n.Every fun m => m.form.isMacroDef = false

section Every

variable {P Q : Node → Prop}

theorem Every.self {n : Node} (h : n.Every P) : P n := h n (.refl n)

theorem Every.imp {n : Node} (h : n.Every P) (hPQ : ∀ m, P m → Q m) : n.Every Q :=
  fun m hm => hPQ m (h m hm)

/-- A property holds of a node and of its parts. -/
theorem every_iff (n : Node) : n.Every P ↔ P n ∧ ∀ c ∈ n.parts, c.Every P := by
  constructor
  · intro h
    exact ⟨h.self, fun c hc m hm => h m (.child hc hm)⟩
  · rintro ⟨hn, hparts⟩ m (_ | ⟨hc, hm⟩)
    · exact hn
    · exact hparts _ hc m hm

/-- All parts of a node that is no macro definition are in the tree around it. -/
theorem parts_eq {n : Node} (h : n.form.isMacroDef = false) : n.parts = n.children := by
  obtain ⟨s, f⟩ := n
  cases f <;> first | rfl | cases h

theorem MacroFree.child {n c : Node} (h : n.MacroFree) (hc : c ∈ n.children) : c.MacroFree :=
  ((every_iff n).1 h).2 c (parts_eq h.self ▸ hc)

/-- A node without parts. -/
theorem every_leaf {n : Node} (hn : n.parts = []) : n.Every P ↔ P n := by
  rw [every_iff, hn]
  simp

variable {s : Span}

@[simp] theorem every_int {i : Int} : (⟨s, .int i⟩ : Node).Every P ↔ P ⟨s, .int i⟩ :=
  every_leaf rfl

@[simp] theorem every_float {x : Float} : (⟨s, .float x⟩ : Node).Every P ↔ P ⟨s, .float x⟩ :=
  every_leaf rfl

@[simp] theorem every_str {v : String} : (⟨s, .str v⟩ : Node).Every P ↔ P ⟨s, .str v⟩ :=
  every_leaf rfl

@[simp] theorem every_bool {b : Bool} : (⟨s, .bool b⟩ : Node).Every P ↔ P ⟨s, .bool b⟩ :=
  every_leaf rfl

@[simp] theorem every_nil : (⟨s, .nil⟩ : Node).Every P ↔ P ⟨s, .nil⟩ :=
  every_leaf rfl

@[simp] theorem every_self : (⟨s, .self⟩ : Node).Every P ↔ P ⟨s, .self⟩ :=
  every_leaf rfl

@[simp] theorem every_ident {name : String} :
    (⟨s, .ident name⟩ : Node).Every P ↔ P ⟨s, .ident name⟩ :=
  every_leaf rfl

@[simp] theorem every_field {name : String} :
    (⟨s, .field name⟩ : Node).Every P ↔ P ⟨s, .field name⟩ :=
  every_leaf rfl

@[simp] theorem every_constant {name : String} :
    (⟨s, .constant name⟩ : Node).Every P ↔ P ⟨s, .constant name⟩ :=
  every_leaf rfl

@[simp] theorem every_blockArgument {name : String} {opt : Bool} :
    (⟨s, .blockArgument name opt⟩ : Node).Every P ↔ P ⟨s, .blockArgument name opt⟩ :=
  every_leaf rfl

@[simp] theorem every_noop : (⟨s, .noop⟩ : Node).Every P ↔ P ⟨s, .noop⟩ :=
  every_leaf rfl

@[simp] theorem every_error {message : String} :
    (⟨s, .error message⟩ : Node).Every P ↔ P ⟨s, .error message⟩ :=
  every_leaf rfl

attribute [local simp] parts children

@[simp] theorem every_assign {name : String} {v : Node} :
    (⟨s, .assign name v⟩ : Node).Every P ↔ P ⟨s, .assign name v⟩ ∧ v.Every P := by
  rw [every_iff]
  simp

@[simp] theorem every_fieldAssign {name : String} {v : Node} :
    (⟨s, .fieldAssign name v⟩ : Node).Every P ↔ P ⟨s, .fieldAssign name v⟩ ∧ v.Every P := by
  rw [every_iff]
  simp

@[simp] theorem every_call {target : Node} {name : String} {args : List Node}
    {block : Option Node} : (⟨s, .call target name args block⟩ : Node).Every P ↔
      P ⟨s, .call target name args block⟩ ∧ target.Every P ∧ (∀ a ∈ args, a.Every P) ∧
        ∀ b ∈ block, b.Every P := by
  rw [every_iff]
  simp [or_imp, forall_and]

@[simp] theorem every_invoke {name : String} {args : List Node} {block : Option Node} :
    (⟨s, .invoke name args block⟩ : Node).Every P ↔
      P ⟨s, .invoke name args block⟩ ∧ (∀ a ∈ args, a.Every P) ∧ ∀ b ∈ block, b.Every P := by
  rw [every_iff]
  simp [or_imp, forall_and]

@[simp] theorem every_cond {test yes : Node} {no : Option Node} :
    (⟨s, .cond test yes no⟩ : Node).Every P ↔
      P ⟨s, .cond test yes no⟩ ∧ test.Every P ∧ yes.Every P ∧ ∀ n ∈ no, n.Every P := by
  rw [every_iff]
  simp

@[simp] theorem every_body {items : List Node} :
    (⟨s, .body items⟩ : Node).Every P ↔ P ⟨s, .body items⟩ ∧ ∀ n ∈ items, n.Every P := by
  rw [every_iff]
  simp

@[simp] theorem every_block {params : List String} {body : Node} {brace : Bool} :
    (⟨s, .block params body brace⟩ : Node).Every P ↔
      P ⟨s, .block params body brace⟩ ∧ body.Every P := by
  rw [every_iff]
  simp

@[simp] theorem every_classDef {name : String} {superclass : Option String} {body : Node} :
    (⟨s, .classDef name superclass body⟩ : Node).Every P ↔
      P ⟨s, .classDef name superclass body⟩ ∧ body.Every P := by
  rw [every_iff]
  simp

@[simp] theorem every_methodDef {name : String} {params : List Parameter}
    {returns : Option String} {body : Node} :
    (⟨s, .methodDef name params returns body⟩ : Node).Every P ↔
      P ⟨s, .methodDef name params returns body⟩ ∧
        (∀ p ∈ params, ∀ d ∈ p.default, d.Every P) ∧ body.Every P := by
  rw [every_iff]
  simp only [parts, children, List.mem_append, List.mem_filterMap, List.mem_singleton, or_imp,
    forall_and, forall_eq, forall_exists_index, and_imp]
  refine and_congr_right fun _ => and_congr_left fun _ => ?_
  exact ⟨fun h p hp d hd => h d p hp hd, fun h d p hp hd => h p hp d hd⟩

@[simp] theorem every_macroDef {name : String} {args : List Argument} {body : Node}
    {id : Option Nat} : (⟨s, .macroDef name args body id⟩ : Node).Every P ↔
      P ⟨s, .macroDef name args body id⟩ ∧
        (∀ a ∈ args, ∀ d ∈ a.default, d.Every P) ∧ body.Every P := by
  rw [every_iff]
  simp only [parts, List.mem_append, List.mem_filterMap, List.mem_singleton, or_imp,
    forall_and, forall_eq, forall_exists_index, and_imp]
  refine and_congr_right fun _ => and_congr_left fun _ => ?_
  exact ⟨fun h a ha d hd => h d a ha hd, fun h d a ha hd => h a ha d hd⟩

@[simp] theorem every_quote {body : Node} :
    (⟨s, .quote body⟩ : Node).Every P ↔ P ⟨s, .quote body⟩ ∧ body.Every P := by
  rw [every_iff]
  simp

@[simp] theorem every_unquote {v : Node} :
    (⟨s, .unquote v⟩ : Node).Every P ↔ P ⟨s, .unquote v⟩ ∧ v.Every P := by
  rw [every_iff]
  simp

end Every

end Node

end Quasiquote
