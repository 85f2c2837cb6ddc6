import Mathlib.Data.List.Forall2
import Quasiquote.Macro.Inline
import Quasiquote.Proofs.Macro.Accepted
import Quasiquote.Proofs.Macro.Signature

namespace Quasiquote

/-!
# Macro definitions — which of them are accepted

A definition is accepted if and only if the macro that its signature describes is well-formed.  The
signatures of such a macro can be stored: what is written of them is read as the same signatures.

* `MacroSpec.WellFormed`, `MacroSpec.flaw?_eq_none_iff` — macros without a flaw;
* `MacroSpec.CallForm`, `MacroSpec.MethodForm` — the macros that signatures of both forms describe;
* `MacroSpec.WellFormed.decode?_encode` — the signatures of a well-formed macro read back;
* `Node.expandInline_definition` — what becomes of a definition.
-/

namespace MacroSpec

/-- A macro without a flaw: it has a body, its arguments have names of their own, no required
    argument is behind an optional one, and no argument is behind a block. -/
structure WellFormed (m : MacroSpec) : Prop where
  body : m.body.statements ≠ []
  names : (m.args.map Argument.name).Nodup
  order : m.args.Pairwise fun a b => a.kind = .optional → b.kind ≠ .required
  blockLast : ∀ a ∈ m.args.dropLast, a.kind ≠ .block

variable {m : MacroSpec}

/-- Nothing keeps a macro from being defined if and only if it is well-formed. -/
theorem flaw?_eq_none_iff : m.flaw? = none ↔ m.WellFormed := by
  rw [flaw?]
  constructor
  · intro h
    split at h
    · cases h
    · rename_i hbody
      have haccepted := accepted_of_argumentFlaw? h
      exact ⟨by simpa using hbody, haccepted.nodup.1, haccepted.order, haccepted.blockLast⟩
  · intro h
    rw [if_neg (by simpa using h.body)]
    apply argumentFlaw?_of_accepted
    exact .of_order h.names (by simp) h.order nofun h.blockLast

/-- The signatures under which a well-formed macro can be called are read as they are written. -/
theorem WellFormed.decode?_encode (h : m.WellFormed) :
    Signature.decode? m.signature.encode = some m.signature ∧
    Signature.decode? m.signature.withoutBlock.encode = some m.signature.withoutBlock := by
  have hlast : Signature.blockLast m.signature.params = true := by
    rw [Signature.blockLast_iff, signature, ← List.map_dropLast]
    exact List.forall_mem_map.2 h.blockLast
  refine ⟨?_, Signature.decode?_encode_withoutBlock hlast⟩
  rw [Signature.decode?_encode, if_pos hlast]

end MacroSpec

/-! ### Signatures -/

/-- A list is read if all of its elements are. -/
theorem mapM_eq_ok_iff {α β ε : Type} {f : α → Except ε β} {xs : List α} {ys : List β} :
    xs.mapM f = .ok ys ↔ List.Forall₂ (fun x y => f x = .ok y) xs ys := by
  induction xs generalizing ys with
  | nil => cases ys <;> simp [pure, Except.pure]
  | cons x xs ih =>
    simp only [List.mapM_cons, bind_eq_ok_iff, List.forall₂_cons_left_iff, ih]
    constructor
    · rintro ⟨y, hy, ys, hys, hresult⟩
      exact ⟨y, ys, hy, hys, (Except.ok.inj hresult).symm⟩
    · rintro ⟨y, ys, hy, hys, rfl⟩
      exact ⟨y, hy, ys, hys, rfl⟩

/-- A node declares an argument: an identifier, an assignment of a default, or a block. -/
inductive Node.Declares : Node → Argument → Prop where
  | ident (s : Span) (x : String) : Node.Declares ⟨s, .ident x⟩ (.required x)
  | assign (s : Span) (x : String) (default : Node) :
    Node.Declares ⟨s, .assign x default⟩ (.optional x default)
  | block (s : Span) (x : String) (optional : Bool) :
    Node.Declares ⟨s, .blockArgument x optional⟩ (.block x optional)

/-- The argument that a parameter stands for. -/
def Parameter.argument (p : Parameter) : Argument :=
  if p.isBlock then .block p.name p.default.isSome
  else p.default.elim (.required p.name) (.optional p.name)

namespace MacroSpec

/-- A signature in the form of a call, and the block with the body behind it, describe a macro. -/
inductive CallForm : Node → Option Node → MacroSpec → Prop where
  | list (s t : Span) (name : String) {params : List Node} {args : List Argument} (body : Node)
    (brace : Bool) : List.Forall₂ Node.Declares params args →
    CallForm ⟨s, .invoke name params none⟩ (some ⟨t, .block [] body brace⟩) ⟨name, args, body⟩
  | bare (s t : Span) (name : String) (body : Node) (brace : Bool) :
    CallForm ⟨s, .ident name⟩ (some ⟨t, .block [] body brace⟩) ⟨name, [], body⟩

/-- A signature in the form of a method, whose blocks have no defaults, describes a macro. -/
inductive MethodForm : Node → Option Node → MacroSpec → Prop where
  | method (s : Span) (name : String) (params : List Parameter) (returns : Option String)
    (body : Node) : (∀ p ∈ params, p.isBlock = true → p.default = none) →
    MethodForm ⟨s, .methodDef name params returns body⟩ none
      ⟨name, params.map Parameter.argument, body⟩

variable {source keyword name : String} {signature call : Node} {m m' : MacroSpec}

theorem argumentOfNode_eq_ok_iff {n : Node} {a : Argument} :
    argumentOfNode source name n = .ok a ↔ n.Declares a := by
  constructor
  · intro h
    obtain ⟨s, f⟩ := n
    unfold argumentOfNode at h
    split at h
    case h_1 x hf =>
      cases h
      cases hf
      exact .ident s x
    case h_2 x d hf =>
      cases h
      cases hf
      exact .assign s x d
    case h_3 x o hf =>
      cases h
      cases hf
      exact .block s x o
    case h_4 => cases h
  · intro h
    cases h
    all_goals rfl

theorem argumentOfParameter_eq_ok_iff {p : Parameter} {a : Argument} :
    argumentOfParameter source name call p = .ok a ↔
      (p.isBlock = true → p.default = none) ∧ p.argument = a := by
  rw [argumentOfParameter, Parameter.argument]
  cases p.default with
  | none => cases p.isBlock <;> simp
  | some d => cases p.isBlock <;> simp [rejected]

/-- What a method describes, if anything. -/
theorem ofMethodForm_eq_ok_iff {params : List Parameter} {body : Node} :
    ofMethodForm source name params body call = .ok m ↔
      (∀ p ∈ params, p.isBlock = true → p.default = none) ∧
      m = ⟨name, params.map Parameter.argument, body⟩ := by
  have hparams {args : List Argument} :
      params.mapM (argumentOfParameter source name call) = .ok args ↔
        (∀ p ∈ params, p.isBlock = true → p.default = none) ∧
        params.map Parameter.argument = args := by
    simp only [mapM_eq_ok_iff, argumentOfParameter_eq_ok_iff]
    rw [List.forall₂_and_left, ← List.forall₂_eq_eq_eq, List.forall₂_map_left_iff]
  simp only [ofMethodForm, bind_eq_ok_iff, hparams]
  constructor
  · rintro ⟨args, ⟨hblocks, rfl⟩, hm⟩
    exact ⟨hblocks, (Except.ok.inj hm).symm⟩
  · rintro ⟨hblocks, rfl⟩
    exact ⟨_, ⟨hblocks, rfl⟩, rfl⟩

/-- What a call describes, if anything. -/
theorem ofCallForm_eq_ok_iff {params : List Node} :
    ofCallForm source name params call = .ok m ↔ ∃ args t body brace,
      List.Forall₂ Node.Declares params args ∧
      call.callBlock = some ⟨t, .block [] body brace⟩ ∧ m = ⟨name, args, body⟩ := by
  simp only [ofCallForm, bind_eq_ok_iff, mapM_eq_ok_iff, argumentOfNode_eq_ok_iff]
  constructor
  · rintro ⟨args, hargs, h⟩
    split at h
    case h_1 t names body brace hblock =>
      cases names with
      | nil => exact ⟨args, t, body, brace, hargs, hblock, (Except.ok.inj h).symm⟩
      | cons x names => cases h
    case h_2 => cases h
  · rintro ⟨args, t, body, brace, hargs, hblock, rfl⟩
    refine ⟨args, hargs, ?_⟩
    rw [hblock]
    rfl

/-- What a signature describes, if anything. -/
theorem ofSignature_eq_ok_iff :
    ofSignature source keyword signature call = .ok m ↔
      CallForm signature call.callBlock m ∨ MethodForm signature call.callBlock m := by
  constructor
  · intro h
    obtain ⟨s, f⟩ := signature
    unfold ofSignature at h
    split at h
    case h_1 name params returns body hf =>
      cases hf
      split at h
      · cases h
      · rename_i hblock
        obtain ⟨hparams, rfl⟩ := ofMethodForm_eq_ok_iff.1 h
        rw [Option.not_isSome_iff_eq_none.1 hblock]
        exact .inr (.method s name params returns body hparams)
    case h_2 name params block hf =>
      cases hf
      cases block with
      | some b => cases h
      | none =>
        obtain ⟨args, t, body, brace, hargs, hblock, rfl⟩ := ofCallForm_eq_ok_iff.1 h
        rw [hblock]
        exact .inl (.list s t name body brace hargs)
    case h_3 name hf =>
      cases hf
      obtain ⟨args, t, body, brace, hargs, hblock, rfl⟩ := ofCallForm_eq_ok_iff.1 h
      cases hargs
      rw [hblock]
      exact .inl (.bare s t name body brace)
    case h_4 => cases h
  · rintro (h | h)
    · -- the forms speak of the block alone, whatever call it belongs to
      generalize hblock : call.callBlock = block at h
      cases h with
      | list s t name body brace hargs =>
        exact ofCallForm_eq_ok_iff.2 ⟨_, t, body, brace, hargs, hblock, rfl⟩
      | bare s t name body brace =>
        exact ofCallForm_eq_ok_iff.2 ⟨_, t, body, brace, .nil, hblock, rfl⟩
    · generalize hblock : call.callBlock = block at h
      cases h with
      | method s name params returns body hparams =>
        simp only [ofSignature, Node.form_mk, hblock, Option.isSome_none, Bool.false_eq_true,
          if_false]
        exact ofMethodForm_eq_ok_iff.2 ⟨hparams, rfl⟩

/-- A signature describes one macro. -/
theorem CallForm.unique {block : Option Node} (h : CallForm signature block m)
    (h' : CallForm signature block m' ∨ MethodForm signature block m') : m' = m := by
  have hread : ofSignature "" "" signature ⟨Span.zero, .invoke "" [] block⟩ = .ok m :=
    ofSignature_eq_ok_iff.2 (.inl h)
  have hread' : ofSignature "" "" signature ⟨Span.zero, .invoke "" [] block⟩ = .ok m' :=
    ofSignature_eq_ok_iff.2 h'
  exact Except.ok.inj (hread'.symm.trans hread)

end MacroSpec

/-! ### Definitions -/

namespace Node

open MacroSpec (CallForm MethodForm)

variable {keyword source : String} {s : Span} {args : List Node} {block : Option Node} {n : Node}

/-- A definition is put in the place of the call that makes it. -/
theorem expandInline_eq_ok_iff (hkeyword : keyword = "macro" ∨ keyword = "defmacro") :
    expandInline ⟨.builtins, source⟩ ⟨s, .invoke keyword args block⟩ = .ok n ↔
      ∃ signature m, args = [signature] ∧
        (CallForm signature block m ∨ MethodForm signature block m) ∧ m.WellFormed ∧
        n = ⟨s, .macroDef m.name m.args m.body none⟩ := by
  have hbuiltin : InlineMacros.builtins.get? keyword = some .definition := by
    rcases hkeyword with rfl | rfl
    all_goals decide
  have hexpand : expandInline ⟨.builtins, source⟩ ⟨s, .invoke keyword args block⟩ =
      expandDefinitionM ⟨.builtins, source⟩ throw keyword ⟨s, .invoke keyword args block⟩ := by
    rw [expandInline, expandInlineM, if_neg Bool.false_ne_true, hbuiltin]
  have hcall {m : MacroSpec} : MacroSpec.ofCall source keyword ⟨s, .invoke keyword args block⟩ = .ok m ↔
      ∃ signature, args = [signature] ∧
        (CallForm signature block m ∨ MethodForm signature block m) ∧ m.WellFormed := by
    simp only [MacroSpec.ofCall_eq_ok_iff, MacroSpec.ofSignature_eq_ok_iff,
      MacroSpec.flaw?_eq_none_iff]
    rfl
  rw [hexpand, expandDefinitionM]
  constructor
  · intro h
    split at h
    case h_1 m hm =>
      obtain ⟨signature, hargs, hform, hwell⟩ := hcall.1 hm
      exact ⟨signature, m, hargs, hform, hwell, (Except.ok.inj h).symm⟩
    case h_2 => cases h
  · rintro ⟨signature, m, hargs, hform, hwell, rfl⟩
    rw [hcall.2 ⟨signature, hargs, hform, hwell⟩]
    rfl

/-- Exactly the well-formed definitions are accepted.  A signature in the form of a call makes a
    definition if and only if the macro that it describes with the block behind it is well-formed; one
    in the form of a method, if and only if moreover its block has no default.  The signatures under
    which an accepted macro is called, with its block and without, are read as they are written. -/
theorem expandInline_definition (source : String) (s : Span)
    (hkeyword : keyword = "macro" ∨ keyword = "defmacro") :
    let expanded (args : List Node) (block : Option Node) : Except Diagnostic Node :=
      expandInline ⟨.builtins, source⟩ ⟨s, .invoke keyword args block⟩
    (∀ signature block m, CallForm signature block m → ∀ n, expanded [signature] block = .ok n ↔
      m.WellFormed ∧ n = ⟨s, .macroDef m.name m.args m.body none⟩) ∧
    (∀ t name params returns body n,
      expanded [⟨t, .methodDef name params returns body⟩] none = .ok n ↔
        (MacroSpec.WellFormed ⟨name, params.map Parameter.argument, body⟩ ∧
          ∀ p ∈ params, p.isBlock = true → p.default = none) ∧
        n = ⟨s, .macroDef name (params.map Parameter.argument) body none⟩) ∧
    (∀ args block n, expanded args block = .ok n →
      ∃ m : MacroSpec, n = ⟨s, .macroDef m.name m.args m.body none⟩ ∧
        Signature.decode? m.signature.encode = some m.signature ∧
        Signature.decode? m.signature.withoutBlock.encode = some m.signature.withoutBlock) := by
  intro expanded
  refine ⟨?_, ?_, ?_⟩
  · intro signature block m hform n
    rw [expandInline_eq_ok_iff hkeyword]
    constructor
    · -- whatever macro was defined, the signature describes only one
      rintro ⟨signature', m', hargs, hform', hwell, rfl⟩
      obtain rfl : signature = signature' := (List.cons.inj hargs).1
      obtain rfl := hform.unique hform'
      exact ⟨hwell, rfl⟩
    · rintro ⟨hwell, rfl⟩
      exact ⟨signature, m, rfl, .inl hform, hwell, rfl⟩
  · intro t name params returns body n
    rw [expandInline_eq_ok_iff hkeyword]
    constructor
    · rintro ⟨signature, m, hargs, hform, hwell, rfl⟩
      obtain rfl := (List.cons.inj hargs).1
      obtain hform | hform := hform
      · cases hform
      · cases hform with
        | method _ _ _ _ _ hparams => exact ⟨⟨hwell, hparams⟩, rfl⟩
    · rintro ⟨⟨hwell, hparams⟩, rfl⟩
      exact ⟨_, _, rfl, .inr (.method t name params returns body hparams), hwell, rfl⟩
  · intro args block n h
    obtain ⟨-, m, -, -, hwell, rfl⟩ := (expandInline_eq_ok_iff hkeyword).1 h
    exact ⟨m, rfl, hwell.decode?_encode⟩

/-- A block that calls may leave out is accepted in the form of a call, and not in the form of a
    method. -/
theorem expandInline_definition_optional : let at' (f : Form) : Node := ⟨Span.zero, f⟩
    let expanded (signature : Form) (block : Option Node) : Except Diagnostic Node :=
      expandInline ⟨.builtins, "t"⟩ (at' (.invoke "macro" [at' signature] block))
    ("macro" = "macro" ∨ "macro" = "defmacro") ∧
    (∃ n, expanded (.invoke "m" [at' (.ident "a"), at' (.assign "b" (at' .nil)),
        at' (.blockArgument "c" true)] none) (some (at' (.block [] (at' (.ident "a")) false))) = .ok n) ∧
    (∀ n, expanded (.methodDef "m" [⟨"a", none, none, false⟩, ⟨"c", none, some (at' .nil), true⟩] none
        (at' (.ident "a"))) none ≠ .ok n) ∧
    Signature.decode? "(ROB)N" = some ⟨[.required, .optional, .block]⟩ := by
  intro at' expanded
  obtain ⟨hcall, hmethod, hstored⟩ :=
    @expandInline_definition "macro" "t" Span.zero (.inl rfl)
  let m : MacroSpec :=
    ⟨"m", [.required "a", .optional "b" (at' .nil), .block "c" true], at' (.ident "a")⟩
  have hform := CallForm.list Span.zero Span.zero m.name m.body false
    (.cons (.ident Span.zero "a") (.cons (.assign Span.zero "b" (at' .nil))
      (.cons (.block Span.zero "c" true) .nil)))
  have hwell : m.WellFormed :=
    ⟨by simp [m, at', statements], by simp [m, Argument.name], by simp [m, Argument.kind],
      by simp [m, Argument.kind]⟩
  have hdefined := (hcall _ _ m hform _).2 ⟨hwell, rfl⟩
  refine ⟨.inl rfl, ⟨_, hdefined⟩, ?_, ?_⟩
  · intro n hn
    have hdefault := ((hmethod _ _ _ _ _ _).1 hn).1.2 ⟨"c", none, some (at' .nil), true⟩ (by simp) rfl
    cases hdefault
  · obtain ⟨⟨name, args, body⟩, hm, hread, -⟩ := hstored _ _ _ hdefined
    cases hm
    exact hread

end Node

end Quasiquote
