import Quasiquote.Macro.Definition
import Quasiquote.Proofs.Macro.Entries

namespace Quasiquote

/-!
# Accepted definitions — what the arguments of a macro are like

* `MacroSpec.Accepted` — the lists of arguments that have no flaw;
* `MacroSpec.accepted_of_ofCall` — those of an accepted definition are among them;
* `MacroSpec.Accepted.nodup`, `MacroSpec.Accepted.order`, `MacroSpec.Accepted.blockLast` — their
  names and their order;
* `MacroSpec.Accepted.of_order` — that no other flaws are looked for;
* `Signature.required_le` — a call that fits a macro has all arguments that are required.
-/

/-- A computation in two steps succeeds if both steps do. -/
theorem bind_eq_ok_iff {ε α β : Type} {x : Except ε α} {f : α → Except ε β} {b : β} :
    x >>= f = .ok b ↔ ∃ a, x = .ok a ∧ f a = .ok b := by
  cases x with
  | error e => simp [bind, Except.bind]
  | ok a => simp [bind, Except.bind]

namespace MacroSpec

/-- The lists of arguments that have no flaw, behind arguments of other names.  The flag tells
    whether one of these is optional. -/
inductive Accepted : List String → Bool → List Argument → Prop
  | nil (earlier : List String) (optional : Bool) : Accepted earlier optional []
  | required {earlier : List String} {name : String} {args : List Argument}
      (hname : name ∉ earlier) (hargs : Accepted (name :: earlier) false args) :
      Accepted earlier false (.required name :: args)
  | optional {earlier : List String} {optional : Bool} {name : String} {default : Node}
      {args : List Argument} (hname : name ∉ earlier)
      (hargs : Accepted (name :: earlier) true args) :
      Accepted earlier optional (.optional name default :: args)
  | block {earlier : List String} {optional : Bool} {name : String} {absent : Bool}
      (hname : name ∉ earlier) : Accepted earlier optional [.block name absent]

theorem accepted_of_argumentFlaw? {args : List Argument} {earlier : List String}
    {optional : Bool} (h : argumentFlaw? earlier optional args = none) :
    Accepted earlier optional args := by
  induction args generalizing earlier optional with
  | nil => exact .nil _ _
  | cons a args ih =>
    unfold argumentFlaw? at h
    by_cases hname : earlier.contains a.name = true
    · rw [if_pos hname] at h
      cases h
    · rw [if_neg hname] at h
      have hnew : a.name ∉ earlier := by simpa using hname
      cases a with
      | required name =>
        cases optional with
        | true => cases h
        | false => exact .required hnew (ih h)
      | optional name d => exact .optional hnew (ih h)
      | block name absent =>
        cases args with
        | nil => exact .block hnew
        | cons b args => cases h

theorem argumentFlaw?_of_accepted {args : List Argument} {earlier : List String} {optional : Bool}
    (h : Accepted earlier optional args) : argumentFlaw? earlier optional args = none := by
  induction h with
  | nil => rfl
  | required hname hargs ih => simpa [argumentFlaw?, Argument.name, hname] using ih
  | optional hname hargs ih => simpa [argumentFlaw?, Argument.name, hname] using ih
  | block hname => simp [argumentFlaw?, Argument.name, hname]

/-- A call defines what its signature describes, if that has no flaw. -/
theorem ofCall_eq_ok_iff {source keyword : String} {call : Node} {m : MacroSpec} :
    ofCall source keyword call = .ok m ↔ ∃ signature, call.callArgs = [signature] ∧
      ofSignature source keyword signature call = .ok m ∧ m.flaw? = none := by
  unfold ofCall
  split
  case h_2 signature hargs =>
    simp only [bind_eq_ok_iff, hargs, List.cons.injEq, and_true, exists_eq_left']
    constructor
    · rintro ⟨m', hm, h⟩
      cases hflaw : m'.flaw? with
      | some reason =>
        rw [hflaw] at h
        cases h
      | none =>
        rw [hflaw] at h
        cases h
        exact ⟨hm, hflaw⟩
    · rintro ⟨hm, hflaw⟩
      refine ⟨m, hm, ?_⟩
      rw [hflaw]
      rfl
  case h_1 hargs => simp [rejected, hargs]
  case h_3 hargs =>
    constructor
    · nofun
    · rintro ⟨signature, hone, -⟩
      exact absurd hone (hargs signature)

/-- The arguments of a macro that a call defines have no flaw. -/
theorem accepted_of_ofCall {source keyword : String} {call : Node} {m : MacroSpec}
    (h : ofCall source keyword call = .ok m) : Accepted [] false m.args := by
  obtain ⟨signature, -, -, hflaw⟩ := ofCall_eq_ok_iff.1 h
  unfold flaw? at hflaw
  split at hflaw
  · cases hflaw
  · exact accepted_of_argumentFlaw? hflaw

namespace Accepted

variable {earlier : List String} {optional : Bool} {args : List Argument}

/-- The names of arguments without a flaw are different. -/
theorem nodup (h : Accepted earlier optional args) :
    (args.map Argument.name).Nodup ∧ ∀ a ∈ args, a.name ∉ earlier := by
  -- a name that is not among the earlier ones, and that the later ones do not repeat
  have hcons {earlier : List String} {a : Argument} {args : List Argument}
      (hname : a.name ∉ earlier) (hnodup : (args.map Argument.name).Nodup)
      (hnew : ∀ b ∈ args, b.name ∉ a.name :: earlier) :
      ((a :: args).map Argument.name).Nodup ∧ ∀ b ∈ a :: args, b.name ∉ earlier := by
    refine ⟨List.nodup_cons.2 ⟨fun hmem => ?_, hnodup⟩, fun b hb => ?_⟩
    · obtain ⟨b, hb, hsame⟩ := List.mem_map.1 hmem
      exact hnew b hb (hsame ▸ List.mem_cons_self)
    · rcases List.mem_cons.1 hb with rfl | hb
      · exact hname
      · exact fun hmem => hnew b hb (List.mem_cons_of_mem _ hmem)
  induction h with
  | nil => exact ⟨List.nodup_nil, fun a ha => absurd ha List.not_mem_nil⟩
  | required hname hargs ih => exact hcons hname ih.1 ih.2
  | optional hname hargs ih => exact hcons hname ih.1 ih.2
  | block hname => exact hcons hname List.nodup_nil fun b hb => absurd hb List.not_mem_nil

/-- No argument behind an optional one is required. -/
theorem count_required (h : Accepted earlier true args) :
    (args.map Argument.kind).count .required = 0 := by
  generalize hoptional : true = optional at h
  induction h with
  | nil => rfl
  | required => cases hoptional
  | optional hname hargs ih => simpa [Argument.kind] using ih rfl
  | block => rfl

theorem not_required (h : Accepted earlier true args) : ∀ a ∈ args, a.kind ≠ .required := by
  intro a ha hkind
  have hcount := List.count_eq_zero.1 h.count_required
  exact hcount (hkind ▸ List.mem_map_of_mem ha)

/-- Arguments without a flaw come in order: no required one is behind an optional one. -/
theorem order (h : Accepted earlier optional args) :
    args.Pairwise fun a b => a.kind = .optional → b.kind ≠ .required := by
  induction h with
  | nil => exact .nil
  | required hname hargs ih => exact List.pairwise_cons.2 ⟨fun b hb => nofun, ih⟩
  | optional hname hargs ih =>
    exact List.pairwise_cons.2 ⟨fun b hb _ => hargs.not_required b hb, ih⟩
  | block hname => exact List.pairwise_singleton _ _

/-- Of arguments without a flaw only the last one may be a block. -/
theorem blockLast (h : Accepted earlier optional args) :
    ∀ a ∈ args.dropLast, a.kind ≠ .block := by
  -- an argument that is no block may stand in front of others
  have hcons {a : Argument} {args : List Argument} (ha : a.kind ≠ .block)
      (hargs : ∀ b ∈ args.dropLast, b.kind ≠ .block) :
      ∀ b ∈ (a :: args).dropLast, b.kind ≠ .block := by
    cases args with
    | nil => simp
    | cons b args =>
      rw [List.dropLast_cons_cons]
      exact List.forall_mem_cons.2 ⟨ha, hargs⟩
  induction h with
  | nil => simp
  | required hname hargs ih => exact hcons nofun ih
  | optional hname hargs ih => exact hcons nofun ih
  | block hname => simp

/-- Arguments have no flaw if their names are new and different, none is required behind an optional
    one, and none is behind a block. -/
theorem of_order (hnames : (args.map Argument.name).Nodup) (hnew : ∀ a ∈ args, a.name ∉ earlier)
    (horder : args.Pairwise fun a b => a.kind = .optional → b.kind ≠ .required)
    (hoptional : optional = true → ∀ a ∈ args, a.kind ≠ .required)
    (hblock : ∀ a ∈ args.dropLast, a.kind ≠ .block) : Accepted earlier optional args := by
  -- the names in front and the flag change with each argument, and so do the facts about them
  induction args generalizing earlier optional with
  | nil => exact .nil _ _
  | cons a args ih =>
    obtain ⟨hdifferent, hnames'⟩ := List.nodup_cons.1 hnames
    obtain ⟨hname, hrest⟩ := List.forall_mem_cons.1 hnew
    obtain ⟨hbehind, horder'⟩ := List.pairwise_cons.1 horder
    have hnew' : ∀ b ∈ args, b.name ∉ a.name :: earlier := by
      intro b hb hmem
      rcases List.mem_cons.1 hmem with hsame | hmem
      · exact hdifferent (hsame ▸ List.mem_map_of_mem hb)
      · exact hrest b hb hmem
    have hblock' : ∀ b ∈ args.dropLast, b.kind ≠ .block := by
      cases args with
      | nil => simp
      | cons b args => exact (List.forall_mem_cons.1 hblock).2
    cases a with
    | required x =>
      cases optional with
      | true => exact absurd rfl (hoptional rfl _ List.mem_cons_self)
      | false => exact .required hname (ih hnames' hnew' horder' nofun hblock')
    | optional x d =>
      exact .optional hname (ih hnames' hnew' horder' (fun _ b hb => hbehind b hb rfl) hblock')
    | block x absent =>
      cases args with
      | nil => exact .block hname
      | cons b args => exact absurd rfl (hblock _ List.mem_cons_self)

end Accepted

end MacroSpec

/-- A call that fits a form of a macro has all arguments that are required. -/
theorem Signature.required_le {m : MacroSpec} {form : Signature × EntryKind} (hform : form ∈ m.forms)
    {argc : Nat} {block : Bool} (h : form.1.accepts argc block = true) :
    m.signature.required ≤ argc := by
  have hrequired : form.1.required ≤ argc := by
    simp only [accepts, Bool.and_eq_true, decide_eq_true_eq] at h
    exact h.1.2
  have hsame : form.1.required = m.signature.required := by
    unfold MacroSpec.forms at hform
    rcases List.mem_cons.1 hform with rfl | hform
    · rfl
    · split at hform
      · obtain rfl := List.mem_singleton.1 hform
        exact required_withoutBlock m.signature
      · cases hform
  exact hsame ▸ hrequired

end Quasiquote
