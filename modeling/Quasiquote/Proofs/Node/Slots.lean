import Mathlib.Data.List.Nodup
import Quasiquote.Proofs.Node.Descent

namespace Quasiquote

/-!
# Slots — where a part stands in a tree

A part of a node has a slot, which stays its name when other parts change.  A list of slots leads
from a tree down to one of the trees inside it.

* `Slot`, `Node.slot?`, `Node.slots` — the slots of a node in source order, and what is in them;
* `Node.at?` — the tree that a path leads to;
* `Node.children_eq_slots` — the direct parts are what is in the slots;
* `Node.slot?_descend` — parts are replaced in their slots.
-/

/-- The place of a direct part. -/
inductive Slot where
  | value | target | arg (i : Nat) | block | test | yes | no | item (i : Nat) | body
  | default (i : Nat)
deriving DecidableEq, Repr

namespace Node

/-- The part in a slot, if there is one. -/
def slot? : Node → Slot → Option Node
  | ⟨_, .assign _ v⟩, .value | ⟨_, .fieldAssign _ v⟩, .value | ⟨_, .unquote v⟩, .value => some v
  | ⟨_, .call target _ _ _⟩, .target => some target
  | ⟨_, .call _ _ args _⟩, .arg i | ⟨_, .invoke _ args _⟩, .arg i => args[i]?
  | ⟨_, .call _ _ _ block⟩, .block | ⟨_, .invoke _ _ block⟩, .block => block
  | ⟨_, .cond test _ _⟩, .test => some test
  | ⟨_, .cond _ yes _⟩, .yes => some yes
  | ⟨_, .cond _ _ no⟩, .no => no
  | ⟨_, .body items⟩, .item i => items[i]?
  | ⟨_, .methodDef _ params _ _⟩, .default i => params[i]?.bind Parameter.default
  | ⟨_, .block _ b _⟩, .body | ⟨_, .classDef _ _ b⟩, .body | ⟨_, .methodDef _ _ _ b⟩, .body
  | ⟨_, .quote b⟩, .body => some b
  | _, _ => none

/-- The slots that a node has, in source order.  Some may be empty. -/
def slots : Node → List Slot
  | ⟨_, .assign _ _⟩ | ⟨_, .fieldAssign _ _⟩ | ⟨_, .unquote _⟩ => [.value]
  | ⟨_, .call _ _ args _⟩ => .target :: ((List.range args.length).map .arg ++ [.block])
  | ⟨_, .invoke _ args _⟩ => (List.range args.length).map .arg ++ [.block]
  | ⟨_, .cond _ _ _⟩ => [.test, .yes, .no]
  | ⟨_, .body items⟩ => (List.range items.length).map .item
  | ⟨_, .methodDef _ params _ _⟩ => (List.range params.length).map .default ++ [.body]
  | ⟨_, .block _ _ _⟩ | ⟨_, .classDef _ _ _⟩ | ⟨_, .quote _⟩ => [.body]
  | _ => []

/-- The tree that a path leads to. -/
def at? : Node → List Slot → Option Node
  | n, [] => some n
  | n, s :: path => (n.slot? s).bind (at? · path)

@[simp] theorem at?_nil (n : Node) : n.at? [] = some n := rfl

@[simp] theorem at?_cons (n : Node) (s : Slot) (path : List Slot) :
    n.at? (s :: path) = (n.slot? s).bind (at? · path) := rfl

variable {n c : Node} {s : Slot}

/-- What stands at the indices of a list is the list. -/
theorem filterMap_range_getElem? {α : Type} (xs : List α) :
    (List.range xs.length).filterMap (xs[·]?) = xs := by
  induction xs with
  | nil => rfl
  | cons x xs ih =>
    rw [List.length_cons, List.range_succ_eq_map, List.filterMap_cons, List.filterMap_map]
    exact congrArg (x :: ·) ih

/-- The direct parts are what is in the slots. -/
theorem children_eq_slots (n : Node) : n.children = n.slots.filterMap n.slot? := by
  have hlast (b : Option Node) {f : Slot → Option Node} (hf : f .block = b) :
      b.toList = [Slot.block].filterMap f := by
    cases b <;> simp [hf]
  obtain ⟨s, form⟩ := n
  cases form
  case call target name args block =>
    have htarget : slot? ⟨s, .call target name args block⟩ .target = some target := rfl
    rw [children, slots, List.filterMap_cons_some htarget, List.filterMap_append,
      List.filterMap_map, ← hlast block rfl]
    exact congrArg (fun as => target :: (as ++ block.toList)) (filterMap_range_getElem? args).symm
  case invoke name args block =>
    rw [children, slots, List.filterMap_append, List.filterMap_map, ← hlast block rfl]
    exact congrArg (· ++ block.toList) (filterMap_range_getElem? args).symm
  case cond test yes no => cases no <;> rfl
  case body items =>
    rw [children, slots, List.filterMap_map]
    exact (filterMap_range_getElem? items).symm
  case methodDef name params returns body =>
    rw [children, slots, List.filterMap_append, List.filterMap_map]
    have hparams : params.filterMap Parameter.default = (List.range params.length).filterMap
        fun i => params[i]?.bind Parameter.default := by
      rw [← List.filterMap_filterMap, filterMap_range_getElem?]
    rw [hparams]
    rfl
  all_goals rfl

theorem nodup_slots (n : Node) : n.slots.Nodup := by
  have hrange (slot : Nat → Slot) (h : Function.Injective slot) (k : Nat) :
      ((List.range k).map slot).Nodup := (List.nodup_range).map h
  have hargs := fun k => hrange .arg (fun i j hij => by simpa using hij) k
  have hdefaults := fun k => hrange .default (fun i j hij => by simpa using hij) k
  have hitems := fun k => hrange .item (fun i j hij => by simpa using hij) k
  obtain ⟨s, form⟩ := n
  cases form <;>
    simp [slots, List.nodup_append, hargs, hdefaults, hitems]

theorem mem_slots (h : n.slot? s = some c) : s ∈ n.slots := by
  obtain ⟨sp, form⟩ := n
  cases form <;> cases s <;> simp only [slot?, reduceCtorEq] at h <;>
    simp [slots]
  case methodDef.default i =>
    obtain ⟨p, hp, -⟩ := Option.bind_eq_some_iff.1 h
    exact (List.getElem?_eq_some_iff.1 hp).1
  all_goals exact (List.getElem?_eq_some_iff.1 h).1

/-- A part that is replaced stays in its slot. -/
@[simp] theorem slot?_descend (g : Node → Node) (n : Node) (s : Slot) :
    (n.descend g).slot? s = (n.slot? s).map g := by
  obtain ⟨sp, form⟩ := n
  cases form <;> cases s <;> try rfl
  case methodDef.default name params returns body i =>
    cases hp : params[i]? <;>
      simp [descend, slot?, hp, Parameter.withDefault, Parameter.default]
  all_goals simp [descend, slot?]

end Node

end Quasiquote
