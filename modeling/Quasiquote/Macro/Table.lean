import Quasiquote.Macro.Signature
import Quasiquote.Unit.Image

namespace Quasiquote

/-!
# Macro tables — the macros of one type

A table keeps one entry for each name and signature, in the order in which they
were first added.  A call resolves to the first entry whose name and shape fit.

* `EntryKind`, `MacroEntry` — one callable macro;
* `MacroTable.add` — adds an entry, or replaces the one with its name and
  signature;
* `MacroTable.resolve` — the entry that a call means.
-/

/-- How an entry came into a table. -/
inductive EntryKind where
  /-- Under the full signature of a macro. -/
  | full
  /-- Without the block that calls may leave out. -/
  | blockless
deriving DecidableEq, Repr

/-- One callable macro and the unit that expands its calls. -/
structure MacroEntry where
  name : String
  signature : Signature
  kind : EntryKind
  unit : LoadedUnit

/-- The macros of one type. -/
structure MacroTable where
  entries : List MacroEntry := []

namespace MacroEntry

/-- Whether an entry stands under a name and a signature. -/
def hasKey (e : MacroEntry) (name : String) (signature : Signature) : Bool :=
  e.name == name && e.signature == signature

/-- Whether a call of a name fits an entry. -/
def fits (e : MacroEntry) (name : String) (argc : Nat) (block : Bool) : Bool :=
  e.name == name && e.signature.accepts argc block

end MacroEntry

namespace MacroTable

/-- Replaces the first entry with the key of `e`, or appends `e`; tells whether
    it was appended. -/
def addTo (e : MacroEntry) : List MacroEntry → List MacroEntry × Bool
  | [] => ([e], true)
  | x :: xs =>
    if x.hasKey e.name e.signature then (e :: xs, false)
    else
      let (xs, added) := addTo e xs
      (x :: xs, added)

/-- Adds an entry; tells whether its name and signature are new. -/
def add (t : MacroTable) (e : MacroEntry) : MacroTable × Bool :=
  let (entries, added) := addTo e t.entries
  (⟨entries⟩, added)

/-- The entry that a call with `argc` arguments, with or without a block, means. -/
def resolve (t : MacroTable) (name : String) (argc : Nat) (block : Bool) : Option MacroEntry :=
  t.entries.find? (·.fits name argc block)

/-- The entries of a name. -/
def named (t : MacroTable) (name : String) : List MacroEntry :=
  t.entries.filter (·.name == name)

/-- Whether a name has entries. -/
def contains (t : MacroTable) (name : String) : Bool := t.entries.any (·.name == name)

/-- How many entries there are. -/
def size (t : MacroTable) : Nat := t.entries.length

/-- An added entry is in the table. -/
theorem mem_addTo (e : MacroEntry) (xs : List MacroEntry) : e ∈ (addTo e xs).1 := by
  induction xs with
  | nil => simp [addTo]
  | cons x xs ih =>
    simp only [addTo]
    split
    · simp
    · simp [ih]

end MacroTable

end Quasiquote
