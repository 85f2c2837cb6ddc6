import Quasiquote.Json.Basic
import Quasiquote.Word

namespace Quasiquote

/-!
# Records in JSON

A record is written as an object with a field for each of its parts.  When it is
read, fields may come in any order, unknown fields are passed over, and no known
field may come twice; a list of the parts in order is a record as well.

* `Json.Slot` — what is known about one part;
* `Json.slots` — the parts of a record;
* `Json.variant` — a choice, with its name and what belongs to it.
-/

namespace Json

/-- What is known about one part of a record. -/
inductive Slot where
  | present (v : Json)
  /-- The object has no such field. -/
  | missing
  /-- The list of the parts ends before this one. -/
  | cut

/-- A part that has to be there. -/
def Slot.required : Slot → Option Json
  | .present v => some v
  | _ => none

/-- A part that may be `null` or may be missing from an object. -/
def Slot.optional : Slot → Option Json
  | .present v => some v
  | .missing => some .null
  | .cut => none

/-- A part that has a value of its own if it is not there. -/
def Slot.withDefault (d : Json) : Slot → Json
  | .present v => v
  | _ => d

/-- The values under a name. -/
def under (k : String) (fields : List (String × Json)) : List Json :=
  (fields.filter fun f => f.1 == k).map Prod.snd

/-- The parts of a record with the given names, from an object. -/
def slotsOfFields (fields : List (String × Json)) : List String → Option (List Slot)
  | [] => some []
  | k :: ks =>
    match under k fields with
    | [] => (slotsOfFields fields ks).map (.missing :: ·)
    | [v] => (slotsOfFields fields ks).map (.present v :: ·)
    | _ => none

/-- The parts of a record with the given names, from a list. -/
def slotsOfItems : List Json → List String → Option (List Slot)
  | [], [] => some []
  | _ :: _, [] => none
  | [], _ :: ks => (slotsOfItems [] ks).map (.cut :: ·)
  | v :: vs, _ :: ks => (slotsOfItems vs ks).map (.present v :: ·)

/-- The parts of a record with the given names. -/
def slots (names : List String) : Json → Option (List Slot)
  | .obj fields => slotsOfFields fields names
  | .arr items => slotsOfItems items names
  | _ => none

/-- A choice: its name alone, or its name with what belongs to it. -/
def variant : Json → Option (String × Option Json)
  | .str name => some (name, none)
  | .obj [(name, v)] => some (name, some v)
  | _ => none

/-- A string. -/
def asString : Json → Option String
  | .str s => some s
  | _ => none

/-- A string or `null`. -/
def asOptionalString : Json → Option (Option String)
  | .str s => some (some s)
  | .null => some none
  | _ => none

/-- A truth value. -/
def asBool : Json → Option Bool
  | .bool b => some b
  | _ => none

/-- An integer of the language. -/
def asWord : Json → Option Int
  | .int i => Word.exact i
  | _ => none

/-- A byte offset. -/
def asOffset : Json → Option Nat
  | .int i => if 0 ≤ i && i < Word.count then some i.toNat else none
  | _ => none

/-- A float; integers count as floats. -/
def asFloat : Json → Option Float
  | .float x => some x
  | .int i => some (Float.ofInt i)
  | _ => none

/-- The entries of a list. -/
def asList : Json → Option (List Json)
  | .arr items => some items
  | _ => none

end Json

end Quasiquote
