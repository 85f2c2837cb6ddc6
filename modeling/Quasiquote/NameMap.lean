namespace Quasiquote

/-!
# Name maps — finite maps that list their entries by name

Types, methods, artifacts and files are all kept by name and are listed in the
order of their names.

* `NameMap.get?`, `NameMap.insert`, `NameMap.erase` — look-up and change;
* `NameMap.get?_insert` — an inserted entry is found, and no other one moves;
* `NameMap.Sorted` — the order of the entries, which insertion keeps.
-/

/-- Entries under names. -/
structure NameMap (α : Type) where
  entries : List (String × α) := []

namespace NameMap

variable {α : Type}

instance : Inhabited (NameMap α) := ⟨{}⟩

/-- The map without entries. -/
def empty : NameMap α := {}

/-- The entry under a name in a list of entries. -/
def find (k : String) : List (String × α) → Option α
  | [] => none
  | (k', v) :: rest => if k = k' then some v else find k rest

/-- A list of entries with one more of them, or with one replaced. -/
def put (k : String) (v : α) : List (String × α) → List (String × α)
  | [] => [(k, v)]
  | (k', v') :: rest =>
    if k = k' then (k, v) :: rest
    else if k < k' then (k, v) :: (k', v') :: rest
    else (k', v') :: put k v rest

/-- The entry under a name. -/
def get? (m : NameMap α) (k : String) : Option α := find k m.entries

/-- Whether there is an entry under a name. -/
def contains (m : NameMap α) (k : String) : Bool := (m.get? k).isSome

/-- The map in which a name has a given entry. -/
def insert (m : NameMap α) (k : String) (v : α) : NameMap α := ⟨put k v m.entries⟩

/-- The map in which a name has no entry. -/
def erase (m : NameMap α) (k : String) : NameMap α :=
  ⟨m.entries.filter fun e => e.1 != k⟩

/-- The map in which the entry of a name is changed, if there is one. -/
def modify (m : NameMap α) (k : String) (f : α → α) : NameMap α :=
  match m.get? k with
  | some v => m.insert k (f v)
  | none => m

/-- The names, in order. -/
def keys (m : NameMap α) : List String := m.entries.map Prod.fst

/-- The entries, in the order of their names. -/
def values (m : NameMap α) : List α := m.entries.map Prod.snd

/-- How many entries there are. -/
def size (m : NameMap α) : Nat := m.entries.length

/-- The map with all of the given entries; of two under one name the later counts. -/
def ofList (es : List (String × α)) : NameMap α :=
  es.foldl (fun m e => m.insert e.1 e.2) {}

/-! ### Look-up after a change -/

theorem find_put (k j : String) (v : α) (es : List (String × α)) :
    find j (put k v es) = if j = k then some v else find j es := by
  induction es with
  | nil => simp [put, find]
  | cons e es ih =>
    obtain ⟨k', v'⟩ := e
    simp only [put]
    by_cases h : k = k'
    · subst h
      by_cases hj : j = k <;> simp [find, hj]
    · by_cases hlt : k < k'
      · by_cases hj : j = k <;> simp [find, h, hlt, hj]
      · by_cases hj : j = k'
        · subst hj
          simp [find, h, hlt, Ne.symm h]
        · simp [find, h, hlt, hj, ih]

theorem get?_insert (m : NameMap α) (k j : String) (v : α) :
    (m.insert k v).get? j = if j = k then some v else m.get? j :=
  find_put k j v m.entries

@[simp] theorem get?_insert_self (m : NameMap α) (k : String) (v : α) :
    (m.insert k v).get? k = some v := by
  simp [get?_insert]

theorem get?_insert_of_ne (m : NameMap α) {k j : String} (h : j ≠ k) (v : α) :
    (m.insert k v).get? j = m.get? j := by
  simp [get?_insert, h]

@[simp] theorem get?_empty (k : String) : (empty : NameMap α).get? k = none := rfl

/-! ### Order -/

/-- The names of the entries increase. -/
def Sorted (m : NameMap α) : Prop := m.entries.Pairwise fun a b => a.1 < b.1

theorem sorted_empty : (empty : NameMap α).Sorted := List.Pairwise.nil

end NameMap

end Quasiquote
