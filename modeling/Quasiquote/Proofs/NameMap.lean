import Quasiquote.NameMap

namespace Quasiquote

/-!
# Name maps — entries and look-up

* `NameMap.mem_keys_of_get?`, `NameMap.mem_values_of_get?` — what is found is there;
* `NameMap.mem_entries_insert`, `NameMap.mem_values_modify` — where the entries of a
  changed map come from;
* `NameMap.Sorted.insert`, `NameMap.Sorted.get?_of_mem` — changed maps are in order, and
  all of their entries are found;
* `NameMap.get?_modify` — look-up after a change of one entry;
* `NameMap.get?_ofList`, `NameMap.find_of_mem` — look-up in a map that is made of a list.
-/

namespace NameMap

variable {α : Type} {m : NameMap α} {name : String} {a : α}

/-- What is found is an entry. -/
theorem mem_entries_of_get? (h : m.get? name = some a) : (name, a) ∈ m.entries := by
  obtain ⟨es⟩ := m
  have hfind : find name es = some a := h
  clear h
  induction es with
  | nil => cases hfind
  | cons e es ih =>
    by_cases hname : name = e.1
    · obtain rfl : e.2 = a := by simpa [find, hname] using hfind
      exact List.mem_cons.2 (.inl (by rw [hname]))
    · exact List.mem_cons.2 (.inr (ih (by simpa [find, hname] using hfind)))

/-- A name that no entry has is not found. -/
theorem find_of_not_mem {es : List (String × α)} (h : name ∉ es.map Prod.fst) :
    find name es = none := by
  induction es with
  | nil => rfl
  | cons e es ih =>
    rw [List.map_cons, List.mem_cons, not_or] at h
    rw [find, if_neg h.1]
    exact ih h.2

theorem mem_keys_of_get? (h : m.get? name = some a) : name ∈ m.keys :=
  List.mem_map.2 ⟨_, mem_entries_of_get? h, rfl⟩

theorem mem_values_of_get? (h : m.get? name = some a) : a ∈ m.values :=
  List.mem_map.2 ⟨_, mem_entries_of_get? h, rfl⟩

/-- An entry after an insertion is the new one or an old one. -/
theorem mem_entries_insert {e : String × α} (h : e ∈ (m.insert name a).entries) :
    e = (name, a) ∨ e ∈ m.entries := by
  obtain ⟨es⟩ := m
  have hput : e ∈ put name a es := h
  show e = (name, a) ∨ e ∈ es
  clear h
  induction es with
  | nil => exact .inl (List.mem_singleton.1 hput)
  | cons x es ih =>
    rw [put] at hput
    split at hput
    · exact (List.mem_cons.1 hput).imp_right (List.mem_cons_of_mem _)
    · split at hput
      · exact List.mem_cons.1 hput
      · rcases List.mem_cons.1 hput with h | h
        · exact .inr (List.mem_cons.2 (.inl h))
        · exact (ih h).imp_right (List.mem_cons_of_mem _)

theorem mem_values_insert {b : α} (h : b ∈ (m.insert name a).values) : b = a ∨ b ∈ m.values := by
  obtain ⟨e, he, rfl⟩ := List.mem_map.1 h
  rcases mem_entries_insert he with rfl | he
  · exact .inl rfl
  · exact .inr (List.mem_map.2 ⟨e, he, rfl⟩)

/-- An entry after a change of one entry is an old one or the changed one. -/
theorem mem_values_modify {f : α → α} {b : α} (h : b ∈ (m.modify name f).values) :
    b ∈ m.values ∨ ∃ a, m.get? name = some a ∧ b = f a := by
  unfold modify at h
  split at h
  · rename_i a ha
    rcases mem_values_insert h with h | h
    · exact .inr ⟨a, ha, h⟩
    · exact .inl h
  · exact .inl h

/-- Look-up after a change of one entry. -/
theorem get?_modify (f : α → α) (m : NameMap α) (name other : String) :
    (m.modify name f).get? other =
      if other = name then (m.get? name).map f else m.get? other := by
  unfold modify
  split
  · rename_i a ha
    rw [get?_insert, ha]
    rfl
  · rename_i hnone
    split
    · rename_i hname
      rw [hname, hnone]
      rfl
    · rfl

/-! ### Order -/

/-- Insertion keeps the names in order. -/
theorem Sorted.insert (h : m.Sorted) (name : String) (a : α) : (m.insert name a).Sorted := by
  obtain ⟨es⟩ := m
  have hsorted : es.Pairwise fun a b => a.1 < b.1 := h
  show (put name a es).Pairwise fun a b => a.1 < b.1
  clear h
  induction es with
  | nil => exact List.pairwise_singleton _ _
  | cons e es ih =>
    obtain ⟨hfirst, hrest⟩ := List.pairwise_cons.1 hsorted
    rw [put]
    split
    · rename_i hname
      exact List.pairwise_cons.2 ⟨fun x hx => hname ▸ hfirst x hx, hrest⟩
    · rename_i hname
      split
      · rename_i hlt
        refine List.pairwise_cons.2 ⟨fun x hx => ?_, hsorted⟩
        rcases List.mem_cons.1 hx with rfl | hx
        · exact hlt
        · exact String.lt_trans hlt (hfirst x hx)
      · rename_i hle
        have hlt : e.1 < name := Classical.byContradiction fun hnot =>
          hname (String.le_antisymm (String.not_lt.1 hnot) (String.not_lt.1 hle))
        refine List.pairwise_cons.2 ⟨fun x hx => ?_, ih hrest⟩
        have hmem : x ∈ (NameMap.insert ⟨es⟩ name a).entries := hx
        rcases mem_entries_insert hmem with rfl | hx
        · exact hlt
        · exact hfirst x hx

theorem Sorted.modify (h : m.Sorted) (name : String) (f : α → α) : (m.modify name f).Sorted := by
  unfold NameMap.modify
  split
  · exact h.insert name _
  · exact h

/-- What is an entry is found, as there is no other one of the name. -/
theorem Sorted.get?_of_mem (h : m.Sorted) (hmem : (name, a) ∈ m.entries) : m.get? name = some a := by
  obtain ⟨es⟩ := m
  change es.Pairwise fun a b => a.1 < b.1 at h
  change (name, a) ∈ es at hmem
  show find name es = some a
  induction es with
  | nil => cases hmem
  | cons e es ih =>
    obtain ⟨hfirst, hrest⟩ := List.pairwise_cons.1 h
    rw [find]
    rcases List.mem_cons.1 hmem with rfl | hmem
    · exact if_pos rfl
    · have hne : name ≠ e.1 := by
        rintro rfl
        have hlt := hfirst _ hmem
        exact String.lt_irrefl _ hlt
      rw [if_neg hne]
      exact ih hrest hmem

/-! ### Maps made of lists -/

/-- An entry of a list without repeated names is the one that is found. -/
theorem find_of_mem {es : List (String × α)} (h : (es.map Prod.fst).Nodup)
    (hmem : (name, a) ∈ es) : find name es = some a := by
  induction es with
  | nil => cases hmem
  | cons e es ih =>
    rw [List.map_cons, List.nodup_cons] at h
    rw [find]
    rcases List.mem_cons.1 hmem with rfl | hmem
    · exact if_pos rfl
    · have hname : ¬ name = e.1 := fun hname => h.1 (hname ▸ List.mem_map_of_mem hmem)
      rw [if_neg hname]
      exact ih h.2 hmem

/-- A list of entries without repeated names is looked up as it stands. -/
theorem get?_ofList {es : List (String × α)} (h : (es.map Prod.fst).Nodup) (name : String) :
    (ofList es).get? name = find name es := by
  have hfold (es : List (String × α)) (m : NameMap α) (h : (es.map Prod.fst).Nodup) :
      (es.foldl (fun m e => m.insert e.1 e.2) m).get? name = (find name es).or (m.get? name) := by
    induction es generalizing m with
    | nil => rfl
    | cons e es ih =>
      rw [List.map_cons, List.nodup_cons] at h
      rw [List.foldl_cons, ih _ h.2, get?_insert, find]
      by_cases hname : name = e.1
      · have hrest : find name es = none := find_of_not_mem (hname ▸ h.1)
        simp [hname ▸ hrest, hname]
      · simp [hname]
  rw [ofList, hfold es {} h]
  exact Option.or_none

end NameMap

end Quasiquote
