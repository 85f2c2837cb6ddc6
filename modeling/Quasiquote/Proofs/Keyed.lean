import Mathlib.Data.List.Induction
import Mathlib.Data.List.Nodup

namespace Quasiquote

/-!
# Lists with keys — elements that replace each other

An element that is put into a list takes the place of the one with its key, and comes last if its key
is new.  After any number of these changes the list has one element for each key, in the order in
which the keys came up first, and each element is the last one of its key.

* `Keyed.put`, with `Keyed.mem_put` and `Keyed.nodup_put` — one change;
* `Keyed.mem_foldl_put`, `Keyed.foldl_put_of_nodup` — what any number of changes leaves;
* `Keyed.Latest`, with `Keyed.Latest.put` and `Keyed.latest_foldl` — what is kept of all elements.
-/

namespace Keyed

variable {α κ : Type} [DecidableEq κ]

/-- Puts an element in the place of the one with its key, or behind all others. -/
def put (key : α → κ) (r : α) : List α → List α
  | [] => [r]
  | x :: xs => if key x = key r then r :: xs else x :: put key r xs

variable {key : α → κ} {r x : α} {xs : List α}

/-- An element whose key is new comes last. -/
theorem put_of_not_mem (h : key r ∉ xs.map key) : put key r xs = xs ++ [r] := by
  induction xs with
  | nil => rfl
  | cons x xs ih =>
    rw [List.map_cons, List.mem_cons, not_or] at h
    rw [put, if_neg (Ne.symm h.1), ih h.2, List.cons_append]

/-- An element takes the place of the one with its key. -/
theorem keys_put_of_mem (h : key r ∈ xs.map key) : (put key r xs).map key = xs.map key := by
  induction xs with
  | nil => cases h
  | cons x xs ih =>
    rw [put]
    by_cases hsame : key x = key r
    · rw [if_pos hsame, List.map_cons, List.map_cons, hsame]
    · have hmem : key r ∈ xs.map key := (List.mem_cons.1 h).resolve_left (Ne.symm hsame)
      rw [if_neg hsame, List.map_cons, List.map_cons, ih hmem]

/-- No two elements get the same key. -/
theorem nodup_put (r : α) (h : (xs.map key).Nodup) : ((put key r xs).map key).Nodup := by
  by_cases hmem : key r ∈ xs.map key
  · rwa [keys_put_of_mem hmem]
  · rw [put_of_not_mem hmem, List.map_append]
    exact h.append (List.nodup_singleton _) (by simpa using hmem)

/-- What is in a list after a change is the new element, or was there under another key. -/
theorem mem_put (hdistinct : (xs.map key).Nodup) (h : x ∈ put key r xs) :
    x = r ∨ x ∈ xs ∧ key x ≠ key r := by
  induction xs with
  | nil => exact .inl (List.mem_singleton.1 h)
  | cons y xs ih =>
    obtain ⟨hy, hdistinct'⟩ := List.nodup_cons.1 hdistinct
    rw [put] at h
    by_cases hsame : key y = key r
    · rw [if_pos hsame] at h
      rcases List.mem_cons.1 h with hx | hx
      · exact .inl hx
      · -- the element that was replaced had the key, so that no other one has it
        refine .inr ⟨List.mem_cons_of_mem _ hx, fun hkey => hy ?_⟩
        rw [hsame, ← hkey]
        exact List.mem_map_of_mem hx
    · rw [if_neg hsame] at h
      rcases List.mem_cons.1 h with rfl | hx
      · exact .inr ⟨List.mem_cons_self, hsame⟩
      · exact (ih hdistinct' hx).imp_right fun hold => ⟨List.mem_cons_of_mem _ hold.1, hold.2⟩

/-- The keys after a change are the ones before and that of the new element. -/
theorem mem_keys_put {k : κ} :
    k ∈ (put key r xs).map key ↔ k = key r ∨ k ∈ xs.map key := by
  by_cases hmem : key r ∈ xs.map key
  · rw [keys_put_of_mem hmem, or_iff_right_of_imp]
    rintro rfl
    exact hmem
  · rw [put_of_not_mem hmem, List.map_append, List.mem_append, or_comm]
    simp

theorem mem_put_self : r ∈ put key r xs := by
  induction xs with
  | nil => exact List.mem_singleton_self r
  | cons x xs ih =>
    rw [put]
    split
    · exact List.mem_cons_self
    · exact List.mem_cons_of_mem _ ih

/-- An element stays in a list until another one is put in its place. -/
theorem mem_put_of_mem (h : x ∈ xs) (hne : key x ≠ key r) : x ∈ put key r xs := by
  induction xs with
  | nil => cases h
  | cons y xs ih =>
    rw [put]
    rcases List.mem_cons.1 h with rfl | h
    · rw [if_neg hne]
      exact List.mem_cons_self
    · split
      · exact List.mem_cons_of_mem _ h
      · exact List.mem_cons_of_mem _ (ih h)

/-! ### All changes -/

/-- A key that comes up again is not listed again. -/
theorem eraseDups_concat (ks : List κ) (k : κ) :
    (ks ++ [k]).eraseDups = if k ∈ ks then ks.eraseDups else ks.eraseDups ++ [k] := by
  rw [List.eraseDups_append]
  by_cases hk : k ∈ ks
  · simp [List.removeAll, hk]
  · simp [List.removeAll, List.eraseDups_cons, hk]

/-- After any number of changes, what was put in last for a key is there. -/
theorem exists_mem_foldl_put (key : α → κ) {added : List α} (h : r ∈ added) (xs : List α) :
    ∃ x ∈ added, key x = key r ∧ x ∈ added.foldl (fun kept a => put key a kept) xs := by
  induction added using List.reverseRecOn with
  | nil => cases h
  | append_singleton added a ih =>
    rw [List.foldl_append, List.foldl_cons, List.foldl_nil]
    by_cases hkey : key a = key r
    · exact ⟨a, by simp, hkey, mem_put_self⟩
    · have hr : r ∈ added := by
        refine (List.mem_append.1 h).resolve_right fun hlast => hkey ?_
        rw [List.mem_singleton.1 hlast]
      obtain ⟨x, hx, hsame, hmem⟩ := ih hr
      exact ⟨x, List.mem_append_left _ hx, hsame, mem_put_of_mem hmem (hsame ▸ Ne.symm hkey)⟩

/-- No two elements get the same key, however many are put in. -/
theorem nodup_foldl_put (added : List α) (h : (xs.map key).Nodup) :
    ((added.foldl (fun kept a => put key a kept) xs).map key).Nodup := by
  induction added generalizing xs with
  | nil => exact h
  | cons a added ih => exact ih (nodup_put a h)

/-- What is in a list after any number of changes was put in, or was there under a key that did not
    come up. -/
theorem mem_foldl_put {added : List α} (hdistinct : (xs.map key).Nodup)
    (h : x ∈ added.foldl (fun kept a => put key a kept) xs) :
    x ∈ added ∨ x ∈ xs ∧ key x ∉ added.map key := by
  induction added generalizing xs with
  | nil => exact .inr ⟨h, List.not_mem_nil⟩
  | cons a added ih =>
    rcases ih (nodup_put a hdistinct) h with hadded | ⟨hmem, hnew⟩
    · exact .inl (List.mem_cons_of_mem a hadded)
    · rcases mem_put hdistinct hmem with rfl | ⟨hold, hne⟩
      · exact .inl List.mem_cons_self
      · refine .inr ⟨hold, fun hkey => ?_⟩
        rcases List.mem_cons.1 hkey with hkey | hkey
        · exact hne hkey
        · exact hnew hkey

/-- An element stays in a list as long as its key does not come up. -/
theorem mem_foldl_put_of_mem {added : List α} (h : x ∈ xs) (hnew : key x ∉ added.map key) :
    x ∈ added.foldl (fun kept a => put key a kept) xs := by
  induction added generalizing xs with
  | nil => exact h
  | cons a added ih =>
    rw [List.map_cons, List.mem_cons, not_or] at hnew
    exact ih (mem_put_of_mem h hnew.1) hnew.2

/-- Elements with new keys of their own come last, in order. -/
theorem foldl_put_of_nodup {added : List α} (h : ((xs ++ added).map key).Nodup) :
    added.foldl (fun kept a => put key a kept) xs = xs ++ added := by
  induction added generalizing xs with
  | nil => exact (List.append_nil xs).symm
  | cons a added ih =>
    have hnew : key a ∉ xs.map key := by
      intro hmem
      rw [List.map_append, List.map_cons] at h
      exact List.disjoint_of_nodup_append h hmem List.mem_cons_self
    rw [List.foldl_cons, put_of_not_mem hnew, ih (by simpa using h)]
    simp

/-- What is kept of all elements that were added, one after the other: one for each key, in the order
    in which the keys came up first, and of each key the one that was added last. -/
structure Latest (key : α → κ) (added kept : List α) : Prop where
  distinct : (kept.map key).Nodup
  order : kept.map key = (added.map key).eraseDups
  latest : ∀ r ∈ kept, (added.filter fun a => key a = key r).getLast? = some r

namespace Latest

variable {added kept : List α}

theorem nil : Latest key [] [] := ⟨List.nodup_nil, rfl, by simp⟩

/-- A change keeps one element for each key. -/
theorem put (h : Latest key added kept) (r : α) : Latest key (added ++ [r]) (put key r kept) where
  distinct := nodup_put r h.distinct
  order := by
    have hkeys : key r ∈ kept.map key ↔ key r ∈ added.map key := by
      rw [h.order, List.mem_eraseDups]
    rw [List.map_append, List.map_singleton, eraseDups_concat, ← h.order]
    by_cases hmem : key r ∈ kept.map key
    · rw [if_pos (hkeys.1 hmem), keys_put_of_mem hmem]
    · rw [if_neg (mt hkeys.2 hmem), put_of_not_mem hmem, List.map_append, List.map_singleton]
  latest x hx := by
    rw [List.filter_append]
    rcases mem_put h.distinct hx with rfl | ⟨hold, hkey⟩
    · simp
    · have hlast := h.latest x hold
      simpa [Ne.symm hkey] using hlast

end Latest

/-- After any number of changes one element is left for each key. -/
theorem latest_foldl (key : α → κ) (added : List α) :
    Latest key added (added.foldl (fun kept r => put key r kept) []) := by
  induction added using List.reverseRecOn with
  | nil => exact .nil
  | append_singleton added r ih =>
    rw [List.foldl_append, List.foldl_cons, List.foldl_nil]
    exact ih.put r

end Keyed

end Quasiquote
