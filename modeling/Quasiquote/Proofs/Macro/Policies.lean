import Quasiquote.Proofs.Macro.Turns
import Quasiquote.Proofs.Node.Slots

namespace Quasiquote

/-!
# Policies — ending at the first failure, or noting all of them

A program is expanded with a list that failures are noted in, a template without one.  Both are
one walk, which asks whether there is a list where something fails.

* `Node.expandInlineInto` — inline expansion with or without a list;
* `Node.visited?` — what the walk comes to at a path, and whether that is code;
* `Node.Inserted` — the markers that expansion puts in;
* `Node.at?_expanded` — what the walk comes to is expanded as on its own;
* `Node.marked` — the markers are put in where the noted failures occurred, one for each;
* `Node.expandInline_policies` — all of it about the two ways to expand a tree.
-/

/-- A computation that fails, or that notes failures in a list if there is one. -/
abbrev Sinking := ExceptT Diagnostic (StateM (Option (List Diagnostic)))

/-- Notes a failure, or fails if there is no list. -/
def Sinking.fail (d : Diagnostic) : Sinking Unit := do
  match ← get with
  | some ds => set (some (ds ++ [d]))
  | none => throw d

namespace Node

/-- A tree with its inline macros expanded.  Failures are noted in the list, if there is one. -/
def expandInlineInto (env : InlineEnv) (sink : Option (List Diagnostic)) (n : Node) :
    Except Diagnostic Node × Option (List Diagnostic) :=
  (expandInlineM env Sinking.fail false n).run.run sink

theorem run_report_some (es ds : List Diagnostic) (t : Node) :
    (report Sinking.fail es t).run.run (some ds) = (.ok t, some (ds ++ es)) := by
  induction es generalizing ds with
  | nil =>
    rw [List.append_nil]
    rfl
  | cons e es ih => exact (ih (ds ++ [e])).trans (by rw [List.append_assoc]; rfl)

theorem run_report_none (es : List Diagnostic) (t : Node) :
    (report Sinking.fail es t).run.run none =
      (report (m := Except Diagnostic) throw es t, none) := by
  cases es <;> rfl

/-- With a list, inline expansion succeeds and adds what `expandInlineAll` answers. -/
theorem expandInlineInto_some (env : InlineEnv) (ds : List Diagnostic) (n : Node) :
    n.expandInlineInto env (some ds) =
      (.ok (n.expandInlineAll env).1, some (ds ++ (n.expandInlineAll env).2)) := by
  rw [expandInlineInto, expandInlineM_eq_report, run_report_some, expandInlineAll_outcome]

theorem expandInlineInto_none (env : InlineEnv) (n : Node) :
    n.expandInlineInto env none = (n.expandInline env, none) := by
  rw [expandInlineInto, expandInlineM_eq_report, run_report_none, expandInline,
    expandInlineM_eq_report]

/-! ### Where the walk comes to -/

/-- What the walk comes to at a path, and whether it is quoted text there.  It comes to nothing
    below what it leaves alone or marks. -/
def visited? (env : InlineEnv) : Bool → Node → List Slot → Option (Bool × Node)
  | quoted, n, [] => some (quoted, n)
  | quoted, n, s :: path => match n.turn env quoted with
    | .enter q _ => (n.slot? s).bind fun c => visited? env q c path
    | _ => none

/-- Whether a path leads to a marker. -/
def markerAt (n : Node) (path : List Slot) : Bool := (n.at? path).any (·.form.isMarker)

/-- A path leads to a marker in `t` that `n` has not there. -/
def Inserted (n t : Node) (path : List Slot) : Prop :=
  t.markerAt path = true ∧ n.markerAt path = false

variable {env : InlineEnv} {quoted q : Bool} {n r c : Node} {s : Slot} {path : List Slot}
  {d : Diagnostic}

theorem visited?_cons (h : n.turn env quoted = .enter q r) :
    visited? env quoted n (s :: path) = (n.slot? s).bind fun c => visited? env q c path := by
  rw [visited?, h]

/-- The walk goes on with the parts of the node in their slots, and with an output stream in a
    slot that the node has not. -/
theorem slot?_of_turn (h : n.turn env quoted = .enter q r) (s : Slot) : r.slot? s = n.slot? s ∨
    n.slot? s = none ∧ q = false ∧ ∃ sp, r.slot? s = some (outputStream sp) := by
  obtain ⟨rfl, -⟩ | ⟨hq, sp, name, args, method, hcall, rfl⟩ := turn_enter_cases h
  · exact .inl rfl
  · obtain ⟨sp', form⟩ := n
    cases form <;> cases hcall <;> cases s <;>
      first
        | exact .inl rfl
        | exact .inr ⟨rfl, hq, sp, rfl⟩

theorem slot?_of_slot? (h : n.turn env quoted = .enter q r) (hc : n.slot? s = some c) :
    r.slot? s = some c := by
  obtain hr | ⟨hn, -⟩ := slot?_of_turn h s
  · rw [hr, hc]
  · rw [hn] at hc
    cases hc

/-- What the walk comes to is expanded as on its own, and stays where it is. -/
theorem at?_expanded (h : visited? env quoted n path = some (q, c)) :
    (expanded env quoted n).at? path = some (expanded env q c) := by
  induction path generalizing quoted n with
  | nil =>
    cases h
    rfl
  | cons s path ih =>
    cases hturn : n.turn env quoted with
    | leave r => simp [visited?, hturn] at h
    | refuse d => simp [visited?, hturn] at h
    | enter q' r =>
      rw [visited?_cons hturn] at h
      obtain ⟨b, hb, hc⟩ := Option.bind_eq_some_iff.1 h
      rw [(outcome_enter hturn).2, at?_cons, slot?_descend, slot?_of_slot? hturn hb]
      exact ih hc

/-! ### Markers that are put in -/

theorem outcome_outputStream (env : InlineEnv) (sp : Span) :
    failures env false (outputStream sp) = [] ∧
      expanded env false (outputStream sp) = outputStream sp :=
  outcome_of_report (by rw [expandInlineM_outputStream, report_nil])

/-- No marker is in an output stream. -/
theorem any_at?_outputStream (sp : Span) (path : List Slot) :
    ((outputStream sp).at? path).any (·.form.isMarker) = false := by
  rcases path with _ | ⟨s, _ | ⟨s', path⟩⟩
  · rfl
  · cases s <;> rfl
  · cases s <;> cases s' <;> rfl

/-- What is marked was no marker before. -/
theorem markerAt_of_refuse (h : n.turn env quoted = .refuse d) : n.markerAt [] = false := by
  unfold turn at h
  split at h
  · cases h
  · split at h
    · cases h
    · rename_i hbound
      obtain ⟨s, form⟩ := n
      cases form <;> first | rfl | cases quoted <;> cases hbound

/-- The node itself is no new marker if the walk goes on from it. -/
theorem not_inserted_nil (h : n.turn env quoted = .enter q r) :
    ¬Inserted n (expanded env quoted n) [] := by
  have hmarker : (expanded env quoted n).form.isMarker = r.form.isMarker := by
    rw [(outcome_enter h).2]
    obtain ⟨s, form⟩ := r
    cases form <;> rfl
  rintro ⟨hnew, hold⟩
  simp only [markerAt, at?_nil, Option.any_some, hmarker] at hnew hold
  obtain ⟨rfl, -⟩ | ⟨-, _, _, _, _, -, rfl⟩ := turn_enter_cases h
  · rw [hnew] at hold
    cases hold
  · cases hnew

/-- The markers below a node that the walk goes on from are those below its parts. -/
theorem inserted_cons (h : n.turn env quoted = .enter q r) :
    Inserted n (expanded env quoted n) (s :: path) ↔
      ∃ c, n.slot? s = some c ∧ Inserted c (expanded env q c) path := by
  unfold Inserted markerAt
  rw [(outcome_enter h).2, at?_cons, at?_cons, slot?_descend]
  cases hn : n.slot? s with
  | some c => simp [slot?_of_slot? h hn]
  | none =>
    obtain hr | ⟨-, rfl, sp, hr⟩ := slot?_of_turn h s
    · simp [hr, hn]
    · simp [hr, (outcome_outputStream env sp).2, any_at?_outputStream]

/-- A failure has occurred at a path, and the marker that it leaves is there. -/
def Marks (env : InlineEnv) (quoted : Bool) (n : Node) (path : List Slot) (d : Diagnostic) : Prop :=
  ∃ q c, visited? env quoted n path = some (q, c) ∧ c.turn env q = .refuse d ∧
    (expanded env quoted n).at? path = some ⟨c.span, .error d.message⟩

theorem marks_nil (h : n.turn env quoted = .refuse d) : Marks env quoted n [] d :=
  ⟨quoted, n, rfl, h, by rw [(outcome_refuse h).2, at?_nil]⟩

theorem marks_cons (h : n.turn env quoted = .enter q r) (hc : n.slot? s = some c)
    (hmarks : Marks env q c path d) : Marks env quoted n (s :: path) d := by
  obtain ⟨q', b, hvisited, hturn, -⟩ := hmarks
  have hvisited' : visited? env quoted n (s :: path) = some (q', b) := by
    rw [visited?_cons h, hc]
    exact hvisited
  refine ⟨q', b, hvisited', hturn, ?_⟩
  rw [at?_expanded hvisited', (outcome_refuse hturn).2]

/-- Related lists behind each other. -/
theorem forall₂_flatMap {α β γ : Type} {R : β → γ → Prop} {f : α → List β} {g : α → List γ}
    {xs : List α} (h : ∀ x ∈ xs, List.Forall₂ R (f x) (g x)) :
    List.Forall₂ R (xs.flatMap f) (xs.flatMap g) := by
  induction xs with
  | nil => exact .nil
  | cons x xs ih =>
    obtain ⟨hx, hxs⟩ := List.forall_mem_cons.1 h
    exact List.rel_append hx (ih hxs)

/-- The markers that expansion puts in can be listed so that they are in the order of the
    failures, and each is put in where its failure occurred. -/
def Marked (env : InlineEnv) (quoted : Bool) (n : Node) (places : List (List Slot)) : Prop :=
  places.Nodup ∧ (∀ path, path ∈ places ↔ Inserted n (expanded env quoted n) path) ∧
    List.Forall₂ (Marks env quoted n) places (failures env quoted n)

theorem marked_leave (h : n.turn env quoted = .leave r) : Marked env quoted n [] := by
  obtain ⟨hfailures, hexpanded⟩ := outcome_leave h
  refine ⟨List.nodup_nil, fun path => ⟨fun hnil => absurd hnil List.not_mem_nil, ?_⟩,
    hfailures ▸ .nil⟩
  rintro ⟨hnew, hold⟩
  rw [hexpanded] at hnew
  obtain rfl | hdef := turn_leave_cases h
  · rw [hnew] at hold
    cases hold
  · obtain ⟨s, form⟩ := r
    cases form <;> cases hdef
    cases path <;> cases hnew

theorem marked_refuse (h : n.turn env quoted = .refuse d) : Marked env quoted n [[]] := by
  obtain ⟨hfailures, hexpanded⟩ := outcome_refuse h
  refine ⟨List.nodup_singleton _, fun path => ?_, hfailures ▸ .cons (marks_nil h) .nil⟩
  rw [List.mem_singleton, hexpanded]
  cases path with
  | nil => exact ⟨fun _ => ⟨rfl, markerAt_of_refuse h⟩, fun _ => rfl⟩
  | cons s path =>
    refine ⟨fun hcons => absurd hcons (List.cons_ne_nil _ _), ?_⟩
    rintro ⟨hnew, -⟩
    cases hnew

/-- The failures of the parts, slot by slot. -/
theorem failures_enter (h : n.turn env quoted = .enter q r) : failures env quoted n =
    r.slots.flatMap fun s => (n.slot? s).toList.flatMap (failures env q) := by
  have hslots : ∀ slots : List Slot, (slots.filterMap r.slot?).flatMap (failures env q) =
      slots.flatMap fun s => (n.slot? s).toList.flatMap (failures env q) := by
    intro slots
    induction slots with
    | nil => rfl
    | cons s slots ih =>
      rw [List.flatMap_cons, ← ih]
      -- the only slot with nothing in it before gets a stream, which does not fail
      obtain hr | ⟨hn, rfl, sp, hr⟩ := slot?_of_turn h s
      · cases hn : n.slot? s <;> simp [hr, hn]
      · simp [hr, hn, (outcome_outputStream env sp).1]
  rw [(outcome_enter h).1, children_eq_slots, hslots]

theorem marked_enter (h : n.turn env quoted = .enter q r)
    (hparts : ∀ c ∈ r.children, ∃ places, Marked env q c places) :
    ∃ places, Marked env quoted n places := by
  have hslot (s : Slot) : ∃ places, (∀ c, n.slot? s = some c → Marked env q c places) ∧
      (n.slot? s = none → places = []) := by
    cases hn : n.slot? s with
    | none => exact ⟨[], by simp⟩
    | some c =>
      have hr := slot?_of_slot? h hn
      obtain ⟨places, hplaces⟩ := hparts c (by
        rw [children_eq_slots]
        exact List.mem_filterMap.2 ⟨s, mem_slots hr, hr⟩)
      exact ⟨places, by simpa using hplaces, by simp⟩
  choose below hbelow hempty using hslot
  refine ⟨r.slots.flatMap fun s => (below s).map (s :: ·), ?_, fun path => ?_, ?_⟩
  · -- paths through different slots differ
    refine List.nodup_flatMap.2 ⟨fun s _ => ?_, (nodup_slots r).imp fun hne => ?_⟩
    · cases hn : n.slot? s with
      | none => simp [hempty s hn]
      | some c => exact (hbelow s c hn).1.map fun _ _ => List.tail_eq_of_cons_eq
    · intro path hpath hpath'
      obtain ⟨_, -, rfl⟩ := List.mem_map.1 hpath
      obtain ⟨_, -, heq⟩ := List.mem_map.1 hpath'
      exact hne (List.head_eq_of_cons_eq heq).symm
  · cases path with
    | nil => simp [not_inserted_nil h]
    | cons s path =>
      rw [inserted_cons h]
      constructor
      · intro hmem
        obtain ⟨s', -, hs⟩ := List.mem_flatMap.1 hmem
        obtain ⟨_, hpath, heq⟩ := List.mem_map.1 hs
        cases heq
        cases hn : n.slot? s with
        | none =>
          rw [hempty s hn] at hpath
          cases hpath
        | some c => exact ⟨c, rfl, ((hbelow s c hn).2.1 path).1 hpath⟩
      · rintro ⟨c, hn, hinserted⟩
        exact List.mem_flatMap.2 ⟨s, mem_slots (slot?_of_slot? h hn),
          List.mem_map.2 ⟨path, ((hbelow s c hn).2.1 path).2 hinserted, rfl⟩⟩
  · rw [failures_enter h]
    refine forall₂_flatMap fun s _ => ?_
    cases hn : n.slot? s with
    | none => simp [hempty s hn]
    | some c =>
      rw [Option.toList_some, List.flatMap_singleton, List.forall₂_map_left_iff]
      exact (hbelow s c hn).2.2.imp fun _ _ hmarks => marks_cons h hn hmarks

/-- Expansion puts in one marker for each failure, where the failure occurred. -/
theorem marked (env : InlineEnv) (quoted : Bool) (n : Node) :
    ∃ places, Marked env quoted n places := by
  refine turn_induction (P := fun quoted n => ∃ places, Marked env quoted n places) env ?_ quoted n
  intro quoted n ih
  cases hturn : n.turn env quoted with
  | leave r => exact ⟨[], marked_leave hturn⟩
  | refuse d => exact ⟨[[]], marked_refuse hturn⟩
  | enter q r => exact marked_enter hturn (ih q r hturn)

/-- The walk comes to every tree inside a tree, but for those below a marker that it puts in and
    below what it leaves alone. -/
theorem visited?_or_below (h : n.at? path = some c) :
    (∃ q, visited? env quoted n path = some (q, c)) ∨
      ∃ above s below q b, path = above ++ s :: below ∧
        visited? env quoted n above = some (q, b) ∧
          (Inserted n (expanded env quoted n) above ∨ ∃ r, b.turn env q = .leave r) := by
  induction path generalizing quoted n with
  | nil => exact .inl ⟨quoted, by rw [visited?, Option.some.inj h]⟩
  | cons s path ih =>
    cases hturn : n.turn env quoted with
    | leave r => exact .inr ⟨[], s, path, quoted, n, rfl, rfl, .inr ⟨r, hturn⟩⟩
    | refuse d =>
      refine .inr ⟨[], s, path, quoted, n, rfl, rfl, .inl ⟨?_, markerAt_of_refuse hturn⟩⟩
      rw [(outcome_refuse hturn).2]
      rfl
    | enter q r =>
      obtain ⟨b, hb, hc⟩ := Option.bind_eq_some_iff.1 h
      rw [visited?_cons hturn, hb]
      obtain hvisited | ⟨above, s', below, q', b', rfl, hvisited, hstop⟩ := @ih q _ hc
      · exact .inl hvisited
      · refine .inr ⟨s :: above, s', below, q', b', rfl, ?_, hstop.imp_left fun hinserted => ?_⟩
        · rw [visited?_cons hturn, hb]
          exact hvisited
        · exact (inserted_cons hturn).2 ⟨b, hb, hinserted⟩

/-! ### Both policies -/

/-- The two ways to expand a tree agree.  With a list expansion succeeds and notes the failures
    behind those that are there; without one it answers the first of them, or the same tree if
    there is none.  There is one new marker for each failure, where it occurred; every tree that
    is not below one, nor below what is left alone, is expanded as on its own. -/
theorem expandInline_policies (env : InlineEnv) (n : Node) :
    let t := (n.expandInlineAll env).1
    let ds := (n.expandInlineAll env).2
    (∀ noted, n.expandInlineInto env (some noted) = (.ok t, some (noted ++ ds))) ∧
      n.expandInlineInto env none = (n.expandInline env, none) ∧
      (∀ d, n.expandInline env = .error d ↔ ds.head? = some d) ∧
      (ds = [] → n.expandInline env = .ok t) ∧
      (∃ places : List (List Slot), places.Nodup ∧ (∀ path, path ∈ places ↔ Inserted n t path) ∧
        places.length = ds.length ∧ List.Forall₂ (Marks env false n) places ds) ∧
      (∀ path q c, visited? env false n path = some (q, c) →
        t.at? path = some (expanded env q c)) ∧
      ∀ path c, n.at? path = some c → (∃ q, visited? env false n path = some (q, c)) ∨
        ∃ above s below q b, path = above ++ s :: below ∧
          visited? env false n above = some (q, b) ∧
            (Inserted n t above ∨ ∃ r, b.turn env q = .leave r) := by
  refine ⟨fun noted => expandInlineInto_some env noted n, expandInlineInto_none env n,
    fun d => ?_, fun hnone => expandInline_ok_iff.2 ⟨hnone, rfl⟩, ?_,
    fun path q c => at?_expanded, fun path c => visited?_or_below⟩
  · rw [expandInline_first, expandInlineAll_outcome]
    cases failures env false n <;> simp
  · obtain ⟨places, hnodup, hinserted, hmarks⟩ := marked env false n
    exact ⟨places, hnodup, hinserted, hmarks.length_eq, hmarks⟩

/-- Two output shorthands with blocks, one of them in a hole of quoted text, and one without. -/
theorem expandInline_policies_two :
    let env : InlineEnv := ⟨.builtins, "demo"⟩
    let refused (name : String) (s : Span) : Node :=
      ⟨s, .invoke name [] (some ⟨s, .block [] ⟨s, .body []⟩ true⟩)⟩
    let n : Node := ⟨⟨0, 40⟩, .body [refused "puts" ⟨0, 7⟩,
      ⟨⟨8, 20⟩, .quote ⟨⟨16, 20⟩, .unquote (refused "print" ⟨17, 19⟩)⟩⟩,
      ⟨⟨21, 29⟩, .assign "x" ⟨⟨25, 29⟩, .ident "puts"⟩⟩]⟩
    n.expandInline env = .error (blockRefused "demo" "puts" ⟨0, 7⟩) ∧
      (∃ places : List (List Slot), places.length = 2 ∧
        ∀ path, path ∈ places ↔ Inserted n (n.expandInlineAll env).1 path) ∧
      (n.expandInlineAll env).1.at? [.item 2, .value] =
        some ⟨⟨25, 29⟩, .call (outputStream ⟨25, 29⟩) "println" [] none⟩ := by
  intro env refused n
  have hds : (n.expandInlineAll env).2 =
      [blockRefused "demo" "puts" ⟨0, 7⟩, blockRefused "demo" "print" ⟨17, 19⟩] := by rfl
  obtain ⟨-, -, hfirst, -, ⟨places, -, hinserted, hlength, -⟩, hown, -⟩ :=
    expandInline_policies env n
  refine ⟨(hfirst _).2 (by rw [hds]; rfl), ⟨places, by rw [hlength, hds]; rfl, hinserted⟩, ?_⟩
  rw [hown [.item 2, .value] false ⟨⟨25, 29⟩, .ident "puts"⟩ rfl]
  rfl

end Node

end Quasiquote
