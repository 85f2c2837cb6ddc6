namespace Quasiquote

/-!
# Spans — where a piece of program text stands

A span is a half-open range of byte offsets into a text.

* `Span.merge` — the smallest span that covers two spans;
* `Span.ordered` — the span with its end moved up to its start, the form in
  which a diagnostic keeps a position.
-/

/-- The bytes from `start` up to, but not including, `stop`. -/
structure Span where
  start : Nat
  stop : Nat
deriving DecidableEq, Inhabited, Repr

namespace Span

/-- The empty span at the start of a text. -/
def zero : Span := ⟨0, 0⟩

/-- The smallest span that covers both `s` and `t`. -/
def merge (s t : Span) : Span := ⟨min s.start t.start, max s.stop t.stop⟩

/-- A span that ends before it starts is taken to be empty at its start. -/
def ordered (s : Span) : Span := ⟨s.start, max s.start s.stop⟩

@[simp] theorem merge_start (s t : Span) : (s.merge t).start = min s.start t.start := rfl

@[simp] theorem merge_stop (s t : Span) : (s.merge t).stop = max s.stop t.stop := rfl

theorem merge_comm (s t : Span) : s.merge t = t.merge s := by
  simp [merge, Nat.min_comm, Nat.max_comm]

@[simp] theorem merge_self (s : Span) : s.merge s = s := by
  simp [merge]

theorem ordered_start_le_stop (s : Span) : s.ordered.start ≤ s.ordered.stop :=
  Nat.le_max_left _ _

/-- A span that does not end before it starts is kept as it is. -/
theorem ordered_eq_self {s : Span} (h : s.start ≤ s.stop) : s.ordered = s := by
  simp [ordered, Nat.max_eq_right h]

end Span

end Quasiquote
