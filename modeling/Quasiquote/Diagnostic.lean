import Quasiquote.Span

namespace Quasiquote

/-!
# Diagnostics — what went wrong, and where

Every failure is a cause together with the place it is reported at.  The wording
of a diagnostic depends on its cause alone.

* `Cause` — the kinds of failures, with `Cause.message`, `Cause.label`,
  `Cause.category` and `Cause.code`;
* `Diagnostic` — a cause, the phase that raised it and a place in a source;
* `Diagnostic.reanchor` — the same failure reported elsewhere;
* `Diagnostic.internal` — a failure that is the fault of the compiler itself.
-/

/-- What a failure is about, in general. -/
inductive Category where
  | parse | template | definition | compile | load | resolution | warning | environment
deriving DecidableEq, Repr

/-- The name of a category, as diagnostics show it. -/
def Category.name : Category → String
  | .parse => "Parse"
  | .template => "Template"
  | .definition => "Definition"
  | .compile => "Compile"
  | .load => "Load"
  | .resolution => "Resolution"
  | .warning => "Warning"
  | .environment => "Environment"

/-- What went wrong. -/
inductive Cause where
  /-- The text is no program. -/
  | malformedText (message : String)
  /-- A literal of the given kind has no value. -/
  | invalidLiteral (kind value : String)
  /-- A hole stands where no template is expanded. -/
  | strayHole (hole : String)
  /-- A template and its values do not fit each other. -/
  | templateMismatch (message : String)
  | invalidDefinition (name reason : String)
  /-- The unit of a macro could not be built. -/
  | buildFailed (name reason : String)
  /-- A macro is needed while it is still being built. -/
  | requiredTooEarly (name : String)
  | expansionFailed (name reason : String)
  | loadFailed (unit reason : String)
  | unknownMacro (name owner : String)
  /-- Nothing of this name exists; `what` says what was looked for. -/
  | undefinedName (name what : String)
  /-- The owner of a macro is not written out, so the macro is not either. -/
  | sessionOnly (owner name : String)
  | fileFailure (path message : String)
  | badConfiguration (message : String)
deriving DecidableEq, Repr

namespace Cause

/-- The general subject of a cause. -/
def category : Cause → Category
  | .malformedText _ | .invalidLiteral _ _ => .parse
  | .strayHole _ | .templateMismatch _ => .template
  | .invalidDefinition _ _ => .definition
  | .buildFailed _ _ | .requiredTooEarly _ | .expansionFailed _ _ => .compile
  | .loadFailed _ _ => .load
  | .unknownMacro _ _ | .undefinedName _ _ => .resolution
  | .sessionOnly _ _ => .warning
  | .fileFailure _ _ | .badConfiguration _ => .environment

/-- Whether a cause is only warned about. -/
def isWarning (c : Cause) : Bool := c.category == .warning

/-- The last part of the code under which a cause is listed. -/
def code : Cause → String
  | .malformedText _ => "syntax"
  | .invalidLiteral _ _ => "invalid_literal"
  | .strayHole _ => "template_usage"
  | .templateMismatch _ => "template_mismatch"
  | .invalidDefinition _ _ => "invalid_macro_definition"
  | .buildFailed _ _ => "macro_compile"
  | .requiredTooEarly _ => "macro_required_before_defined"
  | .expansionFailed _ _ => "expansion_failed"
  | .loadFailed _ _ => "macro_load"
  | .unknownMacro _ _ => "macro_not_found"
  | .undefinedName _ _ => "undefined_name"
  | .sessionOnly _ _ => "metadata_unavailable"
  | .fileFailure _ _ => "io"
  | .badConfiguration _ => "config"

/-- The sentence that reports a cause. -/
def message : Cause → String
  | .malformedText message => "Parse error: " ++ message
  | .invalidLiteral kind value => "Parse error: invalid " ++ kind ++ " '" ++ value ++ "'"
  | .strayHole hole => "Template error: hole " ++ hole ++ " used outside an expansion"
  | .templateMismatch message => "Template error: " ++ message
  | .invalidDefinition name reason =>
    "Definition error: invalid macro '" ++ name ++ "': " ++ reason
  | .buildFailed name reason =>
    "Compile error: macro '" ++ name ++ "' could not be built: " ++ reason
  | .requiredTooEarly name =>
    "Compile error: macro '" ++ name ++ "' required before fully defined"
  | .expansionFailed name reason =>
    "Expansion error: macro '" ++ name ++ "' failed: " ++ reason
  | .loadFailed unit reason =>
    "Load error: unit '" ++ unit ++ "' could not be loaded: " ++ reason
  | .unknownMacro name owner =>
    "Resolution error: macro not found: " ++ owner ++ "." ++ name
  | .undefinedName name what => "Resolution error: undefined " ++ what ++ " '" ++ name ++ "'"
  | .sessionOnly owner name =>
    "Warning: type '" ++ owner ++ "' has no descriptor; macro '" ++ name ++
      "' is only available in this session"
  | .fileFailure path message => "I/O error on '" ++ path ++ "': " ++ message
  | .badConfiguration message => "Configuration error: " ++ message

/-- The note under the text that a diagnostic points at. -/
def label : Cause → String
  | .malformedText _ => "syntax error"
  | .invalidLiteral _ _ => "invalid literal"
  | .strayHole _ => "hole used here"
  | .templateMismatch _ => "template mismatch"
  | .invalidDefinition _ _ => "invalid definition"
  | .buildFailed _ _ | .requiredTooEarly _ | .loadFailed _ _ => "macro defined here"
  | .expansionFailed _ _ => "expanded here"
  | .unknownMacro _ _ => "no such macro"
  | .undefinedName _ _ => "undefined"
  | .sessionOnly _ _ => "session-local macro"
  | .fileFailure _ _ => "i/o failure"
  | .badConfiguration _ => "configuration"

end Cause

/-- A failure and the place it is reported at. -/
structure Diagnostic where
  cause : Cause
  /-- The stage of compilation that raised it. -/
  phase : String
  /-- The name of the text that `span` points into. -/
  source : String
  span : Span
  help : Option String := none
deriving DecidableEq, Repr

namespace Diagnostic

/-- The name of the source of failures that point into no text. -/
def fallback : String := "fallback"

/-- A failure at a place in a source. -/
def report (phase source : String) (cause : Cause) (span : Span) : Diagnostic :=
  ⟨cause, phase, source, span.ordered, none⟩

/-- A failure that points into no text. -/
def unplaced (phase : String) (cause : Cause) : Diagnostic :=
  report phase fallback cause Span.zero

/-- The code of a failure: where it was raised, and what it is. -/
def code (d : Diagnostic) : String := "kiln::" ++ d.phase ++ "::" ++ d.cause.code

/-- The sentence that reports a failure. -/
def message (d : Diagnostic) : String := d.cause.message

/-- The same failure with a hint how to mend it. -/
def withHelp (d : Diagnostic) (help : String) : Diagnostic := { d with help := some help }

/-- The same failure, reported at another place. -/
def reanchor (d : Diagnostic) (span : Span) (source : String) : Diagnostic :=
  { d with source := source, span := span.ordered }

/-- A failure that no program text can be blamed for. -/
def internal (phase source message : String) (span : Span) : Diagnostic :=
  (report phase source (.templateMismatch message) span).withHelp
    "This is an internal compiler error. Please report this as a bug."

/-- A failure of the file system. -/
def ofFile (path message : String) : Diagnostic :=
  unplaced "io" (.fileFailure path message)

/-- A failure of the configuration. -/
def ofConfiguration (message : String) : Diagnostic :=
  unplaced "config" (.badConfiguration message)

@[simp] theorem cause_reanchor (d : Diagnostic) (s : Span) (source : String) :
    (d.reanchor s source).cause = d.cause := rfl

@[simp] theorem source_reanchor (d : Diagnostic) (s : Span) (source : String) :
    (d.reanchor s source).source = source := rfl

@[simp] theorem span_reanchor (d : Diagnostic) (s : Span) (source : String) :
    (d.reanchor s source).span = s.ordered := rfl

@[simp] theorem cause_withHelp (d : Diagnostic) (h : String) :
    (d.withHelp h).cause = d.cause := rfl

end Diagnostic

end Quasiquote
