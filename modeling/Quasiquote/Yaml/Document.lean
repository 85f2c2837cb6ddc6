import Quasiquote.Yaml.Token

namespace Quasiquote

/-!
# Documents — mappings of scalars and lists of scalars

The documents that are read here nest no deeper than this: the top level is a mapping,
its keys are scalars, and its values are scalars or lists of scalars.  Each of them may
have an anchor, and an alias stands for the node with an anchor.

* `Yaml.Node`, `Yaml.Content`, `Yaml.Mapping` — a document as it is written;
* `Yaml.Mapping.ofTokens` — the document that tokens are;
* `Yaml.Mapping.resolve` — its entries, with scalars in place of aliases;
* `Yaml.read` — the entries in a text.
-/

namespace Yaml

/-- A scalar, or the name of another node. -/
inductive Node where
  | alias (name : String)
  | scalar (anchor : Option String) (s : Scalar)
deriving DecidableEq, Repr

/-- The value of an entry. -/
inductive Content where
  | node (n : Node)
  | list (anchor : Option String) (items : List Node)
deriving DecidableEq, Repr

/-- A document as it is written. -/
structure Mapping where
  anchor : Option String := none
  entries : List (Node × Content) := []
deriving DecidableEq, Repr

/-! ### Properties -/

/-- What stands in front of a node. -/
structure Properties where
  anchor : Option String := none
  tag : Option String := none

/-- Handles of tags, and what they are short for. -/
abbrev Shorthands := List (String × String)

/-- The handles that every document knows, unless it gives them another meaning. -/
def commonShorthands : Shorthands := [("!", "!"), ("!!", "tag:yaml.org,2002:")]

/-- A tag in full. -/
def fullTag (hs : Shorthands) (handle rest : String) : Option String :=
  if handle.isEmpty then some rest
  else (hs.find? (·.1 == handle)).map fun h => h.2 ++ rest

/-- The properties at the beginning of tokens, an anchor and a tag in any order. -/
def properties (hs : Shorthands) : List Token → Option (Properties × List Token)
  | .anchor a :: .tag h r :: ts | .tag h r :: .anchor a :: ts => do
    return (⟨some a, some (← fullTag hs h r)⟩, ts)
  | .anchor a :: ts => some (⟨some a, none⟩, ts)
  | .tag h r :: ts => do return (⟨none, some (← fullTag hs h r)⟩, ts)
  | ts => some ({}, ts)

/-- Whether no property stands in front of a node. -/
def Properties.isEmpty (p : Properties) : Bool := p.anchor.isNone && p.tag.isNone

/-- A scalar with properties.  A tag that is an exclamation mark says nothing. -/
def Properties.scalar (p : Properties) (s : Scalar) : Node :=
  .scalar p.anchor { s with tag := p.tag.filter (· != "!") }

/-- The scalar with properties that stands where nothing is written. -/
def Properties.empty (p : Properties) : Node := .scalar p.anchor (.empty p.tag)

/-- The node that stands where nothing is written. -/
def Node.empty : Node := Properties.empty {}

/-! ### Nodes -/

/-- The scalar behind properties.  If it is not written, properties must be. -/
def nodeBehind (p : Properties) : List Token → Option (Node × List Token)
  | .scalar s :: ts => some (p.scalar s, ts)
  | ts => if p.isEmpty then none else some (p.empty, ts)

/-- A scalar or an alias. -/
def node (hs : Shorthands) : List Token → Option (Node × List Token)
  | .alias name :: ts => some (.alias name, ts)
  | ts => do
    let (p, ts) ← properties hs ts
    nodeBehind p ts

/-- Whether tokens go on with a given one. -/
def nextIs (t : Token) (ts : List Token) : Bool := ts.head? == some t

/-- A node that is left out if one of some tokens comes next. -/
def nodeUnless (hs : Shorthands) (stops : List Token) (ts : List Token) :
    Option (Node × List Token) :=
  if stops.any (nextIs · ts) then some (.empty, ts) else node hs ts

/-! ### Lists

Every item takes a token at least, so a list in `n` tokens has less than `n` items. -/

/-- The rest of a list outside brackets that a mapping contains without indentation. -/
def looseItems (hs : Shorthands) : Nat → List Token → Option (List Node × List Token)
  | n + 1, .item :: ts => do
    let (x, ts) ← nodeUnless hs [.item, .key, .value, .blockEnd] ts
    let (xs, ts) ← looseItems hs n ts
    return (x :: xs, ts)
  | _, ts => some ([], ts)

/-- The rest of a list outside brackets. -/
def blockItems (hs : Shorthands) : Nat → List Token → Option (List Node × List Token)
  | n + 1, .item :: ts => do
    let (x, ts) ← nodeUnless hs [.item, .blockEnd] ts
    let (xs, ts) ← blockItems hs n ts
    return (x :: xs, ts)
  | _, .blockEnd :: ts => some ([], ts)
  | _, _ => none

/-- The rest of a list between brackets from an item on, or from its end. -/
def flowItems (hs : Shorthands) : Nat → List Token → Option (List Node × List Token)
  | _, .flowListEnd :: ts => some ([], ts)
  | n + 1, ts => do
    let (x, ts) ← node hs ts
    match ts with
    | .comma :: ts =>
      let (xs, ts) ← flowItems hs n ts
      return (x :: xs, ts)
    | .flowListEnd :: ts => return ([x], ts)
    | _ => none
  | 0, _ => none

/-- The value of an entry. -/
def content (hs : Shorthands) (flow : Bool) (ts : List Token) :
    Option (Content × List Token) := do
  let list (p : Properties) (r : Option (List Node × List Token)) :
      Option (Content × List Token) := r.map fun (xs, ts) => (.list p.anchor xs, ts)
  let one (r : Option (Node × List Token)) : Option (Content × List Token) :=
    r.map fun (x, ts) => (.node x, ts)
  match ts with
  | .alias name :: ts => return (.node (.alias name), ts)
  | ts =>
    let (p, ts) ← properties hs ts
    match ts with
    | .flowListStart :: ts => list p (flowItems hs ts.length ts)
    | .listStart :: ts => list p (blockItems hs ts.length ts)
    | .item :: _ => if flow then one (nodeBehind p ts) else list p (looseItems hs ts.length ts)
    | ts => one (nodeBehind p ts)

/-- A value that is left out if one of some tokens comes next. -/
def contentUnless (hs : Shorthands) (flow : Bool) (stops : List Token) (ts : List Token) :
    Option (Content × List Token) :=
  if stops.any (nextIs · ts) then some (.node .empty, ts) else content hs flow ts

/-! ### Mappings -/

/-- What may stand behind a key: a colon and a value, or nothing. -/
def valueBehind (hs : Shorthands) (flow : Bool) (stops : List Token) :
    List Token → Option (Content × List Token)
  | .value :: ts => contentUnless hs flow stops ts
  | ts => some (.node .empty, ts)

/-- The rest of a mapping outside brackets, with at most `n` entries. -/
def blockEntries (hs : Shorthands) :
    Nat → List Token → Option (List (Node × Content) × List Token)
  | n + 1, .key :: ts => do
    let stops := [.key, .value, .blockEnd]
    let (k, ts) ← nodeUnless hs stops ts
    let (v, ts) ← valueBehind hs false stops ts
    let (es, ts) ← blockEntries hs n ts
    return ((k, v) :: es, ts)
  | _, .blockEnd :: ts => some ([], ts)
  | _, _ => none

/-- An entry between brackets.  Without a colon it is a key alone. -/
def flowEntry (hs : Shorthands) : List Token → Option ((Node × Content) × List Token)
  | .key :: ts => do
    let (k, ts) ← nodeUnless hs [.value, .comma, .flowMappingEnd] ts
    let (v, ts) ← valueBehind hs true [.comma, .flowMappingEnd] ts
    return ((k, v), ts)
  | ts => do
    let (k, ts) ← node hs ts
    return ((k, .node .empty), ts)

/-- The rest of a mapping between brackets from an entry on, or from its end. -/
def flowEntries (hs : Shorthands) :
    Nat → List Token → Option (List (Node × Content) × List Token)
  | _, .flowMappingEnd :: ts => some ([], ts)
  | n + 1, ts => do
    let (e, ts) ← flowEntry hs ts
    match ts with
    | .comma :: ts =>
      let (es, ts) ← flowEntries hs n ts
      return (e :: es, ts)
    | .flowMappingEnd :: ts => return ([e], ts)
    | _ => none
  | 0, _ => none

namespace Mapping

/-- A document behind its directives and its marker, which may have nothing in it. -/
def ofContent (hs : Shorthands) (ts : List Token) : Option (Mapping × List Token) := do
  let (p, ts) ← properties hs ts
  let mapping (r : Option (List (Node × Content) × List Token)) :
      Option (Mapping × List Token) := r.map fun (es, ts) => (⟨p.anchor, es⟩, ts)
  match ts with
  | .flowMappingStart :: ts => mapping (flowEntries hs ts.length ts)
  | .mappingStart :: ts => mapping (blockEntries hs ts.length ts)
  | ts => return (⟨p.anchor, []⟩, ts)

/-- The directives in front of a document.  It may give its version once, and every
    handle once. -/
def directives (versioned : Bool) (hs : Shorthands) :
    List Token → Option (Shorthands × List Token)
  | .version major minor :: ts =>
    if !versioned && major = 1 && (minor = 1 || minor = 2) then directives true hs ts else none
  | .shorthand handle start :: ts =>
    if hs.any (·.1 == handle) then none
    else directives versioned (hs ++ [(handle, start)]) ts
  | ts => some (hs ++ commonShorthands, ts)

/-- The document that tokens are.  There is no other one behind it, and behind directives
    its beginning is marked. -/
def ofTokens (ts : List Token) : Option Mapping := do
  let (hs, rest) ← directives false [] ts
  let (m, rest) ← match rest with
    | .documentStart :: rest => ofContent hs rest
    | rest =>
      if rest.length = ts.length && !nextIs .documentEnd rest then ofContent hs rest else none
  if rest.all (· == .documentEnd) then some m else none

end Mapping

/-! ### Aliases -/

/-- The anchors of a document.  They are numbered, and an anchor takes the number of
    names that there are; so after a name is given again, the next new name takes the
    same number. -/
structure Anchors where
  /-- The numbers of the names, the latest first. -/
  names : List (String × Nat) := []
  /-- What is at the numbers, the latest first; a collection is `none`. -/
  targets : List (Nat × Option Scalar) := []

namespace Anchors

/-- Anchors with one more, if a node has one. -/
def define (as : Anchors) (name : Option String) (target : Option Scalar) : Anchors :=
  match name with
  | none => as
  | some name =>
    let id := as.names.length
    ⟨(name, id) :: as.names.filter (·.1 != name), (id, target) :: as.targets⟩

/-- The number of a name. -/
def number? (as : Anchors) (name : String) : Option Nat :=
  (as.names.find? (·.1 == name)).map Prod.snd

/-- The scalar at a number. -/
def scalar? (as : Anchors) (id : Nat) : Option Scalar :=
  (as.targets.find? (·.1 == id)).bind Prod.snd

@[simp] theorem define_none (as : Anchors) (target : Option Scalar) :
    as.define none target = as := rfl

@[simp] theorem number?_define_self (as : Anchors) (name : String) (target : Option Scalar) :
    (as.define (some name) target).number? name = some as.names.length := by
  simp [define, number?]

@[simp] theorem scalar?_define_self (as : Anchors) (name : String) (target : Option Scalar) :
    (as.define (some name) target).scalar? as.names.length = target := by
  simp [define, scalar?]

end Anchors

/-- A scalar, or the number of an anchor. -/
abbrev Numbered := Scalar ⊕ Nat

/-- The state of reading the nodes of a document in their order. -/
abbrev AnchorM := StateT Anchors Option

/-- Puts a number in place of an alias.  Its anchor is in front of it. -/
def Node.numberM : Node → AnchorM Numbered
  | .alias name => do
    match (← get).number? name with
    | some id => return .inr id
    | none => failure
  | .scalar anchor s => do
    modify (·.define anchor s)
    return .inl s

/-- The value of an entry. -/
inductive Value (α : Type) where
  | one (a : α)
  | many (items : List α)
deriving DecidableEq, Repr

/-- Puts numbers in place of aliases. -/
def Content.numberM : Content → AnchorM (Value Numbered)
  | .node n => do return .one (← n.numberM)
  | .list anchor items => do
    modify (·.define anchor none)
    return .many (← items.mapM Node.numberM)

/-- Puts numbers in place of aliases. -/
def Mapping.numberM (m : Mapping) : AnchorM (List (Numbered × Value Numbered)) := do
  modify (·.define m.anchor none)
  m.entries.mapM fun (k, v) => do
    let k ← k.numberM
    return (k, ← v.numberM)

/-- The scalar that a number stands for. -/
def Anchors.resolve (as : Anchors) : Numbered → Option Scalar
  | .inl s => some s
  | .inr id => as.scalar? id

/-- The value with scalars in place of numbers. -/
def Anchors.resolveValue (as : Anchors) : Value Numbered → Option (Value Scalar)
  | .one x => (as.resolve x).map .one
  | .many xs => (xs.mapM as.resolve).map .many

/-- The entries of a document, with scalars in place of aliases. -/
def Mapping.resolve (m : Mapping) : Option (List (String × Value Scalar)) := do
  let (entries, as) ← m.numberM.run {}
  entries.mapM fun (k, v) => return ((← as.resolve k).text, ← as.resolveValue v)

/-- The entries in a text, if it is a document. -/
def read (text : String) : Option (List (String × Value Scalar)) := do
  (← Mapping.ofTokens (← tokens text)).resolve

end Yaml

end Quasiquote
