import Quasiquote.Typing.Basic

namespace Quasiquote

/-!
# Types of expressions

* `Typer` — what typing calls upon: the expansion of calls that an expansion
  holds, and the building of macros;
* `Typer.infer` — a tree with its macro calls expanded, and its type;
* `Typer.findMacro` — the macro that a call means, which is built if it is not
  yet.

Definitions of a body are registered before the body is typed, so a call may use
a macro that is defined further down.
-/

/-- What typing calls upon. -/
structure Typer where
  /-- Builds the macro of a definition, given by its number. -/
  build : Nat → TypeM (Except Diagnostic Unit)
  /-- How many expansions the typed code comes from. -/
  depth : Nat
  /-- Types an expansion; absent where no more expansions are allowed. -/
  again : Option (Scope → Node → TypeM (Node × TypeRef))

namespace Typer

variable (env : Typer)

/-! ### Definitions -/

/-- The static type of a parameter. -/
def parameterType (p : Parameter) : TypeRef :=
  if p.isBlock then .block else (p.typeName.map TypeRef.ofName).getD .any

/-- Declares a method on the type of `self`. -/
def defineMethod (scope : Scope) (m : Method) : TypeM Unit :=
  match scope.selfType.owner with
  | none => pure ()
  | some owner =>
    TypeM.modifySession fun s => { s with types := s.types.modify owner (·.define m) }

/-- Registers a macro definition and answers its number. -/
def register (spec : MacroSpec) (owner : String) (span : Span) : TypeM Nat := do
  let s ← TypeM.session
  TypeM.modifySession fun s =>
    { s with definitions := s.definitions ++ [{ spec, owner, span, source := s.source }] }
  return s.definitions.length

/-- Registers the macro definitions of a body, of which it answers the numbers,
    and the signatures of its methods. -/
def prescan (scope : Scope) : List Node → TypeM (List (Option Nat))
  | [] => return []
  | ⟨s, .macroDef name args body none⟩ :: rest => do
    match scope.selfType.owner with
    | none => return none :: (← prescan scope rest)
    | some owner =>
      let id ← register ⟨name, args, body⟩ owner s
      return some id :: (← prescan scope rest)
  | ⟨_, .methodDef name params returns _⟩ :: rest => do
    defineMethod scope
      ⟨name, params.map parameterType, (returns.map TypeRef.ofName).getD .any⟩
    return none :: (← prescan scope rest)
  | _ :: rest => do return none :: (← prescan scope rest)

/-- Builds the macro of a definition.  What is left of the definition is nothing,
    or a marker of its failure. -/
def inferDefinition (scope : Scope) (s : Span) (spec : MacroSpec) (known : Option Nat) :
    TypeM (Node × TypeRef) := do
  let id ← match known with
    | some id => pure id
    | none => register spec scope.owner s
  match ← env.build id with
  | .ok () => return (⟨s, .noop⟩, .void)
  | .error d =>
    TypeM.collect d
    return (⟨s, .error d.message⟩, .any)

/-! ### Names -/

/-- The type of a constant, which may come from an earlier session. -/
def constantType (name : String) (s : Span) : TypeM TypeRef := do
  if (← TypeM.session).types.contains name then return .classOf name
  match ← TypeM.attempt (SessionM.importType name) with
  | .ok true => return .classOf name
  | .ok false => TypeM.report (.undefinedName name "constant") s
  | .error d =>
    TypeM.collectAt d s
    return .any

/-- Opens a class.  One of an earlier session is continued. -/
def openClass (name : String) (superclass : Option String) (s : Span) : TypeM Unit := do
  let persistent := superclass != some extensionType
  if persistent && !(← TypeM.session).types.contains name then
    match ← TypeM.attempt (SessionM.importType name) with
    | .ok _ => pure ()
    | .error d => TypeM.collectAt d s
  TypeM.modifySession fun k =>
    { k with types := k.types.openType name superclass persistent }

/-- The methods that every value has. -/
def universalMethods : List String := ["==", "!=", "!", "&&", "||", "to_s", "nil?", "class"]

/-- The type of the call of a method on a value. -/
def methodType (receiver : TypeRef) (name : String) (s : Span) : TypeM TypeRef := do
  match receiver.owner with
  | none => return .any
  | some owner =>
    let isClass := match receiver with
      | .classOf _ => true
      | _ => false
    if name = "new" && isClass then return TypeRef.ofName owner
    let types := (← TypeM.session).types
    match types.lookupMethod owner name with
    | some m => return m.returns
    | none =>
      if universalMethods.contains name || types.isDynamic owner then return .any
      else TypeM.report (.undefinedName name ("method on " ++ owner)) s

/-- The type of the call of a method on `self`. -/
def ownMethodType (scope : Scope) (name : String) (s : Span) : TypeM TypeRef := do
  let types := (← TypeM.session).types
  match types.lookupMethod scope.owner name with
  | some m => return m.returns
  | none =>
    if types.isDynamic scope.owner then return .any
    else TypeM.report (.undefinedName name "local variable or method") s

/-! ### Macros -/

/-- Builds the pending definitions in a list.  Whether one succeeds is reported
    where it stands.  Answers whether all could be tried: one that is being built
    ends the search. -/
def buildPending : List (Nat × BuildState) → TypeM Bool
  | [] => return true
  | (id, state) :: rest => do
    if state.isBuilding then return false
    if state = .unresolved then
      let _ ← env.build id
    buildPending rest

/-- The macro that a call means on the first of several types that has one. -/
def findMacro (name : String) (argc : Nat) (block : Bool) (s : Span) :
    List String → TypeM (Except Diagnostic (Option MacroEntry))
  | [] => return .ok none
  | owner :: owners => do
    if ← env.buildPending ((← TypeM.session).pending owner name) then
      let k ← TypeM.session
      match k.types.lookupMacro owner name argc block with
      | some entry => return .ok (some entry)
      | none =>
        if (k.pending owner name).any (·.2 == .failed) then
          return .error (← TypeM.failureAt (.unknownMacro name owner) s)
        else findMacro name argc block s owners
    else return .error (← TypeM.failureAt (.requiredTooEarly name) s)

/-- Replaces a call by its expansion, which is typed in turn. -/
def expand (scope : Scope) (entry : MacroEntry) (call : Node) : TypeM (Node × TypeRef) := do
  match env.again with
  | none =>
    let t ← TypeM.report (.buildFailed entry.name "expansion depth exceeded") call.span
    return (⟨call.span, .error "expansion depth exceeded"⟩, t)
  | some again =>
    match ← TypeM.expandCall entry.unit call with
    | .error d =>
      TypeM.collectAt d call.span
      return (⟨call.span, .error d.message⟩, .any)
    | .ok expanded =>
      TypeM.modifySession fun k => { k with expansions := k.expansions ++
        [⟨entry.name, entry.unit.name, env.depth, call.print, expanded.print⟩] }
      again scope expanded

/-- The type of a call on `self` without arguments or a block. -/
def inferName (scope : Scope) (name : String) (s : Span) : TypeM (Node × TypeRef) := do
  let call : Node := ⟨s, .invoke name [] none⟩
  match ← env.findMacro name 0 false s scope.macroOwners with
  | .error d =>
    TypeM.collect d
    return (call, .any)
  | .ok (some entry) => env.expand scope entry call
  | .ok none => return (call, ← ownMethodType scope name s)

/-- The type of a conditional, from the types of its branches. -/
def joinTypes (yes : TypeRef) : Option TypeRef → TypeRef
  | none => yes
  | some no => if no = yes then yes else .any

/-- The local variables inside a block or method. -/
def addLocals (locals : NameMap TypeRef) (params : List (String × TypeRef)) : NameMap TypeRef :=
  params.foldl (fun m p => m.insert p.1 p.2) locals

/-! ### Trees -/

mutual

/-- A tree with its macro calls expanded, and its type. -/
def infer (scope : Scope) : Node → TypeM (Node × TypeRef)
  | ⟨s, .int i⟩ => return (⟨s, .int i⟩, .int)
  | ⟨s, .float x⟩ => return (⟨s, .float x⟩, .float)
  | ⟨s, .str t⟩ => return (⟨s, .str t⟩, .str)
  | ⟨s, .bool b⟩ => return (⟨s, .bool b⟩, .bool)
  | ⟨s, .nil⟩ => return (⟨s, .nil⟩, .nil)
  | ⟨s, .self⟩ => return (⟨s, .self⟩, scope.selfType)
  | ⟨s, .ident name⟩ => do
    match (← get).locals.get? name with
    | some t => return (⟨s, .ident name⟩, t)
    | none => env.inferName scope name s
  | ⟨s, .assign name value⟩ => do
    let (value, t) ← infer scope value
    TypeM.assign name t
    return (⟨s, .assign name value⟩, t)
  | ⟨s, .field name⟩ => return (⟨s, .field name⟩, .any)
  | ⟨s, .fieldAssign name value⟩ => do
    let (value, t) ← infer scope value
    return (⟨s, .fieldAssign name value⟩, t)
  | ⟨s, .constant name⟩ => do return (⟨s, .constant name⟩, ← constantType name s)
  | ⟨s, .call target name args block⟩ => do
    let (target, receiver) ← infer scope target
    match ← env.findMacro name args.length block.isSome s receiver.owner.toList with
    | .error d =>
      TypeM.collect d
      return (⟨s, .call target name args block⟩, .any)
    | .ok (some entry) => env.expand scope entry ⟨s, .call target name args block⟩
    | .ok none =>
      let args ← inferAll scope args
      let block ← inferBlock scope block
      return (⟨s, .call target name args block⟩, ← methodType receiver name s)
  | ⟨s, .invoke name args block⟩ => do
    match ← env.findMacro name args.length block.isSome s scope.macroOwners with
    | .error d =>
      TypeM.collect d
      return (⟨s, .invoke name args block⟩, .any)
    | .ok (some entry) => env.expand scope entry ⟨s, .invoke name args block⟩
    | .ok none =>
      let args ← inferAll scope args
      let block ← inferBlock scope block
      return (⟨s, .invoke name args block⟩, ← ownMethodType scope name s)
  | ⟨s, .cond test yes no⟩ => do
    let (test, _) ← infer scope test
    let (yes, t) ← infer scope yes
    let (no, u) ← inferOpt scope no
    return (⟨s, .cond test yes no⟩, joinTypes t u)
  | ⟨s, .body items⟩ => do
    let ids ← prescan scope items
    let (items, t) ← inferItems scope .nil ids items
    return (⟨s, .body items⟩, t)
  | ⟨s, .block params body brace⟩ => do
    let locals := addLocals (← get).locals (params.map fun p => (p, .any))
    let (body, _) ← TypeM.withLocals locals (infer scope body)
    return (⟨s, .block params body brace⟩, .block)
  | ⟨s, .blockArgument name optional⟩ => do
    let t ← TypeM.report
      (.malformedText ("block argument '&" ++ name ++ "' outside a macro definition")) s
    return (⟨s, .blockArgument name optional⟩, t)
  | ⟨s, .classDef name superclass body⟩ => do
    openClass name superclass s
    let (body, _) ← TypeM.withLocals {} (infer (scope.inClass (TypeRef.ofName name)) body)
    return (⟨s, .classDef name superclass body⟩, .nil)
  | ⟨s, .methodDef name params returns body⟩ => do
    let params ← inferParams scope params
    let types := params.map fun p => (p.name, parameterType p)
    let (body, t) ← TypeM.withLocals (addLocals {} types) (infer scope body)
    defineMethod scope
      ⟨name, types.map Prod.snd, (returns.map TypeRef.ofName).getD t⟩
    return (⟨s, .methodDef name params returns body⟩, .nil)
  | ⟨s, .macroDef name args body id⟩ => env.inferDefinition scope s ⟨name, args, body⟩ id
  | ⟨s, .quote body⟩ => do return (⟨s, .quote (← inferHoles scope body)⟩, .node)
  | ⟨s, .unquote value⟩ => do
    let t ← TypeM.report (.strayHole ("`" ++ value.print ++ "`")) s
    return (⟨s, .unquote value⟩, t)
  | ⟨s, .noop⟩ => return (⟨s, .noop⟩, .void)
  | ⟨s, .error message⟩ => return (⟨s, .error message⟩, .any)

/-- Typed trees. -/
def inferAll (scope : Scope) : List Node → TypeM (List Node)
  | [] => return []
  | n :: ns => do
    let (n, _) ← infer scope n
    return n :: (← inferAll scope ns)

/-- A typed block that may be absent. -/
def inferBlock (scope : Scope) : Option Node → TypeM (Option Node)
  | none => return none
  | some n => do
    let (n, _) ← infer scope n
    return some n

/-- A typed branch that may be absent. -/
def inferOpt (scope : Scope) : Option Node → TypeM (Option Node × Option TypeRef)
  | none => return (none, none)
  | some n => do
    let (n, t) ← infer scope n
    return (some n, some t)

/-- The typed items of a body, given the numbers of its macro definitions, and the
    type of the last one, which is `t` if there is none. -/
def inferItems (scope : Scope) (t : TypeRef) : List (Option Nat) → List Node →
    TypeM (List Node × TypeRef)
  | _, [] => return ([], t)
  | ids, n :: ns => do
    let (n, t) ← match n, ids.head?.join with
      | ⟨s, .macroDef name args body none⟩, some id =>
        env.inferDefinition scope s ⟨name, args, body⟩ (some id)
      | n, _ => infer scope n
    let (ns, t) ← inferItems scope t ids.tail ns
    return (n :: ns, t)

/-- Parameters with typed defaults. -/
def inferParams (scope : Scope) : List Parameter → TypeM (List Parameter)
  | [] => return []
  | ⟨name, type, default, block⟩ :: ps => do
    let default ← inferBlock scope default
    return ⟨name, type, default, block⟩ :: (← inferParams scope ps)

/-- A quoted tree with typed holes.  Quotes inside it are left alone. -/
def inferHoles (scope : Scope) : Node → TypeM Node
  | ⟨s, .unquote value⟩ => do
    let (value, _) ← infer scope value
    return ⟨s, .unquote value⟩
  | ⟨s, .assign name value⟩ => do return ⟨s, .assign name (← inferHoles scope value)⟩
  | ⟨s, .fieldAssign name value⟩ => do
    return ⟨s, .fieldAssign name (← inferHoles scope value)⟩
  | ⟨s, .call target name args block⟩ => do
    let target ← inferHoles scope target
    let args ← inferHolesAll scope args
    return ⟨s, .call target name args (← inferHolesOpt scope block)⟩
  | ⟨s, .invoke name args block⟩ => do
    let args ← inferHolesAll scope args
    return ⟨s, .invoke name args (← inferHolesOpt scope block)⟩
  | ⟨s, .cond test yes no⟩ => do
    let test ← inferHoles scope test
    let yes ← inferHoles scope yes
    return ⟨s, .cond test yes (← inferHolesOpt scope no)⟩
  | ⟨s, .body items⟩ => do return ⟨s, .body (← inferHolesAll scope items)⟩
  | ⟨s, .block params body brace⟩ => do
    return ⟨s, .block params (← inferHoles scope body) brace⟩
  | ⟨s, .classDef name superclass body⟩ => do
    return ⟨s, .classDef name superclass (← inferHoles scope body)⟩
  | ⟨s, .methodDef name params returns body⟩ => do
    let params ← inferHolesParams scope params
    return ⟨s, .methodDef name params returns (← inferHoles scope body)⟩
  | n => return n

/-- Several quoted trees with typed holes. -/
def inferHolesAll (scope : Scope) : List Node → TypeM (List Node)
  | [] => return []
  | n :: ns => do
    let n ← inferHoles scope n
    return n :: (← inferHolesAll scope ns)

/-- A quoted tree that may be absent, with typed holes. -/
def inferHolesOpt (scope : Scope) : Option Node → TypeM (Option Node)
  | none => return none
  | some n => do return some (← inferHoles scope n)

/-- Quoted parameters with typed holes in their defaults. -/
def inferHolesParams (scope : Scope) : List Parameter → TypeM (List Parameter)
  | [] => return []
  | ⟨name, type, default, block⟩ :: ps => do
    let default ← inferHolesOpt scope default
    return ⟨name, type, default, block⟩ :: (← inferHolesParams scope ps)

end

end Typer

end Quasiquote
