import Quasiquote.Macro.Descriptor
import Quasiquote.Macro.Table
import Quasiquote.NameMap

namespace Quasiquote

/-!
# The type registry — every type of a session

A type has methods and macros, and finds those of its superclasses too.  Built-in
types accept calls of methods that they do not declare; the types of programs do
not.  What can be written out carries its descriptor along.

* `Method`, `OwnerType`, `TypeRegistry` — methods, types, and all types by name;
* `OwnerType.define`, `OwnerType.addMacro`, `OwnerType.addOverload` — additions to
  a type;
* `TypeRegistry.ancestors` — a type and its superclasses;
* `TypeRegistry.lookupMacro`, `TypeRegistry.lookupMethod`,
  `TypeRegistry.isDynamic` — questions about a type and its superclasses.
-/

/-- A method and its static types. -/
structure Method where
  name : String
  params : List TypeRef
  returns : TypeRef
deriving DecidableEq, Repr

/-- The record of a method in a descriptor. -/
def Method.record (m : Method) : MethodRecord :=
  ⟨m.name, m.params.map TypeRef.name, m.returns.name⟩

/-- The method of a record. -/
def Method.ofRecord (r : MethodRecord) : Method :=
  ⟨r.name, r.params.map TypeRef.ofName, TypeRef.ofName r.returns⟩

/-- A type with methods and macros. -/
structure OwnerType where
  name : String
  superclass : Option String
  methods : NameMap Method := {}
  macros : MacroTable := {}
  /-- What is written out, for types that are. -/
  descriptor : Option Descriptor := none
  builtin : Bool := false

/-- The root of all types. -/
def rootType : String := "Object"

/-- The superclass of the units that expand macros. -/
def extensionType : String := "MacroExtension"

namespace OwnerType

/-- A type of a program.  It has a descriptor if it is persistent. -/
def ofProgram (name : String) (superclass : Option String) (persistent : Bool) : OwnerType :=
  let parent := superclass.getD rootType
  { name, superclass := some parent,
    descriptor := if persistent then some { name, superclass := some parent } else none }

/-- Declares a method, in the descriptor too. -/
def define (t : OwnerType) (m : Method) : OwnerType :=
  { t with
    methods := t.methods.insert m.name m
    descriptor := t.descriptor.map (·.addMethod m.record) }

/-- Adds an entry to the macros of a type; tells whether it is new. -/
def addEntry (t : OwnerType) (e : MacroEntry) : OwnerType × Bool :=
  let (macros, added) := t.macros.add e
  ({ t with macros }, added)

/-- Adds a macro under its full signature. -/
def addMacro (t : OwnerType) (name : String) (s : Signature) (unit : LoadedUnit) :
    OwnerType × Bool :=
  t.addEntry ⟨name, s, .full, unit⟩

/-- Adds the form of a macro that is called without its block. -/
def addOverload (t : OwnerType) (name : String) (s : Signature) (unit : LoadedUnit) :
    OwnerType × Bool :=
  t.addEntry ⟨name, s.withoutBlock, .blockless, unit⟩

/-- Records a macro in the descriptor, if there is one. -/
def recordMacro (t : OwnerType) (r : MacroRecord) : OwnerType :=
  { t with descriptor := t.descriptor.map fun d => (d.addMacro r).1 }

end OwnerType

/-- Every type of a session, and the name of the type of scripts. -/
structure TypeRegistry where
  types : NameMap OwnerType
  scriptType : String

namespace TypeRegistry

/-- A built-in type. -/
def builtinType (name : String) (superclass : Option String) (methods : List Method) :
    OwnerType :=
  { name, superclass, methods := .ofList (methods.map fun m => (m.name, m)), builtin := true }

/-- The built-in types. -/
def builtins : List OwnerType :=
  builtinType rootType none [] ::
  (["Int", "Float", "String", "Bool", "Nil", "Node", "Block", "Compiler", extensionType].map
    fun name => builtinType name (some rootType) []) ++
  [builtinType "PrintStream" (some rootType)
    [⟨"println", [.any], .void⟩, ⟨"print", [.any], .void⟩],
   builtinType "System" (some rootType) [⟨"out", [], .named "PrintStream"⟩]]

/-- The registry with a type under its own name. -/
def install (r : TypeRegistry) (t : OwnerType) : TypeRegistry :=
  { r with types := r.types.insert t.name t }

/-- The built-in types and an empty type of scripts. -/
def initial (scriptType : String) : TypeRegistry :=
  (builtins ++ [OwnerType.ofProgram scriptType none true]).foldl install
    { types := {}, scriptType }

/-- The type of a name. -/
def get? (r : TypeRegistry) (name : String) : Option OwnerType := r.types.get? name

/-- Whether there is a type of a name. -/
def contains (r : TypeRegistry) (name : String) : Bool := r.types.contains name

/-- The registry with one type changed. -/
def modify (r : TypeRegistry) (name : String) (f : OwnerType → OwnerType) : TypeRegistry :=
  { r with types := r.types.modify name f }

/-- Opens a type for definitions.  A type that exists is kept as it is. -/
def openType (r : TypeRegistry) (name : String) (superclass : Option String)
    (persistent : Bool) : TypeRegistry :=
  if r.contains name then r
  else { r with types := r.types.insert name (.ofProgram name superclass persistent) }

/-- A type and at most `n` types above it. -/
def chain (r : TypeRegistry) : Nat → Option OwnerType → List OwnerType
  | _, none => []
  | 0, some t => [t]
  | n + 1, some t => t :: chain r n (t.superclass.bind r.get?)

/-- The type of a name and the types above it.  No chain without a cycle is
    longer than the registry. -/
def ancestors (r : TypeRegistry) (name : String) : List OwnerType :=
  r.chain r.types.size (r.get? name)

/-- The macro that a call on a type means. -/
def lookupMacro (r : TypeRegistry) (owner name : String) (argc : Nat) (block : Bool) :
    Option MacroEntry :=
  (r.ancestors owner).findSome? (·.macros.resolve name argc block)

/-- The method of a name on a type. -/
def lookupMethod (r : TypeRegistry) (owner name : String) : Option Method :=
  (r.ancestors owner).findSome? (·.methods.get? name)

/-- Whether a type accepts methods that it does not declare. -/
def isDynamic (r : TypeRegistry) (owner : String) : Bool :=
  !r.contains owner || (r.ancestors owner).any fun t => t.builtin && t.name != rootType

/-- The types that are written out. -/
def descriptors (r : TypeRegistry) : List Descriptor :=
  r.types.values.filterMap OwnerType.descriptor

@[simp] theorem get?_install_self (r : TypeRegistry) (t : OwnerType) :
    (r.install t).get? t.name = some t := by
  simp [install, get?]

/-- Installing a type leaves every other one alone. -/
theorem get?_install_of_ne (r : TypeRegistry) {t : OwnerType} {name : String}
    (h : name ≠ t.name) : (r.install t).get? name = r.get? name :=
  NameMap.get?_insert_of_ne r.types h t

end TypeRegistry

end Quasiquote
