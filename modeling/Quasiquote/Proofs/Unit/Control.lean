import Mathlib.Logic.Relation
import Quasiquote.Unit.Evaluator

namespace Quasiquote

/-!
# Control — a unit that runs step by step

The evaluator says what a tree evaluates to.  Here a unit runs in single steps that never look
ahead: what waits for a value stands on a stack, and a counter is increased where a method is
entered and decreased where it is left, by a value or by an error.  Nothing else bounds the calls.

* `Evaluator.Pending`, `Evaluator.Focus`, `Evaluator.Config` — what waits, what is turned to, and
  both with the counter;
* `Evaluator.step` — one step, and `Evaluator.Reaches` — any number of them;
* `Evaluator.Config.Counted` — the counter is the number of methods that have been entered and not
  left, and these are at most `Evaluator.nesting`;
* `Evaluator.Counted.of_reaches` — it counts right in a whole run.
-/

namespace Evaluator

/-! ### Configurations -/

/-- What arguments are for. -/
inductive Callee where
  | send (receiver : Value) (name : String)
  | method (name : String)

/-- What waits for a value. -/
inductive Pending where
  | assign (name : String)
  | fieldAssign (name : String)
  /-- A call whose receiver is evaluated. -/
  | receiver (name : String) (args : List Node)
  /-- A call that has some of its arguments. -/
  | argument (callee : Callee) (before : List Value) (after : List Node)
  | branch (yes : Node) (no : Option Node)
  | statement (after : List Node)
  /-- A method that was entered, and the local variables of its caller. -/
  | method (outer : NameMap Value)
  /-- The constructor of the unit. -/
  | constructor
  /-- The tree for a call at a place. -/
  | answer (place : Span)

/-- Whether it is the end of a method that is waited for. -/
def Pending.isMethod : Pending → Bool
  | .method _ => true
  | _ => false

/-- What a running unit turns to. -/
inductive Focus where
  | eval (n : Node)
  | arguments (callee : Callee) (before : List Value) (after : List Node)
  /-- Statements after one with the value `v`. -/
  | statements (v : Value) (after : List Node)
  | call (name : String) (args : List Value)
  | done (r : Except Diagnostic Value)

/-- Turns to a tree that may be absent. -/
def Focus.ofOption : Option Node → Focus
  | some n => .eval n
  | none => .done (.ok .nil)

/-- A unit between two steps. -/
structure Config where
  focus : Focus
  stack : List Pending
  /-- The counter of the methods. -/
  depth : Nat
  machine : Machine

namespace Config

/-- Turns to something else. -/
def turn (c : Config) (focus : Focus) : Config := { c with focus }

/-- Turns to a tree whose value `p` waits for. -/
def await (c : Config) (p : Pending) (n : Node) : Config :=
  { c with focus := .eval n, stack := p :: c.stack }

/-- Carries out what calls no method. -/
def carryOut (c : Config) (x : RunM Value) : Config :=
  { c with focus := .done (x.run c.machine).1, machine := (x.run c.machine).2 }

/-- How many methods have been entered and not left. -/
def entered (c : Config) : Nat := c.stack.countP Pending.isMethod

end Config

/-! ### Steps -/

variable (env : Evaluator)

/-- Takes a tree apart. -/
def takeApart (c : Config) : Node → Config
  | ⟨_, .int i⟩ => c.carryOut (pure (.int i))
  | ⟨_, .float x⟩ => c.carryOut (pure (.float x))
  | ⟨_, .str s⟩ => c.carryOut (pure (.str s))
  | ⟨_, .bool b⟩ => c.carryOut (pure (.bool b))
  | ⟨_, .nil⟩ => c.carryOut (pure .nil)
  | ⟨_, .noop⟩ => c.carryOut (pure .nil)
  | ⟨_, .ident name⟩ => match c.machine.frame.get? name with
    | some v => c.carryOut (pure v)
    | none =>
      if (env.unit.image.method? name).isSome then c.turn (.call name [])
      else c.carryOut (env.fail ("undefined local variable or method '" ++ name ++ "'"))
  | ⟨_, .assign name value⟩ => c.await (.assign name) value
  | ⟨_, .field name⟩ => c.carryOut (pure ((c.machine.fields.get? name).getD .nil))
  | ⟨_, .fieldAssign name value⟩ => c.await (.fieldAssign name) value
  | ⟨_, .constant name⟩ => c.carryOut (env.constant name)
  | ⟨_, .call _ name _ (some _)⟩ => c.carryOut (env.refuseBlock name)
  | ⟨_, .call target name args none⟩ => c.await (.receiver name args) target
  | ⟨_, .invoke name _ (some _)⟩ => c.carryOut (env.refuseBlock name)
  | ⟨_, .invoke name args none⟩ => c.turn (.arguments (.method name) [] args)
  | ⟨_, .cond test yes no⟩ => c.await (.branch yes no) test
  | ⟨_, .body items⟩ => c.turn (.statements .nil items)
  | ⟨s, .block params body brace⟩ => c.carryOut (pure (.node ⟨s, .block params body brace⟩))
  | ⟨_, .error message⟩ => c.carryOut (env.fail message)
  | n => c.carryOut (env.fail ("cannot evaluate " ++ n.describe))

/-- Hands over the arguments, all of which are there. -/
def handOver (c : Config) (args : List Value) : Callee → Config
  | .send receiver name => c.carryOut (env.send receiver name args)
  | .method name => c.turn (.call name args)

/-- Enters a method, unless too many have been entered already. -/
def enter (c : Config) (name : String) (args : List Value) : Config :=
  match ((env.methodFor name args).run c.machine).1 with
  | .error e => c.turn (.done (.error e))
  | .ok method =>
    if c.depth < nesting then
      { focus := .eval method.body
        stack := .method c.machine.frame :: c.stack
        depth := c.depth + 1
        machine := { c.machine with frame := .ofList (method.params.zip args) } }
    else c.carryOut (env.fail "stack level too deep")

/-- Goes on after the receiver of a call. -/
def receive (c : Config) (v : Value) : String → List Node → Config
  -- these two look at the other operand only if the first one does not decide
  | "&&", [rhs] => c.turn (if v.truthy then .eval rhs else .done (.ok v))
  | "||", [rhs] => c.turn (if v.truthy then .done (.ok v) else .eval rhs)
  | name, args => c.turn (.arguments (.send v name) [] args)

/-- The tree that a unit answers for a call at a place. -/
def answerAt (place : Span) (v : Value) : RunM Value :=
  match v.toNode place with
  | .ok n => return .node n
  | .error reason => env.fail reason

/-- Goes on with the value that is waited for. -/
def resume (c : Config) (v : Value) : Pending → Config
  | .assign name => c.carryOut do
    modify fun m => { m with frame := m.frame.insert name v }
    return v
  | .fieldAssign name => c.carryOut do
    modify fun m => { m with fields := m.fields.insert name v }
    return v
  | .receiver name args => receive c v name args
  | .argument callee before after => c.turn (.arguments callee (before ++ [v]) after)
  | .branch yes no => c.turn (if v.truthy then .eval yes else .ofOption no)
  | .statement after => c.turn (.statements v after)
  | .method outer =>
    { c with depth := c.depth - 1, machine := { c.machine with frame := outer } }
  | .constructor => c.turn (.call Extension.entryMethod [])
  | .answer place => c.carryOut (env.answerAt place v)

/-- Gives up what waits for a value.  A method is left all the same. -/
def abandon (c : Config) : Pending → Config
  | .method _ => { c with depth := c.depth - 1 }
  | _ => c

/-- Goes on from an outcome that something waits for. -/
def proceed (c : Config) (p : Pending) : Except Diagnostic Value → Config
  | .ok v => env.resume c v p
  | .error _ => abandon c p

/-- One step, or none at the end. -/
def step (c : Config) : Option Config :=
  match c.focus, c.stack with
  | .eval n, _ => some (env.takeApart c n)
  | .arguments callee before [], _ => some (env.handOver c before callee)
  | .arguments callee before (n :: ns), _ => some (c.await (.argument callee before ns) n)
  | .statements v [], _ => some (c.turn (.done (.ok v)))
  | .statements _ (n :: ns), _ => some (c.await (.statement ns) n)
  | .call name args, _ => some (env.enter c name args)
  | .done _, [] => none
  | .done r, p :: stack => some (env.proceed { c with stack } p r)

/-- Some number of steps. -/
def Reaches : Config → Config → Prop := Relation.ReflTransGen fun c c' => env.step c = some c'

/-- A unit that is given a call. -/
def start (call : Node) (scopes : Scopes Node) : Config :=
  if (env.unit.image.method? "initialize").isSome then
    ⟨.call "initialize" [.compiler, .node call], [.constructor, .answer call.span], 0, { scopes }⟩
  else ⟨.call Extension.entryMethod [], [.answer call.span], 0, { scopes }⟩

/-! ### The counter -/

variable {env} {c c' c'' : Config}

/-- Whether the counter of the methods counts right, and no further than it may. -/
structure Config.Counted (c : Config) : Prop where
  depth : c.depth = c.entered
  le_nesting : c.depth ≤ nesting

/-- Whether no method is entered or left between two configurations. -/
structure Level (c c' : Config) : Prop where
  depth : c'.depth = c.depth
  entered : c'.entered = c.entered

namespace Level

theorem turn (c : Config) (f : Focus) : Level c (c.turn f) := ⟨rfl, rfl⟩

theorem carryOut (c : Config) (x : RunM Value) : Level c (c.carryOut x) := ⟨rfl, rfl⟩

theorem await (c : Config) {p : Pending} (hp : p.isMethod = false) (n : Node) :
    Level c (c.await p n) where
  depth := rfl
  entered := List.countP_cons_of_neg (by simp [hp])

theorem takeApart (c : Config) (n : Node) : Level c (env.takeApart c n) := by
  unfold Evaluator.takeApart
  split
  case h_7 name =>
    -- only a bare identifier can be three different things
    split
    · apply carryOut
    · split
      · apply turn
      · apply carryOut
  all_goals first | apply turn | apply carryOut | apply await; rfl

theorem handOver (c : Config) (args : List Value) (callee : Callee) :
    Level c (env.handOver c args callee) := by
  cases callee with
  | send receiver name => apply carryOut
  | method name => apply turn

theorem receive (c : Config) (v : Value) (name : String) (args : List Node) :
    Level c (receive c v name args) := by
  unfold Evaluator.receive
  split <;> apply turn

/-- Only the end of a method changes the counter when a value comes. -/
theorem resume (c : Config) (v : Value) {p : Pending} (hp : p.isMethod = false) :
    Level c (env.resume c v p) := by
  cases p with
  | method outer => cases hp
  | receiver name args => apply receive
  | assign name => apply carryOut
  | fieldAssign name => apply carryOut
  | answer place => apply carryOut
  | argument callee before after => apply turn
  | branch yes no => apply turn
  | statement after => apply turn
  | constructor => apply turn

theorem abandon (c : Config) {p : Pending} (hp : p.isMethod = false) : Level c (abandon c p) := by
  cases p with
  | method outer => cases hp
  | _ => exact ⟨rfl, rfl⟩

end Level

namespace Config.Counted

theorem of_level (h : c.Counted) (hl : Level c c') : c'.Counted where
  depth := by rw [hl.depth, hl.entered, h.depth]
  le_nesting := hl.depth ▸ h.le_nesting

/-- A method is entered only where the counter leaves room for it. -/
theorem enter (h : c.Counted) (name : String) (args : List Value) :
    (env.enter c name args).Counted := by
  unfold Evaluator.enter
  split
  case h_1 e => exact h.of_level (.turn c _)
  case h_2 method =>
    by_cases hroom : c.depth < nesting
    · rw [if_pos hroom]
      refine ⟨?_, hroom⟩
      show c.depth + 1 = _
      rw [Config.entered, List.countP_cons_of_pos rfl, h.depth]
      rfl
    · rw [if_neg hroom]
      exact h.of_level (.carryOut c _)

/-- An outcome is handed to what waits for it. -/
theorem proceed {p : Pending} {stack : List Pending} (h : c.Counted) (hstack : c.stack = p :: stack)
    (r : Except Diagnostic Value) : (env.proceed { c with stack } p r).Counted := by
  have hentered : c.entered = stack.countP Pending.isMethod + if p.isMethod then 1 else 0 := by
    rw [Config.entered, hstack, List.countP_cons]
  cases hp : p.isMethod with
  | false =>
    have hc : Config.Counted { c with stack } := by
      refine ⟨?_, h.le_nesting⟩
      show c.depth = stack.countP Pending.isMethod
      rw [h.depth, hentered, hp]
      rfl
    cases r with
    | ok v => exact hc.of_level (.resume _ v hp)
    | error e => exact hc.of_level (.abandon _ hp)
  | true =>
    -- the method is left, by a value or by an error
    obtain ⟨outer, rfl⟩ : ∃ outer, p = .method outer := by
      cases p <;> first | exact ⟨_, rfl⟩ | cases hp
    have hdepth : c.depth - 1 = stack.countP Pending.isMethod := by
      rw [h.depth, hentered, if_pos hp]
      omega
    have hle : c.depth - 1 ≤ nesting := by
      have := h.le_nesting
      omega
    cases r with
    | ok v => exact ⟨hdepth, hle⟩
    | error e => exact ⟨hdepth, hle⟩

/-- A step keeps the count. -/
theorem step (h : c.Counted) (hstep : env.step c = some c') : c'.Counted := by
  obtain ⟨focus, stack, depth, machine⟩ := c
  -- methods are entered at calls and left at outcomes, and nowhere else
  cases focus with
  | eval n =>
    cases hstep
    exact h.of_level (.takeApart _ n)
  | arguments callee before after =>
    cases after with
    | nil =>
      cases hstep
      exact h.of_level (.handOver _ before callee)
    | cons n ns =>
      cases hstep
      exact h.of_level (.await _ rfl n)
  | statements v after =>
    cases after with
    | nil =>
      cases hstep
      exact h.of_level (.turn _ _)
    | cons n ns =>
      cases hstep
      exact h.of_level (.await _ rfl n)
  | call name args =>
    cases hstep
    exact h.enter name args
  | done r =>
    cases stack with
    | nil => cases hstep
    | cons p stack =>
      cases hstep
      exact h.proceed rfl r

/-- A whole run keeps the count. -/
theorem reaches (h : c.Counted) (hrun : env.Reaches c c') : c'.Counted := by
  induction hrun with
  | refl => exact h
  | tail _ hstep ih => exact ih.step hstep

/-- The counter is the same wherever the same things wait. -/
theorem depth_eq (h : c.Counted) (h' : c'.Counted) (hstack : c'.stack = c.stack) :
    c'.depth = c.depth := by
  rw [h.depth, h'.depth, Config.entered, Config.entered, hstack]

end Config.Counted

theorem counted_start (call : Node) (scopes : Scopes Node) : (env.start call scopes).Counted := by
  unfold start
  split <;> exact ⟨rfl, Nat.zero_le _⟩

end Evaluator

end Quasiquote
