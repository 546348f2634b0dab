import Std.Data.TreeMap
import Treewalk.Heap
import Treewalk.Sink

/-!
# The state of a run

A `Machine` is what a running program can read and change: the store, the sink, the clock, the scope
that is current, how many calls are open, and the table that says how many scopes up each reference
lives. `Eval` is a step of a run: it ends with a value, with a fault, or because its steps are used
up, and leaves a machine in any case.
-/

namespace Treewalk

/-- How many scopes up the name of each reference lives. A reference that is not in the table is to
a global. -/
abbrev Bindings := Std.TreeMap Nat Nat

/-- What all files of a session share while they run. -/
structure World where
  heap : Heap := {}
  sink : Sink := {}
  /-- What the clock shows next. -/
  time : Float := 0
deriving Inhabited

/-- What runs the code of a file: its global scope and the current one, its table of bindings, and
the number of calls that are open. -/
structure Interpreter where
  globals : Nat
  scope : Nat
  bindings : Bindings
  depth : Nat
deriving Inhabited

/-- The state of a run. -/
structure Machine where
  heap : Heap
  sink : Sink
  time : Float
  globals : Nat
  scope : Nat
  bindings : Bindings
  depth : Nat
  /-- The most calls that may be open. -/
  limit : Nat
deriving Inhabited

namespace Machine

/-- The machine of an interpreter in a world. -/
def ofParts (w : World) (i : Interpreter) (limit : Nat) : Machine :=
  { heap := w.heap, sink := w.sink, time := w.time, globals := i.globals, scope := i.scope
    bindings := i.bindings, depth := i.depth, limit }

/-- What the machine leaves to others. -/
def world (m : Machine) : World := { heap := m.heap, sink := m.sink, time := m.time }

/-- What the machine keeps to itself. -/
def interpreter (m : Machine) : Interpreter :=
  { globals := m.globals, scope := m.scope, bindings := m.bindings, depth := m.depth }

end Machine

/-- Why a run stops before its end. -/
inductive Stop where
  | fault (f : Fault)
  /-- The allowed steps are used up. -/
  | exhausted
deriving DecidableEq, Repr

/-- A step of a run. -/
abbrev Eval := EStateM Stop Machine

namespace Eval

/-- Fails at a token. -/
def fault {α : Type} (at_ : Token) (cause : Cause) : Eval α := throw (.fault (.ofToken at_ cause))

/-- The value of `x`, or a fault at a token. -/
def check {α : Type} (at_ : Token) (x : Except Cause α) : Eval α :=
  match x with
  | .ok a => return a
  | .error cause => fault at_ cause

/-- The value that should be there, or a fault at a token. -/
def demand {α : Type} (at_ : Token) (cause : Cause) (x : Option α) : Eval α :=
  match x with
  | some a => return a
  | none => fault at_ cause

/-- Runs `p` in the scope `s` and comes back to the current one in any case. -/
@[inline] def inScope {α : Type} (s : Nat) (p : Eval α) : Eval α := fun m =>
  let scope := m.scope
  match p { m with scope := s } with
  | .ok a m => .ok a { m with scope }
  | .error e m => .error e { m with scope }

/-- Runs `p` with one more call open, and closes it in any case. -/
@[inline] def deeper {α : Type} (p : Eval α) : Eval α := fun m =>
  match p { m with depth := m.depth + 1 } with
  | .ok a m => .ok a { m with depth := m.depth - 1 }
  | .error e m => .error e { m with depth := m.depth - 1 }

/-- The identity of a new closure or initializer. -/
def freshId : Eval Nat := fun m =>
  .ok m.heap.nextId { m with heap.nextId := m.heap.nextId + 1 }

/-- Makes a scope inside the scope `s`. -/
def newScope (s : Nat) : Eval Nat := fun m =>
  .ok m.heap.scopes.next { m with heap.scopes := m.heap.scopes.addChild s }

/-- Sets a variable of the scope `s`. -/
def define (s : Nat) (name : String) (v : Value) : Eval Unit := fun m =>
  .ok () { m with heap.scopes := m.heap.scopes.define s name v }

/-- Sets variables of the scope `s`, as many as there are both names and values. -/
def defineAll (s : Nat) : List Token → List Value → Eval Unit
  | name :: names, v :: vs => do
    define s name.lexeme v
    defineAll s names vs
  | _, _ => return ()

/-- Sets a variable of the current scope. -/
def defineHere (name : String) (v : Value) : Eval Unit := do define (← get).scope name v

/-- Reads the variable that a reference means: `d` scopes up if the table says so, and otherwise in
the outermost scope of the chain. -/
def lookUp (ref : Ref) : Eval Value := do
  let m ← get
  let name := ref.name.lexeme
  let found := match m.bindings[ref.id]? with
    | some d => m.heap.scopes.getAt? m.scope d name
    | none => m.heap.scopes.get? (m.heap.scopes.root m.scope) name
  demand ref.name (.undefinedVariable name) found

/-- The scope that holds the variable a reference writes to. -/
def target? (m : Machine) (ref : Ref) : Option Nat :=
  match m.bindings[ref.id]? with
  | some d => m.heap.scopes.ancestor? m.scope d
  | none => m.heap.scopes.holder? (m.heap.scopes.root m.scope) ref.name.lexeme

/-- Writes the variable that a reference means. -/
def assign (ref : Ref) (v : Value) : Eval Unit := do
  let name := ref.name.lexeme
  let s ← demand ref.name (.undefinedVariable name) (target? (← get) ref)
  define s name v

/-- Makes a closure of a declaration in the scope `s`. -/
def newClosure (decl : FunctionDecl) (s : Nat) (isInit : Bool) : Eval Closure :=
  return { id := ← freshId, decl, scope := s, isInit }

/-- Makes closures of methods in the scope `s`, each under its name. -/
def newMethods (s : Nat) (ofInstances : Bool) : List FunctionDecl → Eval (List (String × Closure))
  | [] => return []
  | decl :: decls => do
    let f ← newClosure decl s (ofInstances && decl.isInit)
    let rest ← newMethods s ofInstances decls
    return (decl.name.lexeme, f) :: rest

/-- A copy of a method in whose scope `this` is the instance. -/
def bindThis (f : Closure) (inst : Nat) : Eval Closure := do
  let s ← newScope f.scope
  define s "this" (.inst inst)
  newClosure f.decl s f.isInit

/-- The initializer of the class `c`, bound to an instance. -/
def initializerOf (c inst : Nat) : Eval Callable := do
  match (← get).heap.classes.cells[c]?.bind Class.init? with
  | some f => return .function (← bindThis f inst)
  | none => return .initializer (← freshId) c inst

/-- A property of an instance: an own field, or a method bound to it. -/
def instanceProperty (i : Nat) (name : Token) : Eval Value := do
  let h := (← get).heap
  let inst ← demand name (.undefinedProperty name.lexeme) h.instances[i]?
  match inst.fields.get? name.lexeme with
  | some v => return v
  | none =>
    if name.lexeme == initName then return .callable (← initializerOf inst.cls i)
    else
      let f ← demand name (.undefinedProperty name.lexeme) (h.classes.method? inst.cls name.lexeme)
      return .callable (.function (← bindThis f i))

/-- A property of an instance or a class. -/
def property (v : Value) (name : Token) : Eval Value :=
  match v with
  | .inst i => instanceProperty i name
  | .callable (.cls c) => do
    demand name (.undefinedProperty name.lexeme) ((← get).heap.classes.static? c name.lexeme)
  | _ => fault name .noProperties

/-- Sets an own field of an instance, or a static field of a class. -/
def setProperty (target : Value) (name : String) (v : Value) : Eval Unit := fun m =>
  match target with
  | .inst i =>
    .ok () { m with heap.instances := m.heap.instances.modify i fun inst =>
      { inst with fields := inst.fields.insert name v } }
  | .callable (.cls c) => .ok () { m with heap.classes := m.heap.classes.setStatic c name v }
  | _ => .ok () m

/-- A method of the superclass, bound to the instance that `this` means. The scope of `this` is just
inside that of `super`. -/
def superMethod (ref : Ref) (method : Token) : Eval Value := do
  let m ← get
  match m.bindings[ref.id]? with
  | some (d + 1) =>
    let super ← demand ref.name (.undefinedVariable ref.name.lexeme)
      (m.heap.scopes.getAt? m.scope (d + 1) ref.name.lexeme)
    let this ← demand ref.name (.undefinedVariable "this")
      (m.heap.scopes.getAt? m.scope d "this")
    match super, this with
    | .callable (.cls c), .inst i =>
      if method.lexeme == initName then return .callable (← initializerOf c i)
      else
        let f ← demand method (.undefinedProperty method.lexeme)
          (m.heap.classes.method? c method.lexeme)
        return .callable (.function (← bindThis f i))
    | _, _ => fault ref.name .misplacedSuper
  | _ => fault ref.name .misplacedSuper

/-- Makes an instance of the class `c` without any fields. -/
def newInstance (c : Nat) : Eval Nat := fun m =>
  .ok m.heap.instances.size { m with heap.instances := m.heap.instances.push ⟨c, {}⟩ }

/-- Makes a class. -/
def newClass (c : Class) : Eval Nat := fun m =>
  .ok m.heap.classes.next { m with heap.classes := m.heap.classes.add c }

/-- How far the clock moves with each reading. -/
def tick : Float := 0.000001

/-- Reads the clock. -/
def readClock : Eval Value := fun m => .ok (.num m.time) { m with time := m.time + tick }

/-- Calls a function of the host. -/
def callNative (slot : Nat) (args : List Value) (paren : Token) : Eval Value := do
  let h := (← get).heap
  match h.natives[slot]? with
  | some .clock => readClock
  | some (.host _ _ run) =>
    match run (args.map h.text) with
    | .ok s => return .string s
    | .error message => fault paren (.host message)
  | none => return .nil

/-- Prints the text of a value and a line end. -/
def print (keyword : Token) (v : Value) : Eval Unit := fun m =>
  let line := m.heap.text v ++ "\n"
  let fits := m.sink.fits line
  let m := { m with sink := m.sink.write line }
  if fits then .ok () m else .error (.fault (.ofToken keyword .sinkFull)) m

end Eval

end Treewalk
