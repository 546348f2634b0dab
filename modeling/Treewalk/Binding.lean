import Treewalk.Table
import Treewalk.Tree.Basic

/-!
# Where names live

Before a program runs, `Stmt.bind` walks its trees with the scopes that are open at each point and
finds out how many scopes up each used name is declared. It also finds what stands in the wrong
place. It changes nothing but its `Context`: what it finds is listed in order (`Finding`), and to
fetch a required file is left to whoever reads the list.

A name that no open scope declares is left to the global scope.
-/

namespace Treewalk

/-- What can be wrong with the place of a name or a statement. -/
inductive BindingFault where
  | declaredTwice
  | ownInitializer
  | returnOutside
  | returnFromInit
  | breakOutside
  | continueOutside
  | thisOutside
  | thisInStatic
  | superOutside
  | superWithoutSuperclass
  | superInStatic
  | innerImport
  | innerExpose
deriving DecidableEq, Repr

/-- The wording of a fault. -/
def BindingFault.message : BindingFault → String
  | .declaredTwice => "Already a variable with this name in this scope."
  | .ownInitializer => "Can't read local variable in its own initializer."
  | .returnOutside => "Can't return from top-level code."
  | .returnFromInit => "Can't return a value from an initializer."
  | .breakOutside => "Can't use 'break' outside of a loop."
  | .continueOutside => "Can't use 'continue' outside of a loop."
  | .thisOutside => "Can't use 'this' outside of a class."
  | .thisInStatic => "Can't use 'this' in a static method."
  | .superOutside => "Can't use 'super' outside of a class."
  | .superWithoutSuperclass => "Can't use 'super' in a class with no superclass."
  | .superInStatic => "Can't use 'super' in a static method."
  | .innerImport => "Can only import at top-level code."
  | .innerExpose => "Can only expose names from top-level code."

/-- What the walk finds. -/
inductive Finding where
  /-- The reference `id` reads or writes the scope `distance` links up. -/
  | local (id distance : Nat)
  | fault (at_ : Token) (f : BindingFault)
  /-- The name is declared outside of all scopes. -/
  | declared (name : String)
  | required (decl : ImportDecl)
  | exposed (names : List Token)
deriving DecidableEq, Repr

/-- The function that a statement belongs to. -/
inductive FunctionKind where
  | function
  | method
  | initializer
deriving DecidableEq, Repr

/-- The class that a statement belongs to. -/
inductive ClassKind where
  | base
  | derived
deriving DecidableEq, Repr

/-- Names declared in a scope, each with whether its initializer is behind. -/
abbrev Names := Table String Bool

/-- What the walk knows at a point, and what it has found, last first. -/
structure Context where
  /-- The open scopes, innermost first. -/
  scopes : List Names := []
  function : Option FunctionKind := none
  cls : Option ClassKind := none
  inStatic : Bool := false
  /-- How many loops of the function are open. -/
  loops : Nat := 0
  found : List Finding := []
deriving Repr

namespace Context

instance : Inhabited Context := ⟨{}⟩

/-- Adds a finding. -/
def find (c : Context) (f : Finding) : Context := { c with found := f :: c.found }

/-- Adds a fault. -/
def fault (c : Context) (at_ : Token) (f : BindingFault) : Context := c.find (.fault at_ f)

/-- The number of scopes between the innermost scope and the nearest that declares `name`. -/
def distance? (name : String) : List Names → Option Nat
  | [] => none
  | s :: rest => if s.contains name then some 0 else (distance? name rest).map (· + 1)

/-- Finds where a reference lives, if some scope declares it. -/
def refer (c : Context) (ref : Ref) : Context :=
  match distance? ref.name.lexeme c.scopes with
  | some d => c.find (.local ref.id d)
  | none => c

/-- Opens a scope. -/
def push (c : Context) : Context := { c with scopes := {} :: c.scopes }

/-- Closes the innermost scope. -/
def pop (c : Context) : Context := { c with scopes := c.scopes.tail }

/-- Sets a name of the innermost scope. -/
def note (c : Context) (name : String) (ready : Bool) : Context :=
  match c.scopes with
  | s :: rest => { c with scopes := s.insert name ready :: rest }
  | [] => c

/-- Declares a name whose initializer is still ahead. -/
def declare (c : Context) (name : Token) : Context :=
  match c.scopes with
  | s :: _ =>
    let c' := c.note name.lexeme false
    if s.contains name.lexeme then c'.fault name .declaredTwice else c'
  | [] => c.find (.declared name.lexeme)

/-- Marks a name's initializer as done. -/
def define (c : Context) (name : Token) : Context := c.note name.lexeme true

/-- Declares and defines each of `names` in turn. -/
def defineAll (c : Context) (names : List Token) : Context :=
  names.foldl (fun c name => (c.declare name).define name) c

/-- Whether the innermost scope declares `name` and its initializer is still ahead. -/
def isInitializing (c : Context) (name : String) : Bool :=
  c.scopes.head?.any fun s => s.get? name == some false

end Context

mutual

/-- Binds the names of an expression. Assignments bind the value first, then the target. -/
def Expr.bind : Expr → Context → Context
  | .literal _, c => c
  | .grouping e, c => Expr.bind e c
  | .unary _ e, c => Expr.bind e c
  | .binary l _ r, c => Expr.bind r (Expr.bind l c)
  | .logical l _ r, c => Expr.bind r (Expr.bind l c)
  | .ternary t y n, c => Expr.bind n (Expr.bind y (Expr.bind t c))
  | .comma es, c => Expr.bindAll es c
  | .variable ref, c =>
    let c' := if c.isInitializing ref.name.lexeme then c.fault ref.name .ownInitializer else c
    c'.refer ref
  | .assign ref e, c => (Expr.bind e c).refer ref
  | .compound ref _ e, c => (Expr.bind e c).refer ref
  | .call callee _ args, c => Expr.bindAll args (Expr.bind callee c)
  | .get e _, c => Expr.bind e c
  | .set e _ _ v, c => Expr.bind e (Expr.bind v c)
  | .this ref, c =>
    if c.cls.isNone then c.fault ref.name .thisOutside
    else if c.inStatic then c.fault ref.name .thisInStatic
    else c.refer ref
  | .super ref _, c =>
    match c.cls with
    | none => c.fault ref.name .superOutside
    | some .base => c.fault ref.name .superWithoutSuperclass
    | some .derived => if c.inStatic then c.fault ref.name .superInStatic else c.refer ref

/-- Binds the names of expressions in turn. -/
def Expr.bindAll : List Expr → Context → Context
  | [], c => c
  | e :: es, c => Expr.bindAll es (Expr.bind e c)

end

/-- Binds the names of an expression that may not be there. -/
def Expr.bindOption : Option Expr → Context → Context
  | some e, c => e.bind c
  | none, c => c

/-- Binds the names of the initializers of static fields. -/
def FieldDecl.bindAll (fields : List FieldDecl) (c : Context) : Context :=
  fields.foldl (fun c f => Expr.bindOption f.init c) c

mutual

/-- Binds the names of a statement. -/
def Stmt.bind : Stmt → Context → Context
  | .expr e, c => e.bind c
  | .print _ e, c => e.bind c
  | .var name _ init, c => (Expr.bindOption init (c.declare name)).define name
  | .block body, c => (Stmt.bindAll body c.push).pop
  | .decls body, c => Stmt.bindAll body c
  | .branch e y none, c => Stmt.bind y (e.bind c)
  | .branch e y (some n), c => Stmt.bind n (Stmt.bind y (e.bind c))
  | .loop e step body, c =>
    let c := e.bind c
    let c := Stmt.bind body { c with loops := c.loops + 1 }
    Expr.bindOption step { c with loops := c.loops - 1 }
  | .function decl, c =>
    FunctionDecl.bind .function decl ((c.declare decl.name).define decl.name)
  | .ret keyword value, c =>
    let c := if c.function.isNone then c.fault keyword .returnOutside else c
    let c := if value.isSome && c.function == some .initializer then c.fault keyword .returnFromInit
      else c
    Expr.bindOption value c
  | .brk keyword, c => if c.loops == 0 then c.fault keyword .breakOutside else c
  | .cont keyword, c => if c.loops == 0 then c.fault keyword .continueOutside else c
  | .cls decl, c => ClassDecl.bind decl c
  | .require decl, c =>
    if c.scopes.isEmpty then c.find (.required decl) else c.fault decl.keyword .innerImport
  | .expose keyword names, c =>
    if c.scopes.isEmpty then c.find (.exposed names) else c.fault keyword .innerExpose

/-- Binds the names of statements in turn. -/
def Stmt.bindAll : List Stmt → Context → Context
  | [], c => c
  | s :: ss, c => Stmt.bindAll ss (Stmt.bind s c)

/-- Binds the names of a function. Its parameters and its body share a scope, and loops around it
do not count inside. -/
def FunctionDecl.bind (kind : FunctionKind) : FunctionDecl → Context → Context
  | ⟨_, params, body⟩, c =>
    let inner := { c.push with function := some kind, loops := 0 }
    let c' := (Stmt.bindAll body (inner.defineAll params)).pop
    { c' with function := c.function, loops := c.loops }

/-- Binds the names of static methods in turn. -/
def FunctionDecl.bindStatics : List FunctionDecl → Context → Context
  | [], c => c
  | f :: fs, c => FunctionDecl.bindStatics fs (FunctionDecl.bind .function f c)

/-- Binds the names of methods in turn. -/
def FunctionDecl.bindMethods : List FunctionDecl → Context → Context
  | [], c => c
  | f :: fs, c =>
    let kind := if f.isInit then FunctionKind.initializer else .method
    FunctionDecl.bindMethods fs (FunctionDecl.bind kind f c)

/-- Binds the names of a class: a scope for `super` around all members if it has a superclass, and
one for `this` around those of instances. -/
def ClassDecl.bind : ClassDecl → Context → Context
  | ⟨name, superclass, methods, fields, staticMethods, staticFields⟩, c =>
    let outer := (c.declare name).define name
    let around := match superclass with
      | some ref => ({ outer with cls := some .derived }.refer ref).push.note "super" true
      | none => { outer with cls := some .base }
    let statics := FunctionDecl.bindStatics staticMethods
      (FieldDecl.bindAll staticFields { around with inStatic := true })
    let inner := FunctionDecl.bindMethods methods
      ({ statics with inStatic := false }.push.note "this" true)
    let inner := match fields with
      | some f => FunctionDecl.bind .method f inner
      | none => inner
    let after := inner.pop
    let after := if superclass.isSome then after.pop else after
    { after with inStatic := c.inStatic, cls := c.cls }

end

/-- All that binding the names of a program finds, in order. -/
def findings (body : List Stmt) : List Finding := (Stmt.bindAll body {}).found.reverse

end Treewalk
