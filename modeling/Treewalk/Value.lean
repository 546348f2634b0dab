import Treewalk.Tree.Basic

/-!
# Values

What an expression stands for at run time. Scopes, classes and instances live in a store and are
named by their index in it; functions carry an identity of their own.
-/

namespace Treewalk

/-- A function together with the scope it was declared in. -/
structure Closure where
  /-- Tells closures of one declaration apart. -/
  id : Nat
  decl : FunctionDecl
  scope : Nat
  /-- Whether calls answer the instance it is bound to. -/
  isInit : Bool
deriving Inhabited

/-- The number of arguments a closure takes. -/
def Closure.arity (f : Closure) : Nat := f.decl.params.length

/-- What can be called. -/
inductive Callable where
  /-- A function of the host, by its index. -/
  | native (slot : Nat)
  | function (f : Closure)
  /-- What initializes the instance `inst` as one of the class `cls`, which has no `init`. -/
  | initializer (id cls inst : Nat)
  | cls (c : Nat)
deriving Inhabited

/-- A value. -/
inductive Value where
  | nil
  | bool (b : Bool)
  | num (x : Float)
  | string (s : String)
  | callable (c : Callable)
  | inst (i : Nat)
deriving Inhabited

/-- Whether two callables are one and the same. -/
def Callable.same : Callable → Callable → Bool
  | .native a, .native b => a == b
  | .function f, .function g => f.id == g.id
  | .initializer a _ _, .initializer b _ _ => a == b
  | .cls a, .cls b => a == b
  | _, _ => false

namespace Value

/-- The value that a literal writes down. -/
def ofLiteral : Literal → Value
  | .nil => .nil
  | .bool b => .bool b
  | .num x => .num x
  | .string s => .string s

/-- All values count as true but `nil` and `false`. -/
def truthy : Value → Bool
  | .nil => false
  | .bool b => b
  | _ => true

/-- Equality: plain values by what they are, all others by identity. -/
def equal : Value → Value → Bool
  | .nil, .nil => true
  | .bool a, .bool b => a == b
  | .num x, .num y => x == y
  | .string s, .string t => s == t
  | .callable a, .callable b => a.same b
  | .inst i, .inst j => i == j
  | _, _ => false

/-- Whether a value has properties that can be written to. -/
def hasFields : Value → Bool
  | .inst _ => true
  | .callable (.cls _) => true
  | _ => false

end Value

end Treewalk
