import Treewalk.Table
import Treewalk.Value

/-!
# Classes

A class has methods for its instances, static methods and static fields of its own, and perhaps a
superclass. What it does not have itself is looked for along its `lineage`: the class, its
superclass, and so on.
-/

namespace Treewalk

/-- A class. -/
structure Class where
  name : String
  superclass : Option Nat
  methods : Table String Closure
  /-- Initializes the fields of a class without an `init` of its own. -/
  fields : Option Closure
  staticMethods : Table String Closure
  statics : Table String Value
deriving Inhabited

/-- The initializer that the class itself declares. -/
def Class.init? (c : Class) : Option Closure := c.methods.get? initName

/-- The static member that the class itself has. Fields go before methods. -/
def Class.ownStatic? (c : Class) (name : String) : Option Value :=
  match c.statics.get? name with
  | some v => some v
  | none => (c.staticMethods.get? name).map fun f => .callable (.function f)

/-- All classes; a class is named by its index, and its superclass has a smaller one. -/
structure Classes where
  cells : Array Class
deriving Inhabited

namespace Classes

/-- No classes. -/
def empty : Classes := ⟨#[]⟩

instance : EmptyCollection Classes := ⟨empty⟩

/-- The index of the class that `add` adds next. -/
def next (cs : Classes) : Nat := cs.cells.size

/-- Adds a class. -/
def add (cs : Classes) (c : Class) : Classes := ⟨cs.cells.push c⟩

/-- The class `c` and the classes above it, at most `n` of them. -/
def lineageWithin (cs : Classes) : (n : Nat) → (c : Nat) → List Class
  | 0, _ => []
  | n + 1, c =>
    match cs.cells[c]? with
    | some k =>
      match k.superclass with
      | some s => k :: lineageWithin cs n s
      | none => [k]
    | none => []

/-- The class `c` and the classes above it, nearest first. Indices go down along it, so that it has
at most `c + 1` classes. -/
def lineage (cs : Classes) (c : Nat) : List Class := cs.lineageWithin (c + 1) c

/-- The nearest method `name` of the lineage. -/
def method? (cs : Classes) (c : Nat) (name : String) : Option Closure :=
  (cs.lineage c).findSome? (·.methods.get? name)

/-- The nearest static member `name` of the lineage. -/
def static? (cs : Classes) (c : Nat) (name : String) : Option Value :=
  (cs.lineage c).findSome? (·.ownStatic? name)

/-- The number of arguments that making an instance takes: that of the nearest `init`. -/
def arity (cs : Classes) (c : Nat) : Nat :=
  match cs.method? c initName with
  | some f => f.arity
  | none => 0

/-- Sets a static field of the class `c` itself. -/
def setStatic (cs : Classes) (c : Nat) (name : String) (v : Value) : Classes :=
  ⟨cs.cells.modify c fun k => { k with statics := k.statics.insert name v }⟩

end Classes

end Treewalk
