import Treewalk.Class
import Treewalk.Fault
import Treewalk.Number.Shortest
import Treewalk.Scope

/-!
# The store of a session

All scopes, classes, instances and functions of the host, shared by all files of a session.
-/

namespace Treewalk

/-- An instance: its class and its own fields. -/
structure Instance where
  cls : Nat
  fields : Table String Value
deriving Inhabited

/-- A function of the host. -/
inductive Native where
  /-- Reads the clock. -/
  | clock
  /-- Sees its arguments as text and answers text, or fails in words of its own. -/
  | host (name : String) (arity : Nat) (run : List String → Except String String)

namespace Native

/-- The name of a function of the host. -/
def name : Native → String
  | .clock => "clock"
  | .host name _ _ => name

/-- The number of arguments a function of the host takes. -/
def arity : Native → Nat
  | .clock => 0
  | .host _ arity _ => arity

end Native

/-- The store. -/
structure Heap where
  scopes : Scopes := {}
  classes : Classes := {}
  instances : Array Instance := #[]
  natives : Array Native := #[]
  /-- The identity of the next closure or initializer. -/
  nextId : Nat := 0

namespace Heap

instance : Inhabited Heap := ⟨{}⟩

/-- The name of the class `c`. -/
def className (h : Heap) (c : Nat) : String :=
  match h.classes.cells[c]? with
  | some k => k.name
  | none => ""

/-- How a callable shows. -/
def callableText (h : Heap) : Callable → String
  | .native slot =>
    let name := match h.natives[slot]? with
      | some f => f.name
      | none => ""
    "<native fn " ++ name ++ ">"
  | .function f => "<fn " ++ f.decl.name.lexeme ++ ">"
  | .initializer .. => "<fn " ++ initName ++ ">"
  | .cls c => h.className c

/-- How a value shows. -/
def text (h : Heap) : Value → String
  | .nil => "nil"
  | .bool true => "true"
  | .bool false => "false"
  | .num x => numberText x
  | .string s => s
  | .callable c => h.callableText c
  | .inst i =>
    let name := match h.instances[i]? with
      | some inst => h.className inst.cls
      | none => ""
    name ++ " instance"

/-- The number of arguments that a callable takes. -/
def arity (h : Heap) : Callable → Nat
  | .native slot =>
    match h.natives[slot]? with
    | some f => f.arity
    | none => 0
  | .function f => f.arity
  | .initializer _ c _ => h.classes.arity c
  | .cls c => h.classes.arity c

/-- What a binary operator makes of two values. With a string on either side `+` joins texts. -/
def binary (h : Heap) : Symbol → Value → Value → Except Cause Value
  | .plus, .num x, .num y => .ok (.num (x + y))
  | .plus, .string s, v => .ok (.string (s ++ h.text v))
  | .plus, v, .string s => .ok (.string (h.text v ++ s))
  | .plus, _, _ => .error .notAddable
  | .minus, .num x, .num y => .ok (.num (x - y))
  | .star, .num x, .num y => .ok (.num (x * y))
  | .slash, .num x, .num y => if y == 0 then .error .divisionByZero else .ok (.num (x / y))
  | .percent, .num x, .num y =>
    if y == 0 then .error .divisionByZero else .ok (.num (Number.remainder x y))
  | .less, .num x, .num y => .ok (.bool (x < y))
  | .lessEqual, .num x, .num y => .ok (.bool (x ≤ y))
  | .greaterEqual, .num x, .num y => .ok (.bool (x ≥ y))
  | .greater, .num x, .num y => .ok (.bool (x > y))
  | .equalEqual, v, w => .ok (.bool (v.equal w))
  | .bangEqual, v, w => .ok (.bool (!v.equal w))
  | _, _, _ => .error .notNumbers

/-- What the operator `op` makes of two values. -/
def operate (h : Heap) (op : Token) (v w : Value) : Except Cause Value :=
  match op.symbol? with
  | some s => h.binary s v w
  | none => .error .notNumbers

/-- What the compound assignment operator `op` makes of the old value and the operand. -/
def combine (h : Heap) (op : Token) (v w : Value) : Except Cause Value :=
  match op.symbol?.bind Symbol.compoundBase? with
  | some s => h.binary s v w
  | none => .error .unknownOperator

/-- What a unary operator makes of a value. -/
def negate (op : Token) (v : Value) : Except Cause Value :=
  match op.symbol?, v with
  | some .bang, v => .ok (.bool (!v.truthy))
  | some .minus, .num x => .ok (.num (-x))
  | _, _ => .error .notNumber

end Heap

end Treewalk
