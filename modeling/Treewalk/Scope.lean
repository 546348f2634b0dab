import Treewalk.Table
import Treewalk.Value

/-!
# Scopes

A scope holds the variables of a block, a call or a file, and knows the scope around it. `Scopes`
holds all scopes of a session; a scope is named by its index and never goes away, and its parent
always has a smaller index.

Reads and writes either search the chain of scopes (`holder?`) or go a known number of links up it
(`ancestor?`). A write changes what its own scope holds under its own name, and nothing else
(`here?_define`, `parent?_define`).
-/

namespace Treewalk

/-- A scope: its variables and the scope around it. -/
structure Scope where
  vars : Table String Value
  parent : Option Nat
deriving Inhabited

/-- All scopes. -/
structure Scopes where
  cells : Array Scope
deriving Inhabited

namespace Scopes

/-- No scopes. -/
def empty : Scopes := ⟨#[]⟩

instance : EmptyCollection Scopes := ⟨empty⟩

/-- The index of the scope that `addRoot` or `addChild` makes next. -/
def next (ss : Scopes) : Nat := ss.cells.size

/-- Adds a scope with nothing around it. -/
def addRoot (ss : Scopes) : Scopes := ⟨ss.cells.push ⟨{}, none⟩⟩

/-- Adds a scope inside the scope `s`. -/
def addChild (ss : Scopes) (s : Nat) : Scopes := ⟨ss.cells.push ⟨{}, some s⟩⟩

/-- The scope around `s`. -/
def parent? (ss : Scopes) (s : Nat) : Option Nat := ss.cells[s]?.bind Scope.parent

/-- The value of `name` in the scope `s` itself. -/
def here? (ss : Scopes) (s : Nat) (name : String) : Option Value :=
  ss.cells[s]?.bind (·.vars.get? name)

/-- Sets `name` in the scope `s` itself. -/
def define (ss : Scopes) (s : Nat) (name : String) (v : Value) : Scopes :=
  ⟨ss.cells.modify s fun scope => { scope with vars := scope.vars.insert name v }⟩

/-- The scope `d` links up from `s`, if the chain is that long. -/
def ancestor? (ss : Scopes) (s : Nat) : (d : Nat) → Option Nat
  | 0 => some s
  | d + 1 =>
    match ss.parent? s with
    | some p => ancestor? ss p d
    | none => none

/-- The last scope that at most `n` links lead to. -/
def rootWithin (ss : Scopes) : (n s : Nat) → Nat
  | 0, s => s
  | n + 1, s =>
    match ss.parent? s with
    | some p => rootWithin ss n p
    | none => s

/-- The outermost scope of the chain of `s`. Indices go down along a chain, so that it has at most
`s` links. -/
def root (ss : Scopes) (s : Nat) : Nat := ss.rootWithin s s

/-- The nearest scope that has `name`, at most `n` links up. -/
def holderWithin? (ss : Scopes) (name : String) : (n s : Nat) → Option Nat
  | 0, s => if (ss.here? s name).isSome then some s else none
  | n + 1, s =>
    if (ss.here? s name).isSome then some s
    else
      match ss.parent? s with
      | some p => holderWithin? ss name n p
      | none => none

/-- The nearest scope of the chain of `s` that has `name`. -/
def holder? (ss : Scopes) (s : Nat) (name : String) : Option Nat := ss.holderWithin? name s s

/-- The value of `name` in the nearest scope of the chain that has it. -/
def get? (ss : Scopes) (s : Nat) (name : String) : Option Value :=
  (ss.holder? s name).bind (ss.here? · name)

/-- The value of `name` exactly `d` links up. -/
def getAt? (ss : Scopes) (s d : Nat) (name : String) : Option Value :=
  (ss.ancestor? s d).bind (ss.here? · name)

/-- Sets `name` in the nearest scope of the chain that has it, if one has. -/
def assign? (ss : Scopes) (s : Nat) (name : String) (v : Value) : Option Scopes :=
  (ss.holder? s name).map fun t => ss.define t name v

/-- Sets `name` exactly `d` links up, there already or not, if the chain is that long. -/
def assignAt? (ss : Scopes) (s d : Nat) (name : String) (v : Value) : Option Scopes :=
  (ss.ancestor? s d).map fun t => ss.define t name v

section

variable (ss : Scopes) (s t : Nat) (name a : String) (v : Value)

/-- A write changes no parent. -/
@[simp] theorem parent?_define : (ss.define s name v).parent? t = ss.parent? t := by
  simp only [parent?, define, Array.getElem?_modify]
  split
  · next h => subst h; cases ss.cells[s]? <;> rfl
  · rfl

/-- A write changes its own scope under its own name only. -/
theorem here?_define (h : s < ss.next) :
    (ss.define s name v).here? t a = if s = t ∧ name = a then some v else ss.here? t a := by
  simp only [here?, define, Array.getElem?_modify]
  by_cases hst : s = t
  · subst hst
    rw [Array.getElem?_eq_getElem h]
    simp
  · simp [hst]

@[simp] theorem next_define : (ss.define s name v).next = ss.next := by simp [next, define]

@[simp] theorem next_addChild : (ss.addChild s).next = ss.next + 1 := by simp [next, addChild]

/-- A new scope has the parent it is given. -/
theorem parent?_addChild :
    (ss.addChild s).parent? t = if t = ss.next then some s else ss.parent? t := by
  simp only [parent?, addChild, next, Array.getElem?_push]
  by_cases h : t = ss.cells.size <;> simp [h]

/-- A new scope holds nothing. -/
theorem here?_addChild : (ss.addChild s).here? t a = ss.here? t a := by
  simp only [here?, addChild, Array.getElem?_push]
  split
  · next h => subst h; simp [Table.get?, Table.lookup, EmptyCollection.emptyCollection, Table.empty]
  · rfl

end

end Scopes

end Treewalk
