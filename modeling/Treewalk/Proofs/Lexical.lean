import Treewalk.Tree.Basic

/-!
# Where code stands

`Placed program code σ`: in the tree of a program, `code` stands inside the scopes `σ`, innermost
first. Each scope comes with what opens it and with the names that it declares before the code, in
the order of the text; the name of a variable whose initializer the code is in counts apart.

Only blocks, calls and classes open scopes. The code outside of all of them stands in none.
-/

namespace Treewalk

/-- What opens a scope. The scope of `this` is told by the method it stands around. -/
inductive Origin where
  | block (body : List Stmt)
  | call (decl : FunctionDecl)
  | this (method : FunctionDecl)
  | super (decl : ClassDecl)

/-- A scope as it is seen from a place inside it. -/
structure Layer where
  origin : Origin
  /-- What is declared before the place. -/
  names : List String := []
  /-- The variable whose own initializer the place is in. -/
  pending : Option String := none

namespace Layer

/-- The scope declares `x` at or before the place. -/
def Declares (l : Layer) (x : String) : Prop := x ∈ l.names ∨ l.pending = some x

instance (l : Layer) (x : String) : Decidable (l.Declares x) :=
  inferInstanceAs (Decidable (_ ∨ _))

/-- Enters a name into the innermost scope. -/
def define (x : String) : List Layer → List Layer
  | [] => []
  | l :: σ => { l with names := x :: l.names } :: σ

/-- Enters names into the innermost scope in turn. -/
def defineAll (xs : List String) (σ : List Layer) : List Layer := xs.foldl (fun σ x => define x σ) σ

/-- Marks the name whose initializer comes next. -/
def await (x : String) : List Layer → List Layer
  | [] => []
  | l :: σ => { l with pending := some x } :: σ

/-- The number of scopes between the innermost scope and the nearest that declares `x`. -/
def distance? (x : String) (σ : List Layer) : Option Nat := σ.findIdx? (·.Declares x)

@[simp] theorem defineAll_nil (σ : List Layer) : defineAll [] σ = σ := rfl

@[simp] theorem defineAll_cons (x : String) (xs : List String) (σ : List Layer) :
    defineAll (x :: xs) σ = defineAll xs (define x σ) := rfl

theorem defineAll_append (xs ys : List String) (σ : List Layer) :
    defineAll (xs ++ ys) σ = defineAll ys (defineAll xs σ) := List.foldl_append ..

theorem defineAll_layer (xs : List String) (l : Layer) (σ : List Layer) :
    defineAll xs (l :: σ) = { l with names := xs.reverse ++ l.names } :: σ := by
  induction xs generalizing l with
  | nil => rfl
  | cons x xs ih =>
    rw [defineAll_cons, define, ih]
    simp

@[simp] theorem defineAll_outside (xs : List String) : defineAll xs [] = [] := by
  induction xs with
  | nil => rfl
  | cons x xs ih => exact ih

end Layer

mutual

/-- The names that a statement declares in the scope it stands in. -/
def Stmt.declared : Stmt → List String
  | .var name _ _ => [name.lexeme]
  | .decls body => Stmt.declaredAll body
  | .branch _ y none => Stmt.declared y
  | .branch _ y (some n) => Stmt.declared y ++ Stmt.declared n
  | .loop _ _ body => Stmt.declared body
  | .function decl => [decl.name.lexeme]
  | .cls decl => [decl.name.lexeme]
  | _ => []

/-- The names that statements declare in turn. -/
def Stmt.declaredAll : List Stmt → List String
  | [] => []
  | s :: ss => Stmt.declared s ++ Stmt.declaredAll ss

end

/-- How a reference is used. A compound assignment first reads and then writes. -/
inductive Use where
  | variable
  | this
  | super
  | superclass
  | assign
  | compoundRead
  | compoundWrite
deriving DecidableEq, Repr

/-- The uses of references that an expression makes itself. -/
def Expr.uses : Expr → List (Use × Ref)
  | .variable ref => [(.variable, ref)]
  | .this ref => [(.this, ref)]
  | .super ref _ => [(.super, ref)]
  | .assign ref _ => [(.assign, ref)]
  | .compound ref _ _ => [(.compoundRead, ref), (.compoundWrite, ref)]
  | _ => []

/-- The parts of an expression. -/
def Expr.parts : Expr → List Expr
  | .grouping e | .unary _ e | .assign _ e | .compound _ _ e | .get e _ => [e]
  | .binary l _ r | .logical l _ r => [l, r]
  | .ternary c y n => [c, y, n]
  | .comma es => es
  | .call callee _ args => callee :: args
  | .set e _ _ v => [e, v]
  | .literal _ | .variable _ | .this _ | .super _ _ => []

/-- The expressions that a statement runs in its own scope before it declares anything. -/
def Stmt.exprs : Stmt → List Expr
  | .expr e | .print _ e | .branch e _ _ | .loop e _ _ | .ret _ (some e) => [e]
  | _ => []

namespace ClassDecl

/-- The scopes around the members of a class: `super` has one of its own. -/
def around (decl : ClassDecl) (σ : List Layer) : List Layer :=
  let σ := Layer.define decl.name.lexeme σ
  if decl.superclass.isSome then { origin := .super decl, names := ["super"] } :: σ else σ

/-- What belongs to the instances of a class. -/
def ofInstances (decl : ClassDecl) : List FunctionDecl := decl.methods ++ decl.fields.toList

end ClassDecl

/-- The scope of `this` around a method. -/
def Layer.this (method : FunctionDecl) : Layer := { origin := .this method, names := ["this"] }

/-- The scope of a call, with its parameters. -/
def Layer.call (decl : FunctionDecl) : Layer :=
  { origin := .call decl, names := decl.params.map (·.lexeme) }

/-- The scope of a block where it starts. -/
def Layer.block (body : List Stmt) : Layer := { origin := .block body }

/-- A piece of code. -/
inductive Code where
  | stmts (ss : List Stmt)
  | stmt (s : Stmt)
  | expr (e : Expr)
  /-- A function or method as a whole. -/
  | function (decl : FunctionDecl)
  /-- The inside of a function or method. -/
  | body (decl : FunctionDecl)
  | use (u : Use) (ref : Ref)

/-- In `program`, the code stands inside these scopes. -/
inductive Placed (program : List Stmt) : Code → List Layer → Prop where
  | program : Placed program (.stmts program) []
  | head {s ss σ} (h : Placed program (.stmts (s :: ss)) σ) : Placed program (.stmt s) σ
  | tail {s ss σ} (h : Placed program (.stmts (s :: ss)) σ) :
      Placed program (.stmts ss) (Layer.defineAll s.declared σ)
  | expr {s e σ} (h : Placed program (.stmt s) σ) (he : e ∈ s.exprs) : Placed program (.expr e) σ
  /-- A variable is declared before its initializer. -/
  | init {name type e σ} (h : Placed program (.stmt (.var name type (some e))) σ) :
      Placed program (.expr e) (Layer.await name.lexeme σ)
  | block {body σ} (h : Placed program (.stmt (.block body)) σ) :
      Placed program (.stmts body) (.block body :: σ)
  | decls {body σ} (h : Placed program (.stmt (.decls body)) σ) : Placed program (.stmts body) σ
  | yes {e y n σ} (h : Placed program (.stmt (.branch e y n)) σ) : Placed program (.stmt y) σ
  | no {e y n σ} (h : Placed program (.stmt (.branch e y (some n))) σ) :
      Placed program (.stmt n) (Layer.defineAll y.declared σ)
  | round {e step body σ} (h : Placed program (.stmt (.loop e step body)) σ) :
      Placed program (.stmt body) σ
  | step {e step body σ} (h : Placed program (.stmt (.loop e (some step) body)) σ) :
      Placed program (.expr step) (Layer.defineAll body.declared σ)
  | function {decl σ} (h : Placed program (.stmt (.function decl)) σ) :
      Placed program (.function decl) (Layer.define decl.name.lexeme σ)
  | superclass {decl ref σ} (h : Placed program (.stmt (.cls decl)) σ)
      (hr : decl.superclass = some ref) :
      Placed program (.use .superclass ref) (Layer.define decl.name.lexeme σ)
  | staticField {decl field e σ} (h : Placed program (.stmt (.cls decl)) σ)
      (hf : field ∈ decl.staticFields) (he : field.init = some e) :
      Placed program (.expr e) (decl.around σ)
  | staticMethod {decl f σ} (h : Placed program (.stmt (.cls decl)) σ)
      (hf : f ∈ decl.staticMethods) : Placed program (.function f) (decl.around σ)
  | method {decl f σ} (h : Placed program (.stmt (.cls decl)) σ) (hf : f ∈ decl.ofInstances) :
      Placed program (.function f) (.this f :: decl.around σ)
  | inside {decl σ} (h : Placed program (.function decl) σ) :
      Placed program (.body decl) (.call decl :: σ)
  | body {decl σ} (h : Placed program (.body decl) σ) : Placed program (.stmts decl.body) σ
  | part {e part σ} (h : Placed program (.expr e) σ) (hp : part ∈ e.parts) :
      Placed program (.expr part) σ
  | use {e u ref σ} (h : Placed program (.expr e) σ) (hu : (u, ref) ∈ e.uses) :
      Placed program (.use u ref) σ

end Treewalk
