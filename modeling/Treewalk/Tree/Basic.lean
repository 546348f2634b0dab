import Treewalk.Token.Basic

/-!
# Syntax trees

Expressions, statements and declarations, each with the tokens that its reports point at. Some forms
are written and not kept: a `for` loop is a block around a `loop` with a step, a declaration of
several variables is a list of declarations, and the fields of a class are assignments in
its initializer.
-/

namespace Treewalk

/-- A use of a name. -/
structure Ref where
  /-- Tells the use from every other one in a session. There is no greatest `id`, so that this is an
  interpreter with ids of 32 bits only for sessions of fewer than `2 ^ 32` uses. -/
  id : Nat
  name : Token
deriving DecidableEq, Repr, Inhabited

/-- Values that a text can write down. -/
inductive Literal where
  | nil
  | bool (b : Bool)
  | num (x : Float)
  | string (s : String)
deriving DecidableEq, Repr, Inhabited

/-- An expression. -/
inductive Expr where
  | literal (value : Literal)
  | grouping (inner : Expr)
  | unary (op : Token) (operand : Expr)
  | binary (left : Expr) (op : Token) (right : Expr)
  | logical (left : Expr) (op : Token) (right : Expr)
  | ternary (cond yes no : Expr)
  | comma (parts : List Expr)
  | variable (ref : Ref)
  | assign (ref : Ref) (value : Expr)
  /-- `name op= value`; the token is the compound operator. -/
  | compound (ref : Ref) (op : Token) (value : Expr)
  /-- The token is the closing parenthesis. -/
  | call (callee : Expr) (paren : Token) (args : List Expr)
  | get (object : Expr) (name : Token)
  /-- `object.name = value`, or `object.name op= value` with a compound operator. -/
  | set (object : Expr) (name : Token) (op : Option Token) (value : Expr)
  | this (ref : Ref)
  /-- The reference is the keyword `super`. -/
  | super (ref : Ref) (method : Token)
deriving Repr, Inhabited

/-- A member of a class that holds a value. -/
structure FieldDecl where
  name : Token
  typeName : Option Token
  init : Option Expr
deriving Repr, Inhabited

/-- A request for names of another file. -/
structure ImportDecl where
  keyword : Token
  names : List Token
  /-- The string token that names the file, and the string that it writes. -/
  path : Token
  module : String
deriving DecidableEq, Repr, Inhabited

mutual

/-- A statement or declaration. -/
inductive Stmt where
  | expr (e : Expr)
  | print (keyword : Token) (e : Expr)
  | var (name : Token) (typeName : Option Token) (init : Option Expr)
  | block (body : List Stmt)
  /-- A declaration of several variables, all in the scope around it. -/
  | decls (body : List Stmt)
  | branch (cond : Expr) (yes : Stmt) (no : Option Stmt)
  /-- The step runs after each round, also after one cut short. -/
  | loop (cond : Expr) (step : Option Expr) (body : Stmt)
  | function (decl : FunctionDecl)
  | ret (keyword : Token) (value : Option Expr)
  | brk (keyword : Token)
  | cont (keyword : Token)
  | cls (decl : ClassDecl)
  | require (decl : ImportDecl)
  | expose (keyword : Token) (names : List Token)

/-- A function or method. -/
structure FunctionDecl where
  name : Token
  params : List Token
  body : List Stmt

/-- A class. Assignments to its fields stand in its method `init`, or in `fields` where it has no
such method. -/
structure ClassDecl where
  name : Token
  superclass : Option Ref
  methods : List FunctionDecl
  /-- Runs after the inherited initializer. -/
  fields : Option FunctionDecl
  staticMethods : List FunctionDecl
  staticFields : List FieldDecl

end

instance : Inhabited Stmt := ⟨.block []⟩
instance : Inhabited FunctionDecl := ⟨⟨default, [], []⟩⟩
instance : Inhabited ClassDecl := ⟨⟨default, none, [], none, [], []⟩⟩

/-- The name of the method that initializes instances. -/
def initName : String := "init"

/-- Whether a function declares an initializer, given that it is a method of instances. -/
def FunctionDecl.isInit (decl : FunctionDecl) : Bool := decl.name.lexeme == initName

end Treewalk
