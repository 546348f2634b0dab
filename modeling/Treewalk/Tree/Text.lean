import Treewalk.Number.Shortest
import Treewalk.Tree.Basic

/-!
# Trees as text

`Stmt.text` writes a tree in one line: each node in parentheses, its name first, then its parts. A
token is its characters and its place. What is written for a use of a name is left open, so that the
same text can show what is known of it.
-/

namespace Treewalk

/-- A string between quotes; quotes, backslashes and line ends are escaped. -/
def quoted (s : String) : String :=
  let escape : Char → List Char := fun
    | '"' => ['\\', '"']
    | '\\' => ['\\', '\\']
    | '\n' => ['\\', 'n']
    | c => [c]
  String.ofList ('"' :: s.toList.flatMap escape ++ ['"'])

/-- A node with its parts. -/
def node (name : String) (parts : List String) : String :=
  "(" ++ " ".intercalate (name :: parts) ++ ")"

/-- What stands for a part that is not there. -/
def absent : String := "-"

namespace Token

/-- A token: its characters, quoted if it is a string, and its place. -/
def text (t : Token) : String :=
  let spelled := match t.kind with
    | .string _ => quoted t.lexeme
    | _ => t.lexeme
  spelled ++ "@" ++ t.pos.text

/-- A list of tokens. -/
def listText (ts : List Token) : String := "[" ++ " ".intercalate (ts.map text) ++ "]"

/-- A token that may not be there. -/
def optionText : Option Token → String
  | some t => t.text
  | none => absent

end Token

/-- What is written for a use of a name when nothing is known of it. -/
def Ref.text (ref : Ref) : String := ref.name.text

/-- A literal as text. -/
def Literal.text : Literal → String
  | .nil => "nil"
  | .bool true => "true"
  | .bool false => "false"
  | .num x => numberText x
  | .string s => quoted s

section

variable (show_ : Ref → String)

mutual

/-- An expression as text. -/
def Expr.text : Expr → String
  | .literal v => v.text
  | .grouping e => node "group" [Expr.text e]
  | .unary op e => node "unary" [op.text, Expr.text e]
  | .binary l op r => node "binary" [op.text, Expr.text l, Expr.text r]
  | .logical l op r => node "logical" [op.text, Expr.text l, Expr.text r]
  | .ternary c y n => node "ternary" [Expr.text c, Expr.text y, Expr.text n]
  | .comma es => node "comma" (Expr.texts es)
  | .variable ref => node "var" [show_ ref]
  | .assign ref e => node "assign" [show_ ref, Expr.text e]
  | .compound ref op e => node "compound" [show_ ref, op.text, Expr.text e]
  | .call callee paren args => node "call" (paren.text :: Expr.text callee :: Expr.texts args)
  | .get e name => node "get" [name.text, Expr.text e]
  | .set e name op v => node "set" [name.text, Token.optionText op, Expr.text e, Expr.text v]
  | .this ref => node "this" [show_ ref]
  | .super ref method => node "super" [show_ ref, method.text]

/-- Expressions as texts. -/
def Expr.texts : List Expr → List String
  | [] => []
  | e :: es => Expr.text e :: Expr.texts es

end

/-- An expression that may not be there. -/
def Expr.optionText : Option Expr → String
  | some e => e.text show_
  | none => absent

/-- A field under a heading. -/
def FieldDecl.text (heading : String) (f : FieldDecl) : String :=
  node heading [f.name.text, Token.optionText f.typeName, Expr.optionText show_ f.init]

mutual

/-- A statement as text. -/
def Stmt.text : Stmt → String
  | .expr e => node "expr" [e.text show_]
  | .print keyword e => node "print" [keyword.text, e.text show_]
  | .var name type init =>
    node "decl" [name.text, Token.optionText type, Expr.optionText show_ init]
  | .block body => node "block" (Stmt.texts body)
  | .decls body => node "decls" (Stmt.texts body)
  | .branch c y none => node "if" [c.text show_, Stmt.text y]
  | .branch c y (some n) => node "if" [c.text show_, Stmt.text y, Stmt.text n]
  | .loop c step body => node "while" [c.text show_, Expr.optionText show_ step, Stmt.text body]
  | .function decl => FunctionDecl.text "fun" decl
  | .ret keyword value => node "return" [keyword.text, Expr.optionText show_ value]
  | .brk keyword => "(break@" ++ keyword.pos.text ++ ")"
  | .cont keyword => "(continue@" ++ keyword.pos.text ++ ")"
  | .cls decl => ClassDecl.text decl
  | .require decl =>
    node "import"
      [decl.keyword.text, Token.listText decl.names, decl.path.text, quoted decl.module]
  | .expose keyword names => node "expose" [keyword.text, Token.listText names]

/-- Statements as texts. -/
def Stmt.texts : List Stmt → List String
  | [] => []
  | s :: ss => Stmt.text s :: Stmt.texts ss

/-- A function under a heading. -/
def FunctionDecl.text (heading : String) : FunctionDecl → String
  | ⟨name, params, body⟩ => node heading (name.text :: Token.listText params :: Stmt.texts body)

/-- Functions under a heading. -/
def FunctionDecl.texts (heading : String) : List FunctionDecl → List String
  | [] => []
  | f :: fs => FunctionDecl.text heading f :: FunctionDecl.texts heading fs

/-- A class: what belongs to the class itself first, then what belongs to its instances. -/
def ClassDecl.text : ClassDecl → String
  | ⟨name, superclass, methods, fields, staticMethods, staticFields⟩ =>
    let inherited := match superclass with
      | some ref => show_ ref
      | none => absent
    let ownFields := match fields with
      | some f => [FunctionDecl.text "fields" f]
      | none => []
    node "class" (name.text :: inherited :: staticFields.map (FieldDecl.text show_ "static-field")
      ++ FunctionDecl.texts "static-method" staticMethods
      ++ FunctionDecl.texts "method" methods ++ ownFields)

end

end

end Treewalk
