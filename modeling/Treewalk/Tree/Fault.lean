import Treewalk.Diagnostic

/-!
# What can be wrong with a sequence of tokens

Each way in which reading can fail is a constructor of `ReadingFault`; `ReadingFault.message` words
them all.
-/

namespace Treewalk

/-- A function is declared by itself or as a method of a class. -/
inductive FunctionRole where
  | function
  | method
deriving DecidableEq, Repr

/-- How messages call it. -/
def FunctionRole.noun : FunctionRole → String
  | .function => "function"
  | .method => "method"

/-- What a semicolon ends. -/
inductive Ending where
  | variableDeclaration
  | fieldDeclaration
  | requirement
  | exposedNames
  | printed
  | returned
  | expression
  | breaking
  | continuing
  | loopCondition
deriving DecidableEq, Repr

/-- How messages call it. -/
def Ending.noun : Ending → String
  | .variableDeclaration => "variable declaration"
  | .fieldDeclaration => "field declaration"
  | .requirement => "import"
  | .exposedNames => "exposed names"
  | .printed => "value"
  | .returned => "return value"
  | .expression => "expression"
  | .breaking => "'break'"
  | .continuing => "'continue'"
  | .loopCondition => "loop condition"

/-- What a closing parenthesis ends. -/
inductive Enclosed where
  | parameters
  | branchCondition
  | loopCondition
  | loopClauses
  | arguments
  | expression
deriving DecidableEq, Repr

/-- How messages call it. -/
def Enclosed.noun : Enclosed → String
  | .parameters => "parameters"
  | .branchCondition => "if condition"
  | .loopCondition => "condition"
  | .loopClauses => "for clauses"
  | .arguments => "arguments"
  | .expression => "expression"

/-- What an opening parenthesis follows. -/
inductive Opener where
  | functionName (role : FunctionRole)
  | branch
  | loop
  | countedLoop
deriving DecidableEq, Repr

/-- How messages call it. -/
def Opener.noun : Opener → String
  | .functionName role => role.noun ++ " name"
  | .branch => "'if'"
  | .loop => "'while'"
  | .countedLoop => "'for'"

/-- What a name names where one is missing. -/
inductive Named where
  | variable
  | function (role : FunctionRole)
  | parameter
  | cls
  | superclass
  | member
  | superMethod
deriving DecidableEq, Repr

/-- How messages call it. -/
def Named.noun : Named → String
  | .variable => "variable"
  | .function role => role.noun
  | .parameter => "parameter"
  | .cls => "class"
  | .superclass => "superclass"
  | .member => "member"
  | .superMethod => "superclass method"

/-- What can be wrong with a sequence of tokens. -/
inductive ReadingFault where
  | noName (of : Named)
  | noTypeName
  | noImportedName
  | noExposedName
  | noPropertyName
  | noSemicolon (after : Ending)
  | noOpenParen (after : Opener)
  | noCloseParen (after : Enclosed)
  | noBodyBrace (role : FunctionRole)
  | noClassBrace
  | noClassEnd
  | noBlockEnd
  | noImportBrace
  | noImportEnd
  | noFrom
  | noModulePath
  | noColon
  | noSuperDot
  | noExpression
  | tooManyParameters
  | tooManyArguments
  | ownSuperclass
  | badTarget
  | noSuperCall
deriving DecidableEq, Repr

/-- The wording of a fault. -/
def ReadingFault.message : ReadingFault → String
  | .noName of => "Expect " ++ of.noun ++ " name."
  | .noTypeName => "Expect type name after ':'."
  | .noImportedName => "Expect imported name."
  | .noExposedName => "Expect name to expose."
  | .noPropertyName => "Expect property name after '.'."
  | .noSemicolon after => "Expect ';' after " ++ after.noun ++ "."
  | .noOpenParen after => "Expect '(' after " ++ after.noun ++ "."
  | .noCloseParen after => "Expect ')' after " ++ after.noun ++ "."
  | .noBodyBrace role => "Expect '\x7b' before " ++ role.noun ++ " body."
  | .noClassBrace => "Expect '\x7b' before class body."
  | .noClassEnd => "Expect '\x7d' after class body."
  | .noBlockEnd => "Expect '\x7d' after block."
  | .noImportBrace => "Expect '\x7b' after 'import'."
  | .noImportEnd => "Expect '\x7d' after imported names."
  | .noFrom => "Expect 'from' after imported names."
  | .noModulePath => "Expect module path string."
  | .noColon => "Expect ':' after then branch of conditional expression."
  | .noSuperDot => "Expect '.' after 'super'."
  | .noExpression => "Expect expression."
  | .tooManyParameters => "Can't have more than 255 parameters."
  | .tooManyArguments => "Can't have more than 255 arguments."
  | .ownSuperclass => "A class can't inherit from itself."
  | .badTarget => "Invalid assignment target."
  | .noSuperCall => "Expect superclass constructor call as first statement in 'init'."

end Treewalk
