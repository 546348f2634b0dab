import Treewalk.Tree.Reader

/-!
# Reading by an index

Reading once more, on a row of tokens that stays as it is: a cursor holds the index of the token
ahead, and a token is seen only by a look at that index or at the one before it. Each look is marked
down, and so is each part of the grammar that is entered, with the parts that it is entered from.

The parts of the grammar are written as they are for `Read`; the names are the same.
-/

namespace Treewalk

/-- The parts of the grammar. -/
inductive Part where
  | declarations | block | declaration
  | statement | branch | countedLoop | functionRest | classDeclaration | classMembers
  | varDeclaration | importDeclaration | exposeDeclaration
  | expressionStatement | varList | names | parameters
  | expression | parts | arguments
  | assignment
  | ternary
  | operators (l : Level) | operatorsAfter (l : Level)
  | unary
  | primary | suffixes
deriving DecidableEq, Repr

/-- The place of a level of operators among the others, loosest first. -/
def Level.rank : Level → Nat
  | .or => 0
  | .and => 1
  | .equality => 2
  | .comparison => 3
  | .term => 4
  | .factor => 5

/-- How tightly a part binds: declarations before statements, statements before expressions, and
these by their operators. -/
def Part.rank : Part → Nat
  | .declarations | .block => 0
  | .declaration => 1
  | .statement | .branch | .countedLoop | .functionRest | .classDeclaration | .classMembers
  | .varDeclaration | .importDeclaration | .exposeDeclaration => 2
  | .expressionStatement | .varList | .names | .parameters => 3
  | .expression | .parts | .arguments => 4
  | .assignment => 5
  | .ternary => 6
  | .operators l | .operatorsAfter l => 7 + l.rank
  | .unary => 13
  | .primary | .suffixes => 14

/-- What reading does at an index. -/
inductive Mark where
  /-- Looks at the token there, or at the end. -/
  | ahead (index : Nat)
  /-- Looks at the token before. -/
  | back (index : Nat)
  /-- Enters a part, inside of those that were entered before it and are not left. -/
  | enter (part : Part) (index : Nat) (within : List (Part × Nat))
deriving DecidableEq, Repr

/-- Where reading stands in a row of tokens. -/
structure Cursor where
  tokens : List Token
  stop : Pos
  /-- The index of the token ahead. That of the end is the number of tokens. -/
  index : Nat
  nextId : Nat
  faults : List (Site × ReadingFault)
  /-- The parts that are entered and not left, each with its index, innermost first. -/
  within : List (Part × Nat)
  /-- What was done, last first. -/
  marks : List Mark

namespace Cursor

/-- Before the first token. -/
def start (tokens : List Token) (stop : Pos) (firstId : Nat) : Cursor :=
  ⟨tokens, stop, 0, firstId, [], [], []⟩

/-- What is left to read. -/
def reader (c : Cursor) : Reader := ⟨c.tokens.drop c.index, c.stop, c.nextId, c.faults⟩

/-- Marks down what is done. -/
def mark (m : Mark) (c : Cursor) : Cursor := { c with marks := m :: c.marks }

end Cursor

/-- A part of the grammar, read by an index. -/
abbrev Walk := EStateM Unread Cursor

namespace Walk

/-! ### Single steps -/

/-- Looks at the token ahead. There is none at the end. -/
def look : Walk (Option Token) := fun c => .ok c.tokens[c.index]? (c.mark (.ahead c.index))

/-- Looks at the token before. There is one except at the index zero. -/
def back : Walk Token := fun c =>
  .ok (c.tokens.getD (c.index - 1) default) (c.mark (.back c.index))

/-- Counts the token ahead as passed. -/
def pass : Walk Unit := fun c => .ok () { c with index := c.index + 1 }

/-- Passes the token ahead, except at the end, and looks back at it. -/
def advance : Walk Token := do
  if (← look).isSome then pass
  back

/-- Enters a part and leaves it, also if it has a fault. -/
def enter {α : Type} (part : Part) (p : Walk α) : Walk α := fun c =>
  match p { c.mark (.enter part c.index c.within) with within := (part, c.index) :: c.within } with
  | .ok x left => .ok x { left with within := c.within }
  | .error e left => .error e { left with within := c.within }

/-- A step that does not look at the tokens: none are there for it. -/
def unseeing {α : Type} (p : Read α) : Walk α := fun c =>
  match p ⟨[], c.stop, c.nextId, c.faults⟩ with
  | .ok x r => .ok x { c with stop := r.stop, nextId := r.nextId, faults := r.faults }
  | .error e r => .error e { c with stop := r.stop, nextId := r.nextId, faults := r.faults }

@[inherit_doc Read.report]
def report (s : Site) (f : ReadingFault) : Walk Unit := unseeing (Read.report s f)

@[inherit_doc Read.refer]
def refer (name : Token) : Walk Ref := unseeing (Read.refer name)

@[inherit_doc Read.skip]
def skip : Walk Unit := do
  let _ ← advance
  return ()

@[inherit_doc Read.site]
def site : Walk Site := do
  match ← look with
  | some t => return .token t
  | none => return .stop (← get).stop

@[inherit_doc Read.ahead]
def ahead (p : Token → Bool) : Walk Bool := return (← look).any p

@[inherit_doc Read.atEnd]
def atEnd : Walk Bool := return (← look).isNone

@[inherit_doc Read.accept]
def accept (p : Token → Bool) : Walk (Option Token) := do
  if ← ahead p then
    pass
    return some (← back)
  else return none

@[inherit_doc Read.acceptSymbol]
def acceptSymbol (s : Symbol) : Walk Bool := return (← accept (·.isSymbol s)).isSome

@[inherit_doc Read.acceptKeyword]
def acceptKeyword (k : Keyword) : Walk Bool := return (← accept (·.isKeyword k)).isSome

@[inherit_doc Read.fail]
def fail {α : Type} (f : ReadingFault) : Walk α := do
  report (← site) f
  throw .faulty

@[inherit_doc Read.expect]
def expect (p : Token → Bool) (f : ReadingFault) : Walk Token := do
  match ← accept p with
  | some t => return t
  | none => fail f

@[inherit_doc Read.expectSymbol]
def expectSymbol (s : Symbol) (f : ReadingFault) : Walk Token := expect (·.isSymbol s) f

@[inherit_doc Read.expectName]
def expectName (f : ReadingFault) : Walk Token := expect Token.isIdentifier f

/-! ### Recovery -/

/-- Passes tokens up to the next start of a declaration, at most `n`. -/
def passSpoiled : Nat → Walk Unit
  | 0 => return ()
  | n + 1 => do
    match ← look with
    | none => return ()
    | some t =>
      let last ← back
      if last.isSymbol .semicolon || Reader.resumesAt t then return ()
      else
        let _ ← advance
        passSpoiled n

@[inherit_doc Reader.recover]
def recover : Walk Unit := do
  let _ ← advance
  let c ← get
  passSpoiled (c.tokens.length - c.index)

@[inherit_doc Read.recovering]
def recovering (p : Walk Stmt) : Walk (Option Stmt) := fun c =>
  match p c with
  | .ok s c => .ok (some s) c
  | .error .faulty c => (recover >>= fun _ => pure none : Walk (Option Stmt)) c
  | .error .exhausted c => .error .exhausted c

/-! ### Expressions -/

mutual

@[inherit_doc Read.expression]
def expression : Nat → Walk Expr
  | 0 => throw .exhausted
  | n + 1 => enter .expression do
    let first ← assignment n
    if ← ahead (·.isSymbol .comma) then return .comma (← parts n [first]) else return first

@[inherit_doc Read.parts]
def parts : Nat → List Expr → Walk (List Expr)
  | 0, _ => throw .exhausted
  | n + 1, acc => enter .parts do
    if ← acceptSymbol .comma then
      let part ← assignment n
      parts n (part :: acc)
    else return acc.reverse

@[inherit_doc Read.assignment]
def assignment : Nat → Walk Expr
  | 0 => throw .exhausted
  | n + 1 => enter .assignment do
    let target ← ternary n
    match ← accept Read.isAssignOp with
    | some op =>
      let value ← assignment n
      unseeing (Read.assigned target op value)
    | none => return target

@[inherit_doc Read.ternary]
def ternary : Nat → Walk Expr
  | 0 => throw .exhausted
  | n + 1 => enter .ternary do
    let cond ← operators n .or
    if ← acceptSymbol .question then
      let yes ← expression n
      let _ ← expectSymbol .colon .noColon
      let no ← ternary n
      return .ternary cond yes no
    else return cond

@[inherit_doc Read.operators]
def operators : Nat → Level → Walk Expr
  | 0, _ => throw .exhausted
  | n + 1, l => enter (.operators l) do
    let first ← match l.tighter? with
      | some l => operators n l
      | none => unary n
    operatorsAfter n l first

@[inherit_doc Read.operatorsAfter]
def operatorsAfter : Nat → Level → Expr → Walk Expr
  | 0, _, _ => throw .exhausted
  | n + 1, l, left => enter (.operatorsAfter l) do
    match ← accept l.takes with
    | some op =>
      let right ← match l.tighter? with
        | some l => operators n l
        | none => unary n
      operatorsAfter n l (l.node left op right)
    | none => return left

@[inherit_doc Read.unary]
def unary : Nat → Walk Expr
  | 0 => throw .exhausted
  | n + 1 => enter .unary do
    match ← accept Read.isUnaryOp with
    | some op =>
      let operand ← unary n
      return .unary op operand
    | none =>
      let e ← primary n
      suffixes n e

@[inherit_doc Read.suffixes]
def suffixes : Nat → Expr → Walk Expr
  | 0, _ => throw .exhausted
  | n + 1, e => enter .suffixes do
    if ← acceptSymbol .leftParen then
      let args ← if ← ahead (·.isSymbol .rightParen) then pure [] else arguments n 0 []
      let paren ← expectSymbol .rightParen (.noCloseParen .arguments)
      suffixes n (.call e paren args)
    else if ← acceptSymbol .dot then
      let name ← expectName .noPropertyName
      suffixes n (.get e name)
    else return e

@[inherit_doc Read.arguments]
def arguments : Nat → (count : Nat) → List Expr → Walk (List Expr)
  | 0, _, _ => throw .exhausted
  | n + 1, count, acc => enter .arguments do
    if Read.maxArguments ≤ count then report (← site) .tooManyArguments
    let arg ← assignment n
    if ← acceptSymbol .comma then arguments n (count + 1) (arg :: acc)
    else return (arg :: acc).reverse

@[inherit_doc Read.primary]
def primary : Nat → Walk Expr
  | 0 => throw .exhausted
  | n + 1 => enter .primary do
    match ← site with
    | .stop _ => fail .noExpression
    | .token t =>
      match t.kind with
      | .keyword .true => skip; return .literal (.bool true)
      | .keyword .false => skip; return .literal (.bool false)
      | .keyword .nil => skip; return .literal .nil
      | .number x => skip; return .literal (.num x)
      | .string s => skip; return .literal (.string s)
      | .keyword .this => skip; return .this (← refer t)
      | .identifier _ => skip; return .variable (← refer t)
      | .keyword .super =>
        skip
        let _ ← expectSymbol .dot .noSuperDot
        let method ← expectName (.noName .superMethod)
        return .super (← refer t) method
      | .symbol .leftParen =>
        skip
        let inner ← expression n
        let _ ← expectSymbol .rightParen (.noCloseParen .expression)
        return .grouping inner
      | _ => fail .noExpression

end

/-! ### Declarations without bodies -/

@[inherit_doc Read.typeName]
def typeName : Walk (Option Token) := do
  if ← acceptSymbol .colon then return some (← expectName .noTypeName) else return none

@[inherit_doc Read.names]
def names (f : ReadingFault) : Nat → List Token → Walk (List Token)
  | 0, _ => throw .exhausted
  | n + 1, acc => enter .names do
    let name ← expectName f
    if ← acceptSymbol .comma then names f n (name :: acc) else return (name :: acc).reverse

@[inherit_doc Read.parameters]
def parameters : Nat → (count : Nat) → List Token → Walk (List Token)
  | 0, _, _ => throw .exhausted
  | n + 1, count, acc => enter .parameters do
    if Read.maxArguments ≤ count then report (← site) .tooManyParameters
    let name ← expectName (.noName .parameter)
    if ← acceptSymbol .comma then parameters n (count + 1) (name :: acc)
    else return (name :: acc).reverse

@[inherit_doc Read.varList]
def varList : Nat → List Stmt → Walk (List Stmt)
  | 0, _ => throw .exhausted
  | n + 1, acc => enter .varList do
    let name ← expectName (.noName .variable)
    let type ← typeName
    let init ← if ← acceptSymbol .equal then some <$> assignment n else pure none
    let decl := Stmt.var name type init
    if ← acceptSymbol .comma then varList n (decl :: acc) else return (decl :: acc).reverse

@[inherit_doc Read.varDeclaration]
def varDeclaration (n : Nat) : Walk Stmt := enter .varDeclaration do
  let decls ← varList n []
  let _ ← expectSymbol .semicolon (.noSemicolon .variableDeclaration)
  return match decls with
    | [decl] => decl
    | decls => .decls decls

@[inherit_doc Read.importDeclaration]
def importDeclaration (n : Nat) (keyword : Token) : Walk Stmt := enter .importDeclaration do
  let _ ← expectSymbol .leftBrace .noImportBrace
  let names ← names .noImportedName n []
  let _ ← expectSymbol .rightBrace .noImportEnd
  let _ ← expect (·.kind == .identifier "from") .noFrom
  match ← site with
  | .token path =>
    match path.kind with
    | .string module =>
      skip
      let _ ← expectSymbol .semicolon (.noSemicolon .requirement)
      return .require { keyword, names, path, module }
    | _ => fail .noModulePath
  | .stop _ => fail .noModulePath

@[inherit_doc Read.exposeDeclaration]
def exposeDeclaration (n : Nat) (keyword : Token) : Walk Stmt := enter .exposeDeclaration do
  let names ← names .noExposedName n []
  let _ ← expectSymbol .semicolon (.noSemicolon .exposedNames)
  return .expose keyword names

@[inherit_doc Read.expressionStatement]
def expressionStatement (n : Nat) : Walk Stmt := enter .expressionStatement do
  let e ← expression n
  let _ ← expectSymbol .semicolon (.noSemicolon .expression)
  return .expr e

@[inherit_doc Read.superclass]
def superclass (name : Token) : Walk (Option Ref) := do
  if ← acceptSymbol .less then
    let sup ← expectName (.noName .superclass)
    if sup.lexeme == name.lexeme then report (.token sup) .ownSuperclass
    return some (← refer sup)
  else return none

/-! ### Statements -/

mutual

@[inherit_doc Read.declaration]
def declaration : Nat → Walk (Option Stmt)
  | 0 => throw .exhausted
  | n + 1 => enter .declaration <| recovering do
    match ← site with
    | .stop _ => statement n
    | .token t =>
      match t.kind with
      | .keyword .var => skip; varDeclaration n
      | .keyword .fun =>
        skip
        let name ← expectName (.noName (.function .function))
        return .function (← functionRest n .function name)
      | .keyword .cls => skip; classDeclaration n
      | .keyword .imports => skip; importDeclaration n t
      | .keyword .expose => skip; exposeDeclaration n t
      | _ => statement n

@[inherit_doc Read.block]
def block : Nat → List Stmt → Walk (List Stmt)
  | 0, _ => throw .exhausted
  | n + 1, acc => enter .block do
    if (← atEnd) || (← ahead (·.isSymbol .rightBrace)) then
      let _ ← expectSymbol .rightBrace .noBlockEnd
      return acc.reverse
    else
      match ← declaration n with
      | some s => block n (s :: acc)
      | none => block n acc

@[inherit_doc Read.functionRest]
def functionRest : Nat → FunctionRole → Token → Walk FunctionDecl
  | 0, _, _ => throw .exhausted
  | n + 1, role, name => enter .functionRest do
    let _ ← expectSymbol .leftParen (.noOpenParen (.functionName role))
    let params ← if ← ahead (·.isSymbol .rightParen) then pure [] else parameters n 0 []
    let _ ← expectSymbol .rightParen (.noCloseParen .parameters)
    let _ ← expectSymbol .leftBrace (.noBodyBrace role)
    let body ← block n []
    return { name, params, body }

@[inherit_doc Read.classDeclaration]
def classDeclaration : Nat → Walk Stmt
  | 0 => throw .exhausted
  | n + 1 => enter .classDeclaration do
    let name ← expectName (.noName .cls)
    let sup ← superclass name
    let _ ← expectSymbol .leftBrace .noClassBrace
    let members ← classMembers n {}
    let _ ← expectSymbol .rightBrace .noClassEnd
    unseeing (Read.classOf name sup members)

@[inherit_doc Read.classMembers]
def classMembers : Nat → Members → Walk Members
  | 0, _ => throw .exhausted
  | n + 1, acc => enter .classMembers do
    if (← atEnd) || (← ahead (·.isSymbol .rightBrace)) then return acc
    else
      let static ← acceptKeyword .static
      let name ← expectName (.noName .member)
      if ← ahead (·.isSymbol .leftParen) then
        let method ← functionRest n .method name
        classMembers n (acc.addMethod static method)
      else
        let type ← typeName
        let init ← if ← acceptSymbol .equal then some <$> expression n else pure none
        let _ ← expectSymbol .semicolon (.noSemicolon .fieldDeclaration)
        classMembers n (acc.addField static ⟨name, type, init⟩)

@[inherit_doc Read.statement]
def statement : Nat → Walk Stmt
  | 0 => throw .exhausted
  | n + 1 => enter .statement do
    match ← site with
    | .stop _ => expressionStatement n
    | .token t =>
      match t.kind with
      | .keyword .print =>
        skip
        let e ← expression n
        let _ ← expectSymbol .semicolon (.noSemicolon .printed)
        return .print t e
      | .keyword .if => skip; branch n
      | .keyword .while =>
        skip
        let _ ← expectSymbol .leftParen (.noOpenParen .loop)
        let cond ← expression n
        let _ ← expectSymbol .rightParen (.noCloseParen .loopCondition)
        let body ← statement n
        return .loop cond none body
      | .keyword .for => skip; countedLoop n
      | .keyword .return =>
        skip
        let value ←
          if ← ahead (·.isSymbol .semicolon) then pure none else some <$> expression n
        let _ ← expectSymbol .semicolon (.noSemicolon .returned)
        return .ret t value
      | .keyword .break =>
        skip
        let _ ← expectSymbol .semicolon (.noSemicolon .breaking)
        return .brk t
      | .keyword .continue =>
        skip
        let _ ← expectSymbol .semicolon (.noSemicolon .continuing)
        return .cont t
      | .symbol .leftBrace =>
        skip
        return .block (← block n [])
      | _ => expressionStatement n

@[inherit_doc Read.branch]
def branch : Nat → Walk Stmt
  | 0 => throw .exhausted
  | n + 1 => enter .branch do
    let _ ← expectSymbol .leftParen (.noOpenParen .branch)
    let cond ← expression n
    let _ ← expectSymbol .rightParen (.noCloseParen .branchCondition)
    let yes ← statement n
    if ← acceptKeyword .else then
      let no ← statement n
      return .branch cond yes (some no)
    else return .branch cond yes none

@[inherit_doc Read.countedLoop]
def countedLoop : Nat → Walk Stmt
  | 0 => throw .exhausted
  | n + 1 => enter .countedLoop do
    let _ ← expectSymbol .leftParen (.noOpenParen .countedLoop)
    let first ←
      if ← acceptKeyword .var then (fun s => [s]) <$> varDeclaration n
      else do
        if ← acceptSymbol .semicolon then pure [] else (fun s => [s]) <$> expressionStatement n
    let cond ←
      if ← ahead (·.isSymbol .semicolon) then pure (Expr.literal (.bool true)) else expression n
    let _ ← expectSymbol .semicolon (.noSemicolon .loopCondition)
    let step ← if ← ahead (·.isSymbol .rightParen) then pure none else some <$> expression n
    let _ ← expectSymbol .rightParen (.noCloseParen .loopClauses)
    let body ← statement n
    return .block (first ++ [.loop cond step body])

end

@[inherit_doc Read.declarations]
def declarations : Nat → List Stmt → Walk (List Stmt)
  | 0, _ => throw .exhausted
  | n + 1, acc => enter .declarations do
    if ← atEnd then return acc.reverse
    else
      match ← declaration n with
      | some s => declarations n (s :: acc)
      | none => declarations n acc

end Walk

end Treewalk
