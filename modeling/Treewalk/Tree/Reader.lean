import Treewalk.Tree.Basic
import Treewalk.Tree.Fault

/-!
# From tokens to trees

`Program.read` reads a whole sequence of tokens. A declaration that cannot be read is reported,
dropped, and reading goes on at the next token that can start one, so that one pass reports all
that is wrong. Reading never looks further than one token ahead.

Every function of the grammar takes the number of nested steps it may still go; `Program.steps`
gives more than a sequence of tokens can use up.
-/

namespace Treewalk

/-- Where reading stands: the tokens ahead and the place where they end, the id of the next
reference, and the faults found so far, last first. -/
structure Reader where
  rest : List Token
  stop : Pos
  /-- Counts on without a bound. With ids of 32 bits it is the same as long as there are fewer than
  `2 ^ 32` references in a session. -/
  nextId : Nat
  faults : List (Site × ReadingFault)
deriving Repr

/-- Why reading of a part ends without a tree. -/
inductive Unread where
  /-- A fault was reported; the declaration it is in is lost. -/
  | faulty
  /-- The allowed steps are used up. -/
  | exhausted
deriving DecidableEq, Repr

/-- A part of the grammar. -/
abbrev Read := EStateM Unread Reader

namespace Read
variable {α β : Type} {p : Read α} {f : α → Read β} {r r' : Reader}

theorem bind_ok {x : α} (h : p r = .ok x r') : (p >>= f) r = f x r' := by
  show EStateM.bind p f r = f x r'
  simp only [EStateM.bind, h]

theorem bind_error {e : Unread} (h : p r = .error e r') : (p >>= f) r = .error e r' := by
  show EStateM.bind p f r = .error e r'
  simp only [EStateM.bind, h]

end Read

namespace Reader

/-- The token ahead, or the end. -/
def site (r : Reader) : Site :=
  match r.rest with
  | t :: _ => .token t
  | [] => .stop r.stop

/-- Whether a token ends the part of a text that a fault spoils: a new declaration or statement
starts with it. -/
def resumesAt (t : Token) : Bool :=
  match t.kind with
  | .keyword k =>
    (k matches .cls | .fun | .var | .for | .if | .while | .print | .return | .imports | .expose
      | .break | .continue)
  | _ => false

/-- The tokens from the next start of a declaration on, where `last` was dropped just before. -/
def dropSpoiled (last : Token) : List Token → List Token
  | [] => []
  | t :: ts => if last.isSymbol .semicolon || resumesAt t then t :: ts else dropSpoiled t ts

/-- Goes on after a fault. The token ahead is dropped in any case. -/
def recover (r : Reader) : Reader :=
  match r.rest with
  | t :: ts => { r with rest := dropSpoiled t ts }
  | [] => r

end Reader

namespace Read

/-- The token ahead, or the end. -/
def site : Read Site := fun r => .ok r.site r

/-- Drops the token ahead. -/
def skip : Read Unit := fun r => .ok () { r with rest := r.rest.tail }

/-- Whether a token is ahead and is as `p` says. -/
def ahead (p : Token → Bool) : Read Bool := fun r => .ok (r.rest.head?.any p) r

/-- Whether the tokens are used up. -/
def atEnd : Read Bool := fun r => .ok r.rest.isEmpty r

/-- Takes the token ahead if it is as `p` says. -/
def accept (p : Token → Bool) : Read (Option Token) := fun r =>
  match r.rest with
  | t :: ts => if p t then .ok (some t) { r with rest := ts } else .ok none r
  | [] => .ok none r

/-- Takes the symbol `s` if it is ahead. -/
def acceptSymbol (s : Symbol) : Read Bool := return (← accept (·.isSymbol s)).isSome

/-- Takes the keyword `k` if it is ahead. -/
def acceptKeyword (k : Keyword) : Read Bool := return (← accept (·.isKeyword k)).isSome

/-- Reports a fault and goes on. -/
def report (s : Site) (f : ReadingFault) : Read Unit := fun r =>
  .ok () { r with faults := (s, f) :: r.faults }

/-- Reports a fault at the token ahead and gives up. -/
def fail {α : Type} (f : ReadingFault) : Read α := fun r =>
  .error .faulty { r with faults := (r.site, f) :: r.faults }

/-- Takes the token ahead, which has to be as `p` says. -/
def expect (p : Token → Bool) (f : ReadingFault) : Read Token := do
  match ← accept p with
  | some t => return t
  | none => fail f

/-- Takes the symbol `s`, which has to be ahead. -/
def expectSymbol (s : Symbol) (f : ReadingFault) : Read Token := expect (·.isSymbol s) f

/-- Takes a name, which has to be ahead. -/
def expectName (f : ReadingFault) : Read Token := expect Token.isIdentifier f

/-- A reference to `name` with an id of its own. -/
def refer (name : Token) : Read Ref := fun r =>
  .ok ⟨r.nextId, name⟩ { r with nextId := r.nextId + 1 }

/-- Reads a declaration, or recovers from a fault in it. -/
@[inline] def recovering (p : Read Stmt) : Read (Option Stmt) := fun r =>
  match p r with
  | .ok s r => .ok (some s) r
  | .error .faulty r => .ok none r.recover
  | .error .exhausted r => .error .exhausted r

end Read

/-- How tightly binary operators bind, loosest first. -/
inductive Level where
  | or | and | equality | comparison | term | factor
deriving DecidableEq, Repr

namespace Level

/-- The level of the operands; those of the tightest level are unary expressions. -/
def tighter? : Level → Option Level
  | .or => some .and
  | .and => some .equality
  | .equality => some .comparison
  | .comparison => some .term
  | .term => some .factor
  | .factor => none

/-- Whether a token is an operator of the level. -/
def takes (l : Level) (t : Token) : Bool :=
  match l, t.kind with
  | .or, .keyword .or => true
  | .and, .keyword .and => true
  | .equality, .symbol s => (s matches .bangEqual | .equalEqual)
  | .comparison, .symbol s => (s matches .greater | .greaterEqual | .less | .lessEqual)
  | .term, .symbol s => (s matches .plus | .minus)
  | .factor, .symbol s => (s matches .slash | .star | .percent)
  | _, _ => false

/-- The expression of an operator of the level. -/
def node (l : Level) (left : Expr) (op : Token) (right : Expr) : Expr :=
  match l with
  | .or | .and => .logical left op right
  | _ => .binary left op right

end Level

namespace Read

/-- The most parameters, and arguments, of a function. -/
def maxArguments : Nat := 255

/-- Whether a token starts a unary expression. -/
def isUnaryOp (t : Token) : Bool := t.isSymbol .bang || t.isSymbol .minus

/-- Whether a token is an assignment operator, plain or compound. -/
def isAssignOp (t : Token) : Bool :=
  match t.symbol? with
  | some s => s == .equal || s.compoundBase?.isSome
  | none => false

/-- The operator if it is a compound one. -/
def compoundOp? (op : Token) : Option Token :=
  if (op.symbol?.bind Symbol.compoundBase?).isSome then some op else none

/-- The assignment of `value` to what `target` reads. A target that cannot be written to is reported
and stays as it is. -/
def assigned (target : Expr) (op : Token) (value : Expr) : Read Expr :=
  match target with
  | .variable ref =>
    return match compoundOp? op with
      | some op => .compound ref op value
      | none => .assign ref value
  | .get object name => return .set object name (compoundOp? op) value
  | other => do
    report (.token op) .badTarget
    return other

mutual

/-- `assignment ("," assignment)*` -/
def expression : Nat → Read Expr
  | 0 => throw .exhausted
  | n + 1 => do
    let first ← assignment n
    if ← ahead (·.isSymbol .comma) then return .comma (← parts n [first]) else return first

/-- `("," assignment)*`, after the parts of `acc`, last first. -/
def parts : Nat → List Expr → Read (List Expr)
  | 0, _ => throw .exhausted
  | n + 1, acc => do
    if ← acceptSymbol .comma then
      let part ← assignment n
      parts n (part :: acc)
    else return acc.reverse

/-- `ternary (op assignment)?` -/
def assignment : Nat → Read Expr
  | 0 => throw .exhausted
  | n + 1 => do
    let target ← ternary n
    match ← accept isAssignOp with
    | some op =>
      let value ← assignment n
      assigned target op value
    | none => return target

/-- `operators ("?" expression ":" ternary)?` -/
def ternary : Nat → Read Expr
  | 0 => throw .exhausted
  | n + 1 => do
    let cond ← operators n .or
    if ← acceptSymbol .question then
      let yes ← expression n
      let _ ← expectSymbol .colon .noColon
      let no ← ternary n
      return .ternary cond yes no
    else return cond

/-- `operand (op operand)*` at one level. -/
def operators : Nat → Level → Read Expr
  | 0, _ => throw .exhausted
  | n + 1, l => do
    let first ← match l.tighter? with
      | some l => operators n l
      | none => unary n
    operatorsAfter n l first

/-- `(op operand)*` after the operand `left`. -/
def operatorsAfter : Nat → Level → Expr → Read Expr
  | 0, _, _ => throw .exhausted
  | n + 1, l, left => do
    match ← accept l.takes with
    | some op =>
      let right ← match l.tighter? with
        | some l => operators n l
        | none => unary n
      operatorsAfter n l (l.node left op right)
    | none => return left

/-- `("!" | "-") unary`, or a primary expression with its suffixes. -/
def unary : Nat → Read Expr
  | 0 => throw .exhausted
  | n + 1 => do
    match ← accept isUnaryOp with
    | some op =>
      let operand ← unary n
      return .unary op operand
    | none =>
      let e ← primary n
      suffixes n e

/-- `("(" arguments ")" | "." name)*` after `e`. -/
def suffixes : Nat → Expr → Read Expr
  | 0, _ => throw .exhausted
  | n + 1, e => do
    if ← acceptSymbol .leftParen then
      let args ← if ← ahead (·.isSymbol .rightParen) then pure [] else arguments n 0 []
      let paren ← expectSymbol .rightParen (.noCloseParen .arguments)
      suffixes n (.call e paren args)
    else if ← acceptSymbol .dot then
      let name ← expectName .noPropertyName
      suffixes n (.get e name)
    else return e

/-- `assignment ("," assignment)*` after the `count` arguments of `acc`, last first. -/
def arguments : Nat → (count : Nat) → List Expr → Read (List Expr)
  | 0, _, _ => throw .exhausted
  | n + 1, count, acc => do
    if maxArguments ≤ count then report (← site) .tooManyArguments
    let arg ← assignment n
    if ← acceptSymbol .comma then arguments n (count + 1) (arg :: acc)
    else return (arg :: acc).reverse

/-- A literal, a name, `this`, `super "." name`, or an expression in parentheses. -/
def primary : Nat → Read Expr
  | 0 => throw .exhausted
  | n + 1 => do
    match ← site with
    | .stop _ => fail .noExpression
    | .token t =>
      match t.kind with
      | .keyword .true => skip; return .literal (.bool true)
      | .keyword .false => skip; return .literal (.bool false)
      | .keyword .nil => skip; return .literal .nil
      | .number x => skip; return .literal (.num x)
      | .string s => skip; return .literal (.string s)
      | .keyword .this => skip; return .this (← refer t)
      | .identifier _ => skip; return .variable (← refer t)
      | .keyword .super =>
        skip
        let _ ← expectSymbol .dot .noSuperDot
        let method ← expectName (.noName .superMethod)
        return .super (← refer t) method
      | .symbol .leftParen =>
        skip
        let inner ← expression n
        let _ ← expectSymbol .rightParen (.noCloseParen .expression)
        return .grouping inner
      | _ => fail .noExpression

end

/-- `(":" name)?` -/
def typeName : Read (Option Token) := do
  if ← acceptSymbol .colon then return some (← expectName .noTypeName) else return none

/-- `name ("," name)*` after the names of `acc`, last first. -/
def names (f : ReadingFault) : Nat → List Token → Read (List Token)
  | 0, _ => throw .exhausted
  | n + 1, acc => do
    let name ← expectName f
    if ← acceptSymbol .comma then names f n (name :: acc) else return (name :: acc).reverse

/-- `name ("," name)*` as parameters, after the `count` parameters of `acc`, last first. -/
def parameters : Nat → (count : Nat) → List Token → Read (List Token)
  | 0, _, _ => throw .exhausted
  | n + 1, count, acc => do
    if maxArguments ≤ count then report (← site) .tooManyParameters
    let name ← expectName (.noName .parameter)
    if ← acceptSymbol .comma then parameters n (count + 1) (name :: acc)
    else return (name :: acc).reverse

/-- `name typeName ("=" assignment)?`, and more after commas. -/
def varList : Nat → List Stmt → Read (List Stmt)
  | 0, _ => throw .exhausted
  | n + 1, acc => do
    let name ← expectName (.noName .variable)
    let type ← typeName
    let init ← if ← acceptSymbol .equal then some <$> assignment n else pure none
    let decl := Stmt.var name type init
    if ← acceptSymbol .comma then varList n (decl :: acc) else return (decl :: acc).reverse

/-- The rest of a declaration of variables. One variable is declared by itself. -/
def varDeclaration (n : Nat) : Read Stmt := do
  let decls ← varList n []
  let _ ← expectSymbol .semicolon (.noSemicolon .variableDeclaration)
  return match decls with
    | [decl] => decl
    | decls => .decls decls

/-- The rest of an import. The word `from` is special here only. -/
def importDeclaration (n : Nat) (keyword : Token) : Read Stmt := do
  let _ ← expectSymbol .leftBrace .noImportBrace
  let names ← names .noImportedName n []
  let _ ← expectSymbol .rightBrace .noImportEnd
  let _ ← expect (·.kind == .identifier "from") .noFrom
  match ← site with
  | .token path =>
    match path.kind with
    | .string module =>
      skip
      let _ ← expectSymbol .semicolon (.noSemicolon .requirement)
      return .require { keyword, names, path, module }
    | _ => fail .noModulePath
  | .stop _ => fail .noModulePath

/-- The rest of an exposure. -/
def exposeDeclaration (n : Nat) (keyword : Token) : Read Stmt := do
  let names ← names .noExposedName n []
  let _ ← expectSymbol .semicolon (.noSemicolon .exposedNames)
  return .expose keyword names

/-- The rest of a statement that is an expression. -/
def expressionStatement (n : Nat) : Read Stmt := do
  let e ← expression n
  let _ ← expectSymbol .semicolon (.noSemicolon .expression)
  return .expr e

end Read

/-- The members of a class as they are written, each group last first. -/
structure Members where
  methods : List FunctionDecl := []
  staticMethods : List FunctionDecl := []
  fields : List FieldDecl := []
  staticFields : List FieldDecl := []

namespace Members

/-- Adds a method. -/
def addMethod (m : Members) (static : Bool) (decl : FunctionDecl) : Members :=
  if static then { m with staticMethods := decl :: m.staticMethods }
  else { m with methods := decl :: m.methods }

/-- Adds a field. -/
def addField (m : Members) (static : Bool) (decl : FieldDecl) : Members :=
  if static then { m with staticFields := decl :: m.staticFields }
  else { m with fields := decl :: m.fields }

end Members

namespace ClassDecl

/-- Whether a statement calls the inherited initializer. -/
def isSuperInit : Stmt → Bool
  | .expr (.call (.super _ method) _ _) => method.lexeme == initName
  | _ => false

/-- `body` with the assignments to fields put in: at the start, or after the first statement, the
call of the inherited initializer, in a class that has a superclass. -/
def spliceInto (hasSuper : Bool) (assignments body : List Stmt) : List Stmt :=
  if hasSuper then body.take 1 ++ assignments ++ body.drop 1 else assignments ++ body

/-- The methods with the assignments to fields put into the first `init`. -/
def spliceFirst (hasSuper : Bool) (assignments : List Stmt) : List FunctionDecl → List FunctionDecl
  | [] => []
  | m :: ms =>
    if m.isInit then { m with body := spliceInto hasSuper assignments m.body } :: ms
    else m :: spliceFirst hasSuper assignments ms

end ClassDecl

namespace Read

/-- The assignments that initialize fields, in their order. Each sits where its field's name is. -/
def fieldAssignments : List FieldDecl → Read (List Stmt)
  | [] => return []
  | field :: fields => do
    let this ← refer (.placed (.keyword .this) "this" field.name)
    let value := field.init.getD (.literal .nil)
    let rest ← fieldAssignments fields
    return .expr (.set (.this this) field.name none value) :: rest

/-- The class with the members read, its fields moved to where they are initialized. -/
def classOf (name : Token) (superclass : Option Ref) (members : Members) : Read Stmt := do
  let methods := members.methods.reverse
  let assignments ← fieldAssignments members.fields.reverse
  match methods.find? FunctionDecl.isInit with
  | some init =>
    if superclass.isSome && !init.body.head?.any ClassDecl.isSuperInit then
      report (.token init.name) .noSuperCall
  | none => pure ()
  let fields :=
    if methods.any FunctionDecl.isInit || assignments.isEmpty then none
    else some ⟨.placed (.identifier initName) initName name, [], assignments⟩
  return .cls
    { name, superclass
      methods := ClassDecl.spliceFirst superclass.isSome assignments methods
      fields
      staticMethods := members.staticMethods.reverse
      staticFields := members.staticFields.reverse }

/-- `("<" name)?` after the name of a class. -/
def superclass (name : Token) : Read (Option Ref) := do
  if ← acceptSymbol .less then
    let sup ← expectName (.noName .superclass)
    if sup.lexeme == name.lexeme then report (.token sup) .ownSuperclass
    return some (← refer sup)
  else return none

mutual

/-- Any declaration or statement; nothing if it has a fault. -/
def declaration : Nat → Read (Option Stmt)
  | 0 => throw .exhausted
  | n + 1 => recovering do
    match ← site with
    | .stop _ => statement n
    | .token t =>
      match t.kind with
      | .keyword .var => skip; varDeclaration n
      | .keyword .fun =>
        skip
        let name ← expectName (.noName (.function .function))
        return .function (← functionRest n .function name)
      | .keyword .cls => skip; classDeclaration n
      | .keyword .imports => skip; importDeclaration n t
      | .keyword .expose => skip; exposeDeclaration n t
      | _ => statement n

/-- The declarations up to the closing brace, after those of `acc`, last first. -/
def block : Nat → List Stmt → Read (List Stmt)
  | 0, _ => throw .exhausted
  | n + 1, acc => do
    if (← atEnd) || (← ahead (·.isSymbol .rightBrace)) then
      let _ ← expectSymbol .rightBrace .noBlockEnd
      return acc.reverse
    else
      match ← declaration n with
      | some s => block n (s :: acc)
      | none => block n acc

/-- The parameters and the body of a function. -/
def functionRest : Nat → FunctionRole → Token → Read FunctionDecl
  | 0, _, _ => throw .exhausted
  | n + 1, role, name => do
    let _ ← expectSymbol .leftParen (.noOpenParen (.functionName role))
    let params ← if ← ahead (·.isSymbol .rightParen) then pure [] else parameters n 0 []
    let _ ← expectSymbol .rightParen (.noCloseParen .parameters)
    let _ ← expectSymbol .leftBrace (.noBodyBrace role)
    let body ← block n []
    return { name, params, body }

/-- The rest of a class. -/
def classDeclaration : Nat → Read Stmt
  | 0 => throw .exhausted
  | n + 1 => do
    let name ← expectName (.noName .cls)
    let sup ← superclass name
    let _ ← expectSymbol .leftBrace .noClassBrace
    let members ← classMembers n {}
    let _ ← expectSymbol .rightBrace .noClassEnd
    classOf name sup members

/-- The members up to the closing brace, after those of `acc`. -/
def classMembers : Nat → Members → Read Members
  | 0, _ => throw .exhausted
  | n + 1, acc => do
    if (← atEnd) || (← ahead (·.isSymbol .rightBrace)) then return acc
    else
      let static ← acceptKeyword .static
      let name ← expectName (.noName .member)
      if ← ahead (·.isSymbol .leftParen) then
        let method ← functionRest n .method name
        classMembers n (acc.addMethod static method)
      else
        let type ← typeName
        let init ← if ← acceptSymbol .equal then some <$> expression n else pure none
        let _ ← expectSymbol .semicolon (.noSemicolon .fieldDeclaration)
        classMembers n (acc.addField static ⟨name, type, init⟩)

/-- Any statement that declares nothing. -/
def statement : Nat → Read Stmt
  | 0 => throw .exhausted
  | n + 1 => do
    match ← site with
    | .stop _ => expressionStatement n
    | .token t =>
      match t.kind with
      | .keyword .print =>
        skip
        let e ← expression n
        let _ ← expectSymbol .semicolon (.noSemicolon .printed)
        return .print t e
      | .keyword .if => skip; branch n
      | .keyword .while =>
        skip
        let _ ← expectSymbol .leftParen (.noOpenParen .loop)
        let cond ← expression n
        let _ ← expectSymbol .rightParen (.noCloseParen .loopCondition)
        let body ← statement n
        return .loop cond none body
      | .keyword .for => skip; countedLoop n
      | .keyword .return =>
        skip
        let value ←
          if ← ahead (·.isSymbol .semicolon) then pure none else some <$> expression n
        let _ ← expectSymbol .semicolon (.noSemicolon .returned)
        return .ret t value
      | .keyword .break =>
        skip
        let _ ← expectSymbol .semicolon (.noSemicolon .breaking)
        return .brk t
      | .keyword .continue =>
        skip
        let _ ← expectSymbol .semicolon (.noSemicolon .continuing)
        return .cont t
      | .symbol .leftBrace =>
        skip
        return .block (← block n [])
      | _ => expressionStatement n

/-- The rest of an `if`. -/
def branch : Nat → Read Stmt
  | 0 => throw .exhausted
  | n + 1 => do
    let _ ← expectSymbol .leftParen (.noOpenParen .branch)
    let cond ← expression n
    let _ ← expectSymbol .rightParen (.noCloseParen .branchCondition)
    let yes ← statement n
    if ← acceptKeyword .else then
      let no ← statement n
      return .branch cond yes (some no)
    else return .branch cond yes none

/-- The rest of a `for`: a block that holds the first clause and a loop. -/
def countedLoop : Nat → Read Stmt
  | 0 => throw .exhausted
  | n + 1 => do
    let _ ← expectSymbol .leftParen (.noOpenParen .countedLoop)
    let first ←
      if ← acceptKeyword .var then (fun s => [s]) <$> varDeclaration n
      else do
        if ← acceptSymbol .semicolon then pure [] else (fun s => [s]) <$> expressionStatement n
    let cond ←
      if ← ahead (·.isSymbol .semicolon) then pure (Expr.literal (.bool true)) else expression n
    let _ ← expectSymbol .semicolon (.noSemicolon .loopCondition)
    let step ← if ← ahead (·.isSymbol .rightParen) then pure none else some <$> expression n
    let _ ← expectSymbol .rightParen (.noCloseParen .loopClauses)
    let body ← statement n
    return .block (first ++ [.loop cond step body])

end

/-- The declarations up to the end, after those of `acc`, last first. -/
def declarations : Nat → List Stmt → Read (List Stmt)
  | 0, _ => throw .exhausted
  | n + 1, acc => do
    if ← atEnd then return acc.reverse
    else
      match ← declaration n with
      | some s => declarations n (s :: acc)
      | none => declarations n acc

end Read

/-- The trees of a text and what was wrong with its tokens. -/
structure Program where
  body : List Stmt
  faults : List (Site × ReadingFault)
  /-- The id of the next reference that is read. -/
  nextId : Nat

namespace Program

/-- More nested steps than reading `count` tokens takes. -/
def steps (count : Nat) : Nat := 20 * (count + 1)

/-- Reads tokens that end at `stop`, numbering references from `firstId` on. -/
def read (tokens : List Token) (stop : Pos) (firstId : Nat) : Program :=
  match Read.declarations (steps tokens.length) [] ⟨tokens, stop, firstId, []⟩ with
  | .ok body r => ⟨body, r.faults.reverse, r.nextId⟩
  | .error _ r => ⟨[], r.faults.reverse, r.nextId⟩

end Program

end Treewalk
