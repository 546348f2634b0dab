import Treewalk.Machine

/-!
# Running programs

`Eval.exec` runs a statement and answers how it ended (`Flow`); `Eval.eval` runs an expression. Each
takes the number of nested steps it may go. A run that ends before its steps are used up ends in the
same way with more.
-/

namespace Treewalk

/-- How a statement ends. -/
inductive Flow where
  | normal
  | ret (v : Value)
  | brk
  | cont
deriving Inhabited

namespace Eval

/-- The class that a superclass clause names, if there is one. -/
def superclassOf : Option Ref → Eval (Option Nat)
  | none => return none
  | some ref => do
    match ← lookUp ref with
    | .callable (.cls c) => return some c
    | _ => fault ref.name .notSuperclass

/-- The scope of the methods of a class: around them `super` is the superclass, if there is one. -/
def classScope (superclass : Option Nat) : Eval Nat := do
  let here := (← get).scope
  match superclass with
  | some c =>
    let s ← newScope here
    define s "super" (.callable (.cls c))
    return s
  | none => return here

/-- Makes the class of a declaration, with methods in the scope `s` and no static fields yet. -/
def buildClass (decl : ClassDecl) (superclass : Option Nat) (s : Nat) : Eval Nat := do
  let methods ← newMethods s true decl.methods
  let staticMethods ← newMethods s false decl.staticMethods
  let fields ← match decl.fields with
    | some f => some <$> newClosure f s false
    | none => pure none
  newClass
    { name := decl.name.lexeme, superclass, methods := .ofList methods, fields
      staticMethods := .ofList staticMethods, statics := {} }

mutual

/-- Runs an expression. -/
def eval : Nat → Expr → Eval Value
  | 0, _ => throw .exhausted
  | _ + 1, .literal v => return .ofLiteral v
  | n + 1, .grouping e => eval n e
  | n + 1, .unary op e => do
    let v ← eval n e
    check op (Heap.negate op v)
  | n + 1, .binary l op r => do
    let v ← eval n l
    let w ← eval n r
    check op ((← get).heap.operate op v w)
  | n + 1, .logical l op r => do
    let v ← eval n l
    if op.isKeyword .or == v.truthy then return v else eval n r
  | n + 1, .ternary c y z => do
    let v ← eval n c
    if v.truthy then eval n y else eval n z
  | n + 1, .comma es => evalLast n es .nil
  | _ + 1, .variable ref => lookUp ref
  | n + 1, .assign ref e => do
    let v ← eval n e
    assign ref v
    return v
  | n + 1, .compound ref op e => do
    let v ← lookUp ref
    let w ← eval n e
    let v ← check op ((← get).heap.combine op v w)
    assign ref v
    return v
  | n + 1, .call callee paren args => do
    let f ← eval n callee
    let vs ← evalAll n args []
    match f with
    | .callable c => call n c vs paren
    | _ => fault paren .notCallable
  | n + 1, .get e name => do
    let v ← eval n e
    property v name
  | n + 1, .set e name op value => do
    let target ← eval n e
    if target.hasFields then
      let w ← eval n value
      match op with
      | some op => do
        let v ← property target name
        let v ← check op ((← get).heap.combine op v w)
        setProperty target name.lexeme v
        return v
      | none => do
        setProperty target name.lexeme w
        return w
    else fault name .noFields
  | _ + 1, .this ref => lookUp ref
  | _ + 1, .super ref method => superMethod ref method

/-- Runs expressions in turn, after those with the values of `acc`, last first. -/
def evalAll : Nat → List Expr → List Value → Eval (List Value)
  | 0, _, _ => throw .exhausted
  | _ + 1, [], acc => return acc.reverse
  | n + 1, e :: es, acc => do
    let v ← eval n e
    evalAll n es (v :: acc)

/-- Runs expressions in turn and answers the last value, or `v` if there are none. -/
def evalLast : Nat → List Expr → Value → Eval Value
  | 0, _, _ => throw .exhausted
  | _ + 1, [], v => return v
  | n + 1, e :: es, _ => do
    let v ← eval n e
    evalLast n es v

/-- Runs an expression that may not be there; `nil` stands for it. -/
def evalOption : Nat → Option Expr → Eval Value
  | 0, _ => throw .exhausted
  | _ + 1, none => return .nil
  | n + 1, some e => eval n e

/-- Calls what `c` is, unless too many calls are open. -/
def call : Nat → Callable → List Value → Token → Eval Value
  | 0, _, _, _ => throw .exhausted
  | n + 1, c, args, paren => do
    let m ← get
    if m.limit ≤ m.depth then fault paren .stackOverflow
    else
      deeper do
        let arity := (← get).heap.arity c
        if arity == args.length then enter n c args paren
        else fault paren (.wrongArity arity args.length)

/-- Runs what is called, with as many arguments as it takes. -/
def enter : Nat → Callable → List Value → Token → Eval Value
  | 0, _, _, _ => throw .exhausted
  | _ + 1, .native slot, args, paren => callNative slot args paren
  | n + 1, .function f, args, _ => apply n f args
  | n + 1, .initializer _ c inst, args, _ => do
    setUp n ((← get).heap.classes.lineage c) inst args
    return .inst inst
  | n + 1, .cls c, args, _ => do
    let inst ← newInstance c
    setUp n ((← get).heap.classes.lineage c) inst args
    return .inst inst

/-- Runs the body of a closure in a scope of its own. An initializer answers its instance. -/
def apply : Nat → Closure → List Value → Eval Value
  | 0, _, _ => throw .exhausted
  | n + 1, f, args => do
    let s ← newScope f.scope
    defineAll s f.decl.params args
    let flow ← inScope s (execAll n f.decl.body)
    if f.isInit then return ((← get).heap.scopes.here? f.scope "this").getD .nil
    else
      match flow with
      | .ret v => return v
      | _ => return .nil

/-- Initializes an instance as one of the first class of a lineage: by the `init` of that class, or
else as one of the next class and then by its own field initializers. -/
def setUp : Nat → List Class → Nat → List Value → Eval Unit
  | 0, _, _, _ => throw .exhausted
  | _ + 1, [], _, _ => return ()
  | n + 1, c :: above, inst, args => do
    match c.init? with
    | some f =>
      let f ← bindThis f inst
      let _ ← apply n f args
    | none =>
      setUp n above inst args
      match c.fields with
      | some f =>
        let f ← bindThis f inst
        let _ ← apply n f []
      | none => return ()

/-- Runs a statement. -/
def exec : Nat → Stmt → Eval Flow
  | 0, _ => throw .exhausted
  | n + 1, .expr e => do
    let _ ← eval n e
    return .normal
  | n + 1, .print keyword e => do
    let v ← eval n e
    print keyword v
    return .normal
  | n + 1, .var name _ init => do
    let v ← evalOption n init
    defineHere name.lexeme v
    return .normal
  | n + 1, .block body => do
    let s ← newScope (← get).scope
    inScope s (execAll n body)
  | n + 1, .decls body => execAll n body
  | n + 1, .branch e y no => do
    let v ← eval n e
    if v.truthy then exec n y
    else
      match no with
      | some s => exec n s
      | none => return .normal
  | n + 1, .loop e step body => loop n e step body
  | _ + 1, .function decl => do
    let f ← newClosure decl (← get).scope false
    defineHere decl.name.lexeme (.callable (.function f))
    return .normal
  | n + 1, .ret _ value => do
    let v ← evalOption n value
    return .ret v
  | _ + 1, .brk _ => return .brk
  | _ + 1, .cont _ => return .cont
  | n + 1, .cls decl => do
    defineHere decl.name.lexeme .nil
    let superclass ← superclassOf decl.superclass
    let s ← classScope superclass
    let c ← buildClass decl superclass s
    inScope s (initStatics n c decl.staticFields)
    defineHere decl.name.lexeme (.callable (.cls c))
    return .normal
  | _ + 1, .require _ => return .normal
  | _ + 1, .expose _ _ => return .normal

/-- Runs statements in turn, until one does not end normally. -/
def execAll : Nat → List Stmt → Eval Flow
  | 0, _ => throw .exhausted
  | _ + 1, [] => return .normal
  | n + 1, s :: ss => do
    match ← exec n s with
    | .normal => execAll n ss
    | flow => return flow

/-- Runs the body, then the step, as long as the condition holds. -/
def loop : Nat → Expr → Option Expr → Stmt → Eval Flow
  | 0, _, _, _ => throw .exhausted
  | n + 1, e, step, body => do
    let v ← eval n e
    if v.truthy then
      match ← exec n body with
      | .brk => return .normal
      | .ret v => return .ret v
      | _ =>
        let _ ← evalOption n step
        loop n e step body
    else return .normal

/-- Sets the static fields of the class `c` in turn. -/
def initStatics : Nat → Nat → List FieldDecl → Eval Unit
  | 0, _, _ => throw .exhausted
  | _ + 1, _, [] => return ()
  | n + 1, c, field :: fields => do
    let v ← evalOption n field.init
    setProperty (.callable (.cls c)) field.name.lexeme v
    initStatics n c fields

end

/-- Runs the statements of a program in turn. How each of them ends does not matter. -/
def run : Nat → List Stmt → Eval Unit
  | _, [] => return ()
  | n, s :: ss => do
    let _ ← exec n s
    run n ss

end Eval

end Treewalk
