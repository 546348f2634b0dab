import Treewalk.Proofs.Traced

/-!
# Logged runs of programs

The run of a program with a log: for each scope what it is made for; each statement, expression,
inside of a function and use of a name that the run comes to, with the state it comes there in;
which of these it leaves again; and the calls, the classes and what is printed. `Trace.run_erases`:
but for the log, it is the run of the program.
-/

namespace Treewalk

/-- A step of a logged run. -/
abbrev Trace := Traced Event Stop Machine

namespace Trace
open Traced

/-- Comes to a piece of code. -/
def reach (code : Code) : Trace Unit := note (.reached code)

/-- Comes to a piece of code, and leaves it if nothing stops the run. -/
def within {α : Type} (code : Code) (p : Trace α) : Trace α := do
  reach code
  let a ← p
  note fun _ => .turn (.left code)
  return a

/-- Makes a scope for `origin` inside the scope `s`. -/
def newScope (origin : Origin) (s : Nat) : Trace Nat := do
  note fun m => .made m.heap.scopes.next origin
  lift (Eval.newScope s)

@[inherit_doc Eval.inScope]
def inScope {α : Type} (s : Nat) (p : Trace α) : Trace α := fun x =>
  let scope := x.state.scope
  match p { x with state.scope := s } with
  | .ok a x => .ok a { x with state.scope := scope }
  | .error e x => .error e { x with state.scope := scope }

@[inherit_doc Eval.deeper]
def deeper {α : Type} (p : Trace α) : Trace α := fun x =>
  match p { x with state.depth := x.state.depth + 1 } with
  | .ok a x => .ok a { x with state.depth := x.state.depth - 1 }
  | .error e x => .error e { x with state.depth := x.state.depth - 1 }

/-- Uses a reference to read a variable. -/
def lookUp (u : Use) (ref : Ref) : Trace Value := do
  reach (.use u ref)
  lift (Eval.lookUp ref)

/-- Uses a reference to write a variable. -/
def assign (u : Use) (ref : Ref) (v : Value) : Trace Unit := do
  reach (.use u ref)
  lift (Eval.assign ref v)

@[inherit_doc Eval.bindThis]
def bindThis (f : Closure) (inst : Nat) : Trace Closure := do
  let s ← newScope (.this f.decl) f.scope
  lift (Eval.define s "this" (.inst inst))
  lift (Eval.newClosure f.decl s f.isInit)

@[inherit_doc Eval.initializerOf]
def initializerOf (c inst : Nat) : Trace Callable := do
  match (← lift get).heap.classes.cells[c]?.bind Class.init? with
  | some f => return .function (← bindThis f inst)
  | none => return .initializer (← lift Eval.freshId) c inst

@[inherit_doc Eval.instanceProperty]
def instanceProperty (i : Nat) (name : Token) : Trace Value := do
  let h := (← lift get).heap
  let inst ← lift (Eval.demand name (.undefinedProperty name.lexeme) h.instances[i]?)
  match inst.fields.get? name.lexeme with
  | some v => return v
  | none =>
    if name.lexeme == initName then return .callable (← initializerOf inst.cls i)
    else
      let f ← lift
        (Eval.demand name (.undefinedProperty name.lexeme) (h.classes.method? inst.cls name.lexeme))
      return .callable (.function (← bindThis f i))

@[inherit_doc Eval.property]
def property (v : Value) (name : Token) : Trace Value :=
  match v with
  | .inst i => instanceProperty i name
  | v => lift (Eval.property v name)

@[inherit_doc Eval.superMethod]
def superMethod (ref : Ref) (method : Token) : Trace Value := do
  reach (.use .super ref)
  let m ← lift get
  match m.bindings[ref.id]? with
  | some (d + 1) =>
    let super ← lift (Eval.demand ref.name (.undefinedVariable ref.name.lexeme)
      (m.heap.scopes.getAt? m.scope (d + 1) ref.name.lexeme))
    let this ← lift (Eval.demand ref.name (.undefinedVariable "this")
      (m.heap.scopes.getAt? m.scope d "this"))
    match super, this with
    | .callable (.cls c), .inst i =>
      if method.lexeme == initName then return .callable (← initializerOf c i)
      else
        let f ← lift (Eval.demand method (.undefinedProperty method.lexeme)
          (m.heap.classes.method? c method.lexeme))
        return .callable (.function (← bindThis f i))
    | _, _ => lift (Eval.fault ref.name .misplacedSuper)
  | _ => lift (Eval.fault ref.name .misplacedSuper)

@[inherit_doc Eval.superclassOf]
def superclassOf : Option Ref → Trace (Option Nat)
  | none => return none
  | some ref => do
    match ← lookUp .superclass ref with
    | .callable (.cls c) => return some c
    | _ => lift (Eval.fault ref.name .notSuperclass)

@[inherit_doc Eval.classScope]
def classScope (decl : ClassDecl) (superclass : Option Nat) : Trace Nat := do
  let here := (← lift get).scope
  match superclass with
  | some c =>
    let s ← newScope (.super decl) here
    lift (Eval.define s "super" (.callable (.cls c)))
    return s
  | none => return here

@[inherit_doc Eval.buildClass]
def buildClass (decl : ClassDecl) (superclass : Option Nat) (s : Nat) : Trace Nat :=
  watch (Eval.buildClass decl superclass s) fun _ c _ => .turn (.built c decl superclass s)

@[inherit_doc Eval.print]
def print (keyword : Token) (v : Value) : Trace Unit := do
  note fun m => .turn (.printed v m)
  lift (Eval.print keyword v)

mutual

@[inherit_doc Eval.eval]
def eval (n : Nat) (e : Expr) : Trace Value := within (.expr e) <|
  match n, e with
  | 0, _ => throw .exhausted
  | _ + 1, .literal v => return .ofLiteral v
  | n + 1, .grouping e => eval n e
  | n + 1, .unary op e => do
    let v ← eval n e
    lift (Eval.check op (Heap.negate op v))
  | n + 1, .binary l op r => do
    let v ← eval n l
    let w ← eval n r
    lift (Eval.check op ((← lift get).heap.operate op v w))
  | n + 1, .logical l op r => do
    let v ← eval n l
    if op.isKeyword .or == v.truthy then return v else eval n r
  | n + 1, .ternary c y z => do
    let v ← eval n c
    if v.truthy then eval n y else eval n z
  | n + 1, .comma es => evalLast n es .nil
  | _ + 1, .variable ref => lookUp Use.variable ref
  | n + 1, .assign ref e => do
    let v ← eval n e
    assign .assign ref v
    return v
  | n + 1, .compound ref op e => do
    let v ← lookUp .compoundRead ref
    let w ← eval n e
    let v ← lift (Eval.check op ((← lift get).heap.combine op v w))
    assign .compoundWrite ref v
    return v
  | n + 1, .call callee paren args => do
    let f ← eval n callee
    let vs ← evalAll n args []
    match f with
    | .callable c => call n c vs paren
    | _ => lift (Eval.fault paren .notCallable)
  | n + 1, .get e name => do
    let v ← eval n e
    property v name
  | n + 1, .set e name op value => do
    let target ← eval n e
    if target.hasFields then
      let w ← eval n value
      match op with
      | some op => do
        let v ← property target name
        let v ← lift (Eval.check op ((← lift get).heap.combine op v w))
        lift (Eval.setProperty target name.lexeme v)
        return v
      | none => do
        lift (Eval.setProperty target name.lexeme w)
        return w
    else lift (Eval.fault name .noFields)
  | _ + 1, .this ref => lookUp .this ref
  | _ + 1, .super ref method => superMethod ref method

@[inherit_doc Eval.evalAll]
def evalAll : Nat → List Expr → List Value → Trace (List Value)
  | 0, _, _ => throw .exhausted
  | _ + 1, [], acc => return acc.reverse
  | n + 1, e :: es, acc => do
    let v ← eval n e
    evalAll n es (v :: acc)

@[inherit_doc Eval.evalLast]
def evalLast : Nat → List Expr → Value → Trace Value
  | 0, _, _ => throw .exhausted
  | _ + 1, [], v => return v
  | n + 1, e :: es, _ => do
    let v ← eval n e
    evalLast n es v

@[inherit_doc Eval.evalOption]
def evalOption : Nat → Option Expr → Trace Value
  | 0, _ => throw .exhausted
  | _ + 1, none => return .nil
  | n + 1, some e => eval n e

@[inherit_doc Eval.call]
def call : Nat → Callable → List Value → Token → Trace Value
  | 0, _, _, _ => throw .exhausted
  | n + 1, c, args, paren => do
    let m ← lift get
    if m.limit ≤ m.depth then lift (Eval.fault paren .stackOverflow)
    else
      deeper do
        note fun m => .turn (.called c args m)
        let arity := (← lift get).heap.arity c
        if arity == args.length then enter n c args paren
        else lift (Eval.fault paren (.wrongArity arity args.length))

@[inherit_doc Eval.enter]
def enter : Nat → Callable → List Value → Token → Trace Value
  | 0, _, _, _ => throw .exhausted
  | _ + 1, .native slot, args, paren => lift (Eval.callNative slot args paren)
  | n + 1, .function f, args, _ => apply n f args
  | n + 1, .initializer _ c inst, args, _ => do
    setUp n ((← lift get).heap.classes.lineage c) inst args
    return .inst inst
  | n + 1, .cls c, args, _ => do
    let inst ← lift (Eval.newInstance c)
    setUp n ((← lift get).heap.classes.lineage c) inst args
    return .inst inst

@[inherit_doc Eval.apply]
def apply : Nat → Closure → List Value → Trace Value
  | 0, _, _ => throw .exhausted
  | n + 1, f, args => do
    note fun m => .turn (.applied f args m)
    let s ← newScope (.call f.decl) f.scope
    lift (Eval.defineAll s f.decl.params args)
    let flow ← inScope s (within (.body f.decl) (execAll n f.decl.body))
    if f.isInit then return ((← lift get).heap.scopes.here? f.scope "this").getD .nil
    else
      match flow with
      | .ret v => return v
      | _ => return .nil

@[inherit_doc Eval.setUp]
def setUp : Nat → List Class → Nat → List Value → Trace Unit
  | 0, _, _, _ => throw .exhausted
  | _ + 1, [], _, _ => return ()
  | n + 1, c :: above, inst, args => do
    match c.init? with
    | some f =>
      let f ← bindThis f inst
      let _ ← apply n f args
    | none =>
      setUp n above inst args
      match c.fields with
      | some f =>
        let f ← bindThis f inst
        let _ ← apply n f []
      | none => return ()

@[inherit_doc Eval.exec]
def exec (n : Nat) (s : Stmt) : Trace Flow := within (.stmt s) <|
  match n, s with
  | 0, _ => throw .exhausted
  | n + 1, .expr e => do
    let _ ← eval n e
    return .normal
  | n + 1, .print keyword e => do
    let v ← eval n e
    print keyword v
    return .normal
  | n + 1, .var name _ init => do
    let v ← evalOption n init
    lift (Eval.defineHere name.lexeme v)
    return .normal
  | n + 1, .block body => do
    let s ← newScope (.block body) (← lift get).scope
    inScope s (execAll n body)
  | n + 1, .decls body => execAll n body
  | n + 1, .branch e y no => do
    let v ← eval n e
    if v.truthy then exec n y
    else
      match no with
      | some s => exec n s
      | none => return .normal
  | n + 1, .loop e step body => loop n e step body
  | _ + 1, .function decl => do
    let f ← lift (Eval.newClosure decl (← lift get).scope false)
    lift (Eval.defineHere decl.name.lexeme (.callable (.function f)))
    return .normal
  | n + 1, .ret _ value => do
    let v ← evalOption n value
    return .ret v
  | _ + 1, .brk _ => return .brk
  | _ + 1, .cont _ => return .cont
  | n + 1, .cls decl => do
    lift (Eval.defineHere decl.name.lexeme .nil)
    let superclass ← superclassOf decl.superclass
    let s ← classScope decl superclass
    let c ← buildClass decl superclass s
    inScope s (initStatics n c decl.staticFields)
    lift (Eval.defineHere decl.name.lexeme (.callable (.cls c)))
    return .normal
  | _ + 1, .require _ => return .normal
  | _ + 1, .expose _ _ => return .normal

@[inherit_doc Eval.execAll]
def execAll : Nat → List Stmt → Trace Flow
  | 0, _ => throw .exhausted
  | _ + 1, [] => return .normal
  | n + 1, s :: ss => do
    match ← exec n s with
    | .normal => execAll n ss
    | flow => return flow

@[inherit_doc Eval.loop]
def loop : Nat → Expr → Option Expr → Stmt → Trace Flow
  | 0, _, _, _ => throw .exhausted
  | n + 1, e, step, body => do
    let v ← eval n e
    if v.truthy then
      match ← exec n body with
      | .brk => return .normal
      | .ret v => return .ret v
      | _ =>
        let _ ← evalOption n step
        loop n e step body
    else return .normal

@[inherit_doc Eval.initStatics]
def initStatics : Nat → Nat → List FieldDecl → Trace Unit
  | 0, _, _ => throw .exhausted
  | _ + 1, _, [] => return ()
  | n + 1, c, field :: fields => do
    let v ← evalOption n field.init
    lift (Eval.setProperty (.callable (.cls c)) field.name.lexeme v)
    initStatics n c fields

end

@[inherit_doc Eval.run]
def run : Nat → List Stmt → Trace Unit
  | _, [] => return ()
  | n, s :: ss => do
    let _ ← exec n s
    run n ss

/-! ### Forgetting the log -/

/-- But for the log, the logged run is the plain one, and it logs scopes and code only. -/
abbrev Erases {α : Type} (p : Trace α) (q : Eval α) : Prop := Traced.Erases Event.OfRun p q

theorem newScope_erases (origin : Origin) (s : Nat) :
    Erases (newScope origin s) (Eval.newScope s) := .noted (.step _)

theorem within_erases {α : Type} (code : Code) {p : Trace α} {q : Eval α} (h : Erases p q) :
    Erases (within code p) q := .noted h.closed

theorem inScope_erases {α : Type} (s : Nat) {p : Trace α} {q : Eval α} (h : Erases p q) :
    Erases (inScope s p) (Eval.inScope s q) := by
  refine ⟨fun x => ?_, fun x => ?_⟩
  · rw [inScope, Eval.inScope, ← h.state { x with state.scope := s }]
    cases p { x with state.scope := s } <;> rfl
  · obtain ⟨new, hnew, hE⟩ := h.log { x with state.scope := s }
    refine ⟨new, ?_, hE⟩
    rw [← hnew, inScope]
    cases p { x with state.scope := s } <;> rfl

theorem deeper_erases {α : Type} {p : Trace α} {q : Eval α} (h : Erases p q) :
    Erases (deeper p) (Eval.deeper q) := by
  refine ⟨fun x => ?_, fun x => ?_⟩
  · rw [deeper, Eval.deeper, ← h.state { x with state.depth := x.state.depth + 1 }]
    cases p { x with state.depth := x.state.depth + 1 } <;> rfl
  · obtain ⟨new, hnew, hE⟩ := h.log { x with state.depth := x.state.depth + 1 }
    refine ⟨new, ?_, hE⟩
    rw [← hnew, deeper]
    cases p { x with state.depth := x.state.depth + 1 } <;> rfl

theorem lookUp_erases (u : Use) (ref : Ref) : Erases (lookUp u ref) (Eval.lookUp ref) :=
  .noted (.step _)

theorem assign_erases (u : Use) (ref : Ref) (v : Value) :
    Erases (assign u ref v) (Eval.assign ref v) := .noted (.step _)

theorem bindThis_erases (f : Closure) (inst : Nat) :
    Erases (bindThis f inst) (Eval.bindThis f inst) :=
  (newScope_erases _ _).bind fun _ => .after fun _ => .step _

theorem initializerOf_erases (c inst : Nat) :
    Erases (initializerOf c inst) (Eval.initializerOf c inst) := by
  refine .after fun m => ?_
  cases m.heap.classes.cells[c]?.bind Class.init? with
  | some f => exact (bindThis_erases f inst).bind fun _ => .pure _
  | none => exact .after fun _ => .pure _

theorem instanceProperty_erases (i : Nat) (name : Token) :
    Erases (instanceProperty i name) (Eval.instanceProperty i name) := by
  refine .after fun m => .after fun inst => ?_
  cases inst.fields.get? name.lexeme with
  | some v => exact .pure _
  | none =>
    dsimp only
    split
    · exact (initializerOf_erases _ _).bind fun _ => .pure _
    · exact .after fun f => (bindThis_erases f i).bind fun _ => .pure _

theorem property_erases (v : Value) (name : Token) :
    Erases (property v name) (Eval.property v name) := by
  unfold property
  split
  · exact instanceProperty_erases _ _
  · exact .step _

theorem superMethod_erases (ref : Ref) (method : Token) :
    Erases (superMethod ref method) (Eval.superMethod ref method) := by
  refine .noted (.after fun m => ?_)
  match m.bindings[ref.id]? with
  | none | some 0 => exact .step _
  | some (d + 1) =>
    refine .after fun super => .after fun this => ?_
    match super, this with
    | .callable (.cls c), .inst i =>
      dsimp only
      split
      · exact (initializerOf_erases c i).bind fun _ => .pure _
      · exact .after fun f => (bindThis_erases f i).bind fun _ => .pure _
    | .callable (.cls _), .nil | .callable (.cls _), .bool _ | .callable (.cls _), .num _
    | .callable (.cls _), .string _ | .callable (.cls _), .callable _ | .callable (.native _), _
    | .callable (.function _), _ | .callable (.initializer ..), _ | .nil, _ | .bool _, _ | .num _, _
    | .string _, _ | .inst _, _ => exact .step _

theorem superclassOf_erases (superclass : Option Ref) :
    Erases (superclassOf superclass) (Eval.superclassOf superclass) := by
  cases superclass with
  | none => exact .pure _
  | some ref =>
    refine (lookUp_erases _ _).bind fun v => ?_
    match v with
    | .callable (.cls c) => exact .pure _
    | .callable (.native _) | .callable (.function _) | .callable (.initializer ..) | .nil | .bool _
    | .num _ | .string _ | .inst _ => exact .step _

theorem classScope_erases (decl : ClassDecl) (superclass : Option Nat) :
    Erases (classScope decl superclass) (Eval.classScope superclass) := by
  refine .after fun m => ?_
  dsimp only
  split
  · exact (newScope_erases _ _).bind fun s => .after fun _ => .pure _
  · exact .pure _

theorem buildClass_erases (decl : ClassDecl) (superclass : Option Nat) (s : Nat) :
    Erases (buildClass decl superclass s) (Eval.buildClass decl superclass s) := .watch _ _

theorem print_erases (keyword : Token) (v : Value) :
    Erases (print keyword v) (Eval.print keyword v) := .noted (.step _)

/-- With `n` steps, logged runs are plain ones but for the log. -/
structure RunErases (n : Nat) : Prop where
  eval : ∀ e, Erases (eval n e) (Eval.eval n e)
  evalAll : ∀ es acc, Erases (evalAll n es acc) (Eval.evalAll n es acc)
  evalLast : ∀ es v, Erases (evalLast n es v) (Eval.evalLast n es v)
  evalOption : ∀ e, Erases (evalOption n e) (Eval.evalOption n e)
  call : ∀ c args paren, Erases (call n c args paren) (Eval.call n c args paren)
  enter : ∀ c args paren, Erases (enter n c args paren) (Eval.enter n c args paren)
  apply : ∀ f args, Erases (apply n f args) (Eval.apply n f args)
  setUp : ∀ cs inst args, Erases (setUp n cs inst args) (Eval.setUp n cs inst args)
  exec : ∀ s, Erases (exec n s) (Eval.exec n s)
  execAll : ∀ ss, Erases (execAll n ss) (Eval.execAll n ss)
  loop : ∀ e step body, Erases (loop n e step body) (Eval.loop n e step body)
  initStatics : ∀ c fields, Erases (initStatics n c fields) (Eval.initStatics n c fields)

namespace RunErases
variable {n : Nat}

theorem eval_succ (ih : RunErases n) (e : Expr) :
    Erases (Trace.eval (n + 1) e) (Eval.eval (n + 1) e) := by
  cases e <;> rw [Trace.eval, Eval.eval] <;> refine within_erases _ ?_
  case literal v => exact .pure _
  case grouping e => exact ih.eval e
  case unary op e => exact (ih.eval e).bind fun v => .step _
  case binary l op r =>
    exact (ih.eval l).bind fun v => (ih.eval r).bind fun w => .after fun m => .step _
  case logical l op r =>
    refine (ih.eval l).bind fun v => ?_
    split
    · exact .pure _
    · exact ih.eval r
  case ternary c y z =>
    refine (ih.eval c).bind fun v => ?_
    split
    · exact ih.eval y
    · exact ih.eval z
  case comma es => exact ih.evalLast es .nil
  case «variable» ref => exact lookUp_erases _ ref
  case assign ref e =>
    exact (ih.eval e).bind fun v => (assign_erases _ ref v).bind fun _ => .pure _
  case compound ref op e =>
    exact (lookUp_erases _ ref).bind fun v => (ih.eval e).bind fun w => .after fun m =>
      .after fun v => (assign_erases _ ref v).bind fun _ => .pure _
  case call callee paren args =>
    refine (ih.eval callee).bind fun f => (ih.evalAll args []).bind fun vs => ?_
    cases f with
    | callable c => exact ih.call c vs paren
    | nil | bool | num | string | inst => exact .step _
  case get e name => exact (ih.eval e).bind fun v => property_erases v name
  case set e name op value =>
    refine (ih.eval e).bind fun target => ?_
    split
    · refine (ih.eval value).bind fun w => ?_
      cases op with
      | some op =>
        exact (property_erases target name).bind fun v => .after fun m =>
          .after fun v => .after fun _ => .pure _
      | none => exact .after fun _ => .pure _
    · exact .step _
  case this ref => exact lookUp_erases _ ref
  case super ref method => exact superMethod_erases ref method

theorem call_succ (ih : RunErases n) (c : Callable) (args : List Value) (paren : Token) :
    Erases (Trace.call (n + 1) c args paren) (Eval.call (n + 1) c args paren) := by
  rw [Trace.call, Eval.call]
  refine .after fun m => ?_
  split
  · exact .step _
  · refine deeper_erases (.noted (.after fun m => ?_))
    dsimp only
    split
    · exact ih.enter c args paren
    · exact .step _

theorem enter_succ (ih : RunErases n) (c : Callable) (args : List Value) (paren : Token) :
    Erases (Trace.enter (n + 1) c args paren) (Eval.enter (n + 1) c args paren) := by
  cases c <;> rw [Trace.enter, Eval.enter]
  case native => exact .step _
  case function f => exact ih.apply f args
  case initializer => exact .after fun m => (ih.setUp _ _ args).bind fun _ => .pure _
  case cls c =>
    exact .after fun inst => .after fun m => (ih.setUp _ inst args).bind fun _ => .pure _

theorem apply_succ (ih : RunErases n) (f : Closure) (args : List Value) :
    Erases (Trace.apply (n + 1) f args) (Eval.apply (n + 1) f args) := by
  rw [Trace.apply, Eval.apply]
  refine .noted ((newScope_erases _ _).bind fun s => .after fun _ =>
    (inScope_erases s (within_erases _ (ih.execAll _))).bind fun flow => ?_)
  split
  · exact .after fun m => .pure _
  · cases flow with
    | ret v => exact .pure _
    | normal | brk | cont => exact .pure _

theorem setUp_succ (ih : RunErases n) (cs : List Class) (inst : Nat) (args : List Value) :
    Erases (Trace.setUp (n + 1) cs inst args) (Eval.setUp (n + 1) cs inst args) := by
  cases cs with
  | nil => exact .pure _
  | cons c above =>
    rw [Trace.setUp, Eval.setUp]
    cases c.init? with
    | some f => exact (bindThis_erases f inst).bind fun f => (ih.apply f args).bind fun _ => .pure _
    | none =>
      refine (ih.setUp above inst args).bind fun _ => ?_
      cases c.fields with
      | some f => exact (bindThis_erases f inst).bind fun f => (ih.apply f []).bind fun _ => .pure _
      | none => exact .pure _

theorem exec_succ (ih : RunErases n) (s : Stmt) :
    Erases (Trace.exec (n + 1) s) (Eval.exec (n + 1) s) := by
  cases s
  case branch e y no =>
    cases no with
    | some s =>
      rw [Trace.exec, Eval.exec]
      refine within_erases _ ((ih.eval e).bind fun v => ?_)
      split
      · exact ih.exec y
      · exact ih.exec s
    | none =>
      rw [Trace.exec, Eval.exec]
      refine within_erases _ ((ih.eval e).bind fun v => ?_)
      split
      · exact ih.exec y
      · exact .pure _
  all_goals rw [Trace.exec, Eval.exec]; refine within_erases _ ?_
  case expr e => exact (ih.eval e).bind fun _ => .pure _
  case print keyword e => exact (ih.eval e).bind fun v => (print_erases _ v).bind fun _ => .pure _
  case var name _ init => exact (ih.evalOption init).bind fun v => .after fun _ => .pure _
  case block body =>
    exact .after fun m => (newScope_erases _ _).bind fun s => inScope_erases s (ih.execAll body)
  case decls body => exact ih.execAll body
  case loop e step body => exact ih.loop e step body
  case function decl => exact .after fun m => .after fun f => .after fun _ => .pure _
  case ret value => exact (ih.evalOption value).bind fun v => .pure _
  case brk | cont | require | expose => exact .pure _
  case cls decl =>
    exact .after fun _ => (superclassOf_erases _).bind fun sup => (classScope_erases decl sup).bind
      fun s => (buildClass_erases ..).bind fun c => (inScope_erases s (ih.initStatics c _)).bind
        fun _ => .after fun _ => .pure _

theorem execAll_succ (ih : RunErases n) (ss : List Stmt) :
    Erases (Trace.execAll (n + 1) ss) (Eval.execAll (n + 1) ss) := by
  cases ss with
  | nil => exact .pure _
  | cons s ss =>
    rw [Trace.execAll, Eval.execAll]
    refine (ih.exec s).bind fun flow => ?_
    cases flow with
    | normal => exact ih.execAll ss
    | ret | brk | cont => exact .pure _

theorem loop_succ (ih : RunErases n) (e : Expr) (step : Option Expr) (body : Stmt) :
    Erases (Trace.loop (n + 1) e step body) (Eval.loop (n + 1) e step body) := by
  rw [Trace.loop, Eval.loop]
  refine (ih.eval e).bind fun v => ?_
  split
  · refine (ih.exec body).bind fun flow => ?_
    cases flow with
    | brk | ret => exact .pure _
    | normal | cont => exact (ih.evalOption step).bind fun _ => ih.loop e step body
  · exact .pure _

end RunErases

/-- Logged runs are plain ones but for the log. -/
theorem runErases (n : Nat) : RunErases n := by
  induction n with
  | zero =>
    refine ⟨?_, ?_, ?_, ?_, ?_, ?_, ?_, ?_, ?_, ?_, ?_, ?_⟩
    case refine_1 => intro e; rw [eval, Eval.eval]; exact within_erases _ (.throw _)
    case refine_9 => intro s; rw [exec, Eval.exec]; exact within_erases _ (.throw _)
    all_goals intros; exact .throw _
  | succ n ih =>
    refine ⟨ih.eval_succ, ?_, ?_, ?_, ih.call_succ, ih.enter_succ, ih.apply_succ, ih.setUp_succ,
      ih.exec_succ, ih.execAll_succ, ih.loop_succ, ?_⟩
    · intro es acc
      cases es with
      | nil => exact .pure _
      | cons e es => exact (ih.eval e).bind fun v => ih.evalAll es (v :: acc)
    · intro es v
      cases es with
      | nil => exact .pure _
      | cons e es => exact (ih.eval e).bind fun v => ih.evalLast es v
    · intro e
      cases e with
      | none => exact .pure _
      | some e => exact ih.eval e
    · intro c fields
      cases fields with
      | nil => exact .pure _
      | cons field fields =>
        exact (ih.evalOption field.init).bind fun v => .after fun _ => ih.initStatics c fields

theorem run_erases (n : Nat) (body : List Stmt) : Erases (run n body) (Eval.run n body) := by
  induction body with
  | nil => exact .pure _
  | cons s ss ih => exact ((runErases n).exec s).bind fun _ => ih

end Trace

end Treewalk
