import Treewalk.Proofs.TracedRun

/-!
# Logged sessions

A session as its host sees it: a list of steps, each of which runs a file or a text, calls a
function, or changes what the session looks at (`Step`). Beside the plain session stands the one
with a log (`Trail`). `Trail.steps_erases`: but for the log, they are one.
-/

namespace Treewalk

/-! ### The steps of a session -/

/-- What a host can hand to a session. -/
inductive Given where
  | literal (l : Literal)
  /-- A global of the interpreter at hand, `nil` if there is none. -/
  | global (name : String)
deriving DecidableEq, Repr

/-- A step of a session. Interpreters are numbered as they are made. -/
inductive Step where
  | newInterpreter
  | runFile (path : String)
  | runSource (who : Nat) (name : Option String) (text : String)
  /-- Calls a global, and makes what it answers a global if a name is given. -/
  | call (who : Nat) (callee : String) (args : List Given) (paren : Token) (store : Option String)
  | defineGlobal (who : Nat) (name : String) (value : Given)
  | defineNative (who : Nat) (f : Native)
  | resetErrors
  | changeDisk (disk : Disk)

/-- The value that is handed over. -/
def Given.value (s : Session) (i : Interpreter) : Given → Value
  | .literal l => .ofLiteral l
  | .global name => (s.getGlobal i name).getD .nil

namespace Load

/-- Keeps what a call answers. -/
def keep (i : Interpreter) (store : Option String) (result : Except Fault Value) : Load Unit :=
  match store, result with
  | some name, .ok v => modify fun s => s.defineGlobal i name v
  | _, _ => return ()

/-- Makes a step with the interpreters `is`. A step for an interpreter that is not there does
nothing. -/
def step (n : Nat) (is : Array Interpreter) : Step → Load (Array Interpreter)
  | .newInterpreter => is.push <$> newInterpreter
  | .runFile path => do
    let _ ← runFile n path
    return is
  | .runSource who name text =>
    match is[who]? with
    | some i => is.setIfInBounds who <$> runSource n name text i
    | none => return is
  | .call who callee args paren store =>
    match is[who]? with
    | some i => do
      let s ← get
      match s.getGlobal i callee with
      | some (.callable c) => do
        let (result, i) ← perform i (Eval.call n c (args.map (·.value s i)) paren)
        keep i store result
        return is.setIfInBounds who i
      | _ => return is
    | none => return is
  | .defineGlobal who name value =>
    match is[who]? with
    | some i => do
      modify fun s => s.defineGlobal i name (value.value s i)
      return is
    | none => return is
  | .defineNative who f =>
    match is[who]? with
    | some i => do
      modify fun s => s.defineNative i f
      return is
    | none => return is
  | .resetErrors => do
    resetErrors
    return is
  | .changeDisk disk => do
    modify fun s => { s with disk }
    return is

/-- Makes steps in turn. -/
def steps (n : Nat) : List Step → Array Interpreter → Load (Array Interpreter)
  | [], is => return is
  | t :: ts, is => do
    let is ← step n is t
    steps n ts is

end Load

/-- What a session starts from. -/
structure Setup where
  config : Config := {}
  disk : Disk := {}
  root : String
  sink : Sink := {}
  time : Float := 0

namespace Setup

/-- A session before its first step. -/
def session (s : Setup) : Session :=
  { Session.new s.config s.disk s.root with world := { sink := s.sink, time := s.time } }

/-- A session with the given steps, each of which may go `n` steps deep. -/
def run (s : Setup) (n : Nat) (ts : List Step) :
    EStateM.Result OutOfSteps Session (Array Interpreter) := Load.steps n ts #[] s.session

end Setup

/-! ### The same with a log -/

/-- A step of a logged session. -/
abbrev Trail := Traced Event OutOfSteps Session

namespace Trail
open Traced

@[inherit_doc Load.perform]
def perform {α : Type} (i : Interpreter) (p : Trace α) :
    Trail (Except Fault α × Interpreter) := fun x =>
  match p ⟨Machine.ofParts x.state.world i x.state.config.maxDepth, x.log⟩ with
  | .ok a y => .ok (.ok a, y.state.interpreter) ⟨{ x.state with world := y.state.world }, y.log⟩
  | .error (.fault f) y =>
    .ok (.error f, y.state.interpreter) ⟨{ x.state with world := y.state.world }, y.log⟩
  | .error .exhausted y => .error {} ⟨{ x.state with world := y.state.world }, y.log⟩

/-- Reads a text, which is that of the file `path` if there is one. -/
def readText (path : Option Path) (file : Option String) (text : String) : Trail (List Stmt) := do
  note (.scanned path file text)
  watch (Load.readText file text) fun s body s' =>
    .read path body (decide (s.diagnostics.size < s'.diagnostics.size))

@[inherit_doc Load.readFile]
def readFile (path : Path) (name text : String) : Trail (List Stmt) := do
  match (← lift get).parsed.get? path with
  | some body => return body
  | none =>
    let body ← readText (some path) (some name) text
    lift (modify fun s => { s with parsed := s.parsed.insert path body })
    return body

mutual

@[inherit_doc Load.settle]
def settle : Nat → String → List Finding → Pending → Trail Pending
  | 0, _, _, _ => throw {}
  | _ + 1, _, [], p => return p
  | n + 1, dir, .local id d :: fs, p => settle n dir fs (p.bind id d)
  | n + 1, dir, .fault at_ f :: fs, p => do
    lift (modify fun s =>
      { s with diagnostics := s.diagnostics.reportAt .binding (.token at_) f.message })
    settle n dir fs p
  | n + 1, dir, .declared name :: fs, p => settle n dir fs (p.declare name)
  | n + 1, dir, .exposed names :: fs, p =>
    settle n dir fs { p with exposed := p.exposed ++ names }
  | n + 1, dir, .required decl :: fs, p => do
    let asked ← lift get
    note fun s => .moment (.asked decl s)
    let result ← fetch n dir decl
    note fun s => .moment (.answered decl result asked s)
    match result with
    | some m =>
      let had ← lift get
      let p ← lift (Load.takeNames decl m decl.names p)
      note fun s => .moment (.taken decl m p.interpreter asked had s)
      note fun _ => .imported p.interpreter.globals m.globals
      settle n dir fs
        { p with interpreter.bindings := p.interpreter.bindings ∪ m.bindings }
    | none => settle n dir fs p

@[inherit_doc Load.bindNames]
def bindNames : Nat → String → List Stmt → Interpreter → Trail (List String × Interpreter)
  | 0, _, _, _ => throw {}
  | n + 1, dir, body, i => do
    let p ← settle n dir (findings body) { interpreter := i }
    note fun s => .moment (.resolved body p.interpreter s)
    note fun _ => .bound i.globals body
    let exports ← lift (Load.exportsOf p.declared p.exposed [])
    return (exports, p.interpreter)

@[inherit_doc Load.fetch]
def fetch : Nat → String → ImportDecl → Trail (Option Module)
  | 0, _, _ => throw {}
  | n + 1, dir, decl => do
    let s ← lift get
    match s.disk.locate (Path.join dir (Load.fileName s.config decl.module)) with
    | .error e =>
      lift (Load.report decl.path (.unreadable decl.module e))
      return none
    | .ok path =>
      if s.loading.contains path then
        let around := s.loading.dropWhile (· != path)
        lift (Load.report decl.path (.cycle ((around ++ [path]).map s.displayName)))
        return none
      else
        match s.modules.get? path with
        | some m => return some m
        | none =>
          if s.failed.contains path then
            lift (Load.report decl.path (.failed decl.module))
            return none
          else
            match s.disk.read path with
            | .error e =>
              lift (Load.report decl.path (.unreadable decl.module e))
              return none
            | .ok text => process n path text

@[inherit_doc Load.process]
def process : Nat → Path → String → Trail (Option Module)
  | 0, _, _ => throw {}
  | n + 1, path, text => do
    note fun s => .moment (.opened path s)
    let name := (← lift get).displayName path
    let before ← lift (Load.setFile (some name))
    let result ← processHere n path name text
    let _ ← lift (Load.setFile before)
    if result.isNone then lift (modify fun s => { s with failed := path :: s.failed })
    note fun s => .moment (.closed path result s)
    return result

@[inherit_doc Load.processHere]
def processHere : Nat → Path → String → String → Trail (Option Module)
  | 0, _, _, _ => throw {}
  | n + 1, path, name, text => do
    let before ← lift Load.reports
    let body ← readFile path name text
    if before < (← lift Load.reports) then return none
    else
      let i ← lift Load.newInterpreter
      lift (modify fun s => { s with loading := s.loading ++ [path] })
      note fun s => .moment (.stacked s)
      let (exports, i) ← bindNames n (Path.text path.dropLast) body i
      lift (modify fun s => { s with loading := s.loading.dropLast })
      note fun s => .moment (.stacked s)
      if before < (← lift Load.reports) then return none
      else
        note fun _ => .began (some path) i.globals body
        let (result, i) ← perform i (Trace.run n body)
        match result with
        | .error f =>
          watch (modify fun s => { s with diagnostics := s.diagnostics.reportFault f })
            fun _ _ _ => .aborted (some path) i.globals body f
          return none
        | .ok () =>
          let m : Module := { path, name, exports, globals := i.globals, bindings := i.bindings }
          lift (modify fun s => { s with modules := s.modules.insert path m })
          return some m

end

@[inherit_doc Load.runFile]
def runFile (n : Nat) (path : String) : Trail (Except DiskError (Option Module)) := do
  let s ← lift get
  match s.disk.locate (Path.join s.root path) with
  | .error e => return .error e
  | .ok path =>
    match s.modules.get? path with
    | some m => return .ok (some m)
    | none =>
      match s.disk.read path with
      | .error e => return .error e
      | .ok text =>
        note fun _ => .entered path
        return .ok (← process n path text)

@[inherit_doc Load.runRead]
def runRead (n before : Nat) (body : List Stmt) (i : Interpreter) : Trail Interpreter := do
  if before < (← lift Load.reports) then return i
  else
    let (_, i) ← bindNames n (← lift get).root body i
    if before < (← lift Load.reports) then return i
    else
      note fun _ => .began none i.globals body
      let (result, i) ← perform i (Trace.run n body)
      match result with
      | .error f =>
        watch (modify fun s => { s with diagnostics := s.diagnostics.reportFault f })
          fun _ _ _ => .aborted none i.globals body f
      | .ok () => pure ()
      return i

@[inherit_doc Load.runSource]
def runSource (n : Nat) (name : Option String) (text : String) (i : Interpreter) :
    Trail Interpreter := do
  let file ← lift (Load.setFile name)
  let before ← lift Load.reports
  let body ← readText none name text
  let i ← runRead n before body i
  let _ ← lift (Load.setFile file)
  return i

@[inherit_doc Load.step]
def step (n : Nat) (is : Array Interpreter) : Step → Trail (Array Interpreter)
  | .newInterpreter => is.push <$> lift Load.newInterpreter
  | .runFile path => do
    let _ ← runFile n path
    return is
  | .runSource who name text =>
    match is[who]? with
    | some i => is.setIfInBounds who <$> runSource n name text i
    | none => return is
  | .call who callee args paren store =>
    match is[who]? with
    | some i => do
      let s ← lift get
      match s.getGlobal i callee with
      | some (.callable c) => do
        let (result, i) ← perform i (Trace.call n c (args.map (·.value s i)) paren)
        lift (Load.keep i store result)
        return is.setIfInBounds who i
      | _ => return is
    | none => return is
  | .resetErrors => watch (Load.step n is .resetErrors) fun _ _ s => .moment (.cleared s)
  | t => lift (Load.step n is t)

@[inherit_doc Load.steps]
def steps (n : Nat) : List Step → Array Interpreter → Trail (Array Interpreter)
  | [], is => return is
  | t :: ts, is => do
    let is ← step n is t
    steps n ts is

/-! ### Forgetting the log -/

/-- But for the log, the logged step is the plain one. -/
abbrev Erases {α : Type} (p : Trail α) (q : Load α) : Prop := Traced.Erases (fun _ => True) p q

/-- What a run of a program adds to the log. -/
theorem log_perform {α : Type} (i : Interpreter) {p : Trace α} {q : Eval α} (h : Trace.Erases p q)
    (x : Logged Event Session) :
    ∃ new, (last (perform i p x)).log = new ++ x.log ∧ ∀ e ∈ new, e.OfRun := by
  obtain ⟨new, hnew, hE⟩ := h.log ⟨Machine.ofParts x.state.world i x.state.config.maxDepth, x.log⟩
  refine ⟨new, ?_, hE⟩
  rw [← hnew, perform]
  cases p ⟨Machine.ofParts x.state.world i x.state.config.maxDepth, x.log⟩ with
  | ok a y => rfl
  | error e y => cases e <;> rfl

theorem perform_erases {α : Type} {E : Event → Prop} (i : Interpreter) {p : Trace α} {q : Eval α}
    (h : Trace.Erases p q) (hE : ∀ e, e.OfRun → E e := by intros; trivial) :
    Traced.Erases E (perform i p) (Load.perform i q) := by
  refine ⟨fun x => ?_, fun x => ?_⟩
  · rw [perform, Load.perform,
      ← h.state ⟨Machine.ofParts x.state.world i x.state.config.maxDepth, x.log⟩]
    cases p ⟨Machine.ofParts x.state.world i x.state.config.maxDepth, x.log⟩ with
    | ok a y => rfl
    | error e y => cases e <;> rfl
  · obtain ⟨new, hnew, hrun⟩ := log_perform i h x
    exact ⟨new, hnew, fun e he => hE e (hrun e he)⟩

theorem readText_erases {E : Event → Prop} (path : Option Path) (file : Option String)
    (text : String) (hE : ∀ path body faulty, E (.read path body faulty) := by intros; trivial)
    (hE' : ∀ path file text s, E (.scanned path file text s) := by intros; trivial) :
    Traced.Erases E (readText path file text) (Load.readText file text) :=
  .noted (.watch _ _ fun _ _ _ => hE _ _ _) (hE' _ _ _)

theorem readFile_erases {E : Event → Prop} (path : Path) (name text : String)
    (hE : ∀ path body faulty, E (.read path body faulty) := by intros; trivial)
    (hE' : ∀ path file text s, E (.scanned path file text s) := by intros; trivial) :
    Traced.Erases E (readFile path name text) (Load.readFile path name text) := by
  refine .after fun s => ?_
  cases s.parsed.get? path with
  | some body => exact .pure _
  | none => exact (readText_erases _ _ _ hE hE').bind fun body => .after fun _ => .pure _

/-- With `n` steps, logged loads are plain ones but for the log. -/
structure LoadErases (n : Nat) : Prop where
  settle : ∀ dir fs p, Erases (settle n dir fs p) (Load.settle n dir fs p)
  bindNames : ∀ dir body i, Erases (bindNames n dir body i) (Load.bindNames n dir body i)
  fetch : ∀ dir decl, Erases (fetch n dir decl) (Load.fetch n dir decl)
  process : ∀ path text, Erases (process n path text) (Load.process n path text)
  processHere : ∀ path name text,
    Erases (processHere n path name text) (Load.processHere n path name text)

namespace LoadErases

variable {n : Nat}

theorem settle_succ (ih : LoadErases n) (dir : String) (fs : List Finding) (p : Pending) :
    Erases (Trail.settle (n + 1) dir fs p) (Load.settle (n + 1) dir fs p) := by
  cases fs with
  | nil => exact .pure _
  | cons f fs =>
  cases f <;> rw [Trail.settle, Load.settle]
  case «local» id d => exact ih.settle dir fs _
  case fault at_ f => exact .after fun _ => ih.settle dir fs p
  case declared name => exact ih.settle dir fs _
  case exposed names => exact ih.settle dir fs _
  case required decl =>
    refine .looked fun asked => .noted ((ih.fetch dir decl).bind fun m => .noted ?_)
    cases m with
    | some m => exact .looked fun had => .after fun p => .noted (.noted (ih.settle dir fs _))
    | none => exact ih.settle dir fs p

theorem fetch_succ (ih : LoadErases n) (dir : String) (decl : ImportDecl) :
    Erases (Trail.fetch (n + 1) dir decl) (Load.fetch (n + 1) dir decl) := by
  rw [Trail.fetch, Load.fetch]
  refine .after fun s => ?_
  cases s.disk.locate (Path.join dir (Load.fileName s.config decl.module)) with
  | error e => exact .after fun _ => .pure _
  | ok path =>
    dsimp only
    split
    · exact .after fun _ => .pure _
    · cases s.modules.get? path with
      | some m => exact .pure _
      | none =>
        dsimp only
        split
        · exact .after fun _ => .pure _
        · cases s.disk.read path with
          | error e => exact .after fun _ => .pure _
          | ok text => exact ih.process path text

theorem process_succ (ih : LoadErases n) (path : Path) (text : String) :
    Erases (Trail.process (n + 1) path text) (Load.process (n + 1) path text) := by
  rw [Trail.process, Load.process]
  refine .noted (.after fun s => .after fun file => (ih.processHere path _ text).bind fun result =>
    .after fun _ => ?_)
  dsimp only
  split
  · exact .after fun _ => .noted (.pure _)
  · exact .noted (.pure _)

theorem processHere_succ (ih : LoadErases n) (path : Path) (name text : String) :
    Erases (Trail.processHere (n + 1) path name text)
      (Load.processHere (n + 1) path name text) := by
  rw [Trail.processHere, Load.processHere]
  refine .after fun before => (readFile_erases path name text).bind fun body =>
    .after fun reports => ?_
  split
  · exact .pure _
  · refine .after fun i => .after fun _ => .noted ((ih.bindNames _ body i).bind fun (exports, i) =>
      .after fun _ => .noted (.after fun reports => ?_))
    dsimp only
    split
    · exact .pure _
    · refine .noted ((perform_erases i (Trace.run_erases n body)).bind fun (result, i) => ?_)
      cases result with
      | error f => exact (Erases.watch _ _).bind fun _ => .pure _
      | ok a => exact .after fun _ => .pure _

end LoadErases

/-- Logged loads are plain ones but for the log. -/
theorem loadErases (n : Nat) : LoadErases n := by
  induction n with
  | zero =>
    refine ⟨?_, ?_, ?_, ?_, ?_⟩
    all_goals intros; exact .throw _
  | succ n ih =>
    refine ⟨ih.settle_succ, ?_, ih.fetch_succ, ih.process_succ, ih.processHere_succ⟩
    intro dir body i
    exact (ih.settle dir _ _).bind fun p => .noted (.noted (.after fun exports => .pure _))

theorem runFile_erases (n : Nat) (path : String) :
    Erases (runFile n path) (Load.runFile n path) := by
  refine .after fun s => ?_
  cases s.disk.locate (Path.join s.root path) with
  | error e => exact .pure _
  | ok path =>
    dsimp only
    cases s.modules.get? path with
    | some m => exact .pure _
    | none =>
      dsimp only
      cases s.disk.read path with
      | error e => exact .pure _
      | ok text => exact .noted (((loadErases n).process path text).bind fun _ => .pure _)

theorem runRead_erases (n before : Nat) (body : List Stmt) (i : Interpreter) :
    Erases (runRead n before body i) (Load.runRead n before body i) := by
  refine .after fun reports => ?_
  dsimp only
  split
  · exact .pure _
  · refine .after fun s => ((loadErases n).bindNames s.root body i).bind fun (_, i) =>
      .after fun reports => ?_
    dsimp only
    split
    · exact .pure _
    · refine .noted ((perform_erases i (Trace.run_erases n body)).bind fun (result, i) => ?_)
      cases result with
      | error f => exact (Erases.watch _ _).bind fun _ => .pure _
      | ok a => exact .pure _

theorem runSource_erases (n : Nat) (name : Option String) (text : String) (i : Interpreter) :
    Erases (runSource n name text i) (Load.runSource n name text i) :=
  .after fun _ => .after fun before => (readText_erases none name text).bind fun body =>
    (runRead_erases n before body i).bind fun _ => .after fun _ => .pure _

theorem step_erases (n : Nat) (is : Array Interpreter) (t : Step) :
    Erases (step n is t) (Load.step n is t) := by
  cases t with
  | newInterpreter => exact (Erases.step _).map _
  | runFile path => exact (runFile_erases n path).bind fun _ => .pure _
  | runSource who name text =>
    rw [step, Load.step]
    cases is[who]? with
    | some i => exact (runSource_erases n name text i).map _
    | none => exact .pure _
  | call who callee args paren store =>
    rw [step, Load.step]
    cases is[who]? with
    | none => exact .pure _
    | some i =>
      refine .after fun s => ?_
      match s.getGlobal i callee with
      | some (.callable c) =>
        exact (perform_erases i ((Trace.runErases n).call c _ paren)).bind fun (result, i) =>
          .after fun _ => .pure _
      | none | some .nil | some (.bool _) | some (.num _) | some (.string _) | some (.inst _) =>
        exact .pure _
  | defineGlobal who name value => exact .step (Load.step n is (.defineGlobal who name value))
  | defineNative who f => exact .step (Load.step n is (.defineNative who f))
  | resetErrors =>
    rw [step]
    exact .watch _ _
  | changeDisk disk => exact .step (Load.step n is (.changeDisk disk))

/-- Logged sessions are plain ones but for the log. -/
theorem steps_erases (n : Nat) (ts : List Step) (is : Array Interpreter) :
    Erases (steps n ts is) (Load.steps n ts is) := by
  induction ts generalizing is with
  | nil => exact .pure _
  | cons t ts ih => exact (step_erases n is t).bind fun is => ih is

end Trail

namespace Setup

/-- The session with a log. -/
def logged (s : Setup) (n : Nat) (ts : List Step) :
    EStateM.Result OutOfSteps (Logged Event Session) (Array Interpreter) :=
  Trail.steps n ts #[] ⟨s.session, []⟩

/-- What the session leaves, whether it comes to an end or not. -/
def final (s : Setup) (n : Nat) (ts : List Step) : Logged Event Session :=
  Traced.last (s.logged n ts)

/-- What happens in the session, latest first. -/
def events (s : Setup) (n : Nat) (ts : List Step) : List Event := (s.final n ts).log

theorem erase_logged (s : Setup) (n : Nat) (ts : List Step) :
    Traced.erase (s.logged n ts) = s.run n ts := Trail.steps_erases n ts #[] ⟨s.session, []⟩

end Setup

end Treewalk
