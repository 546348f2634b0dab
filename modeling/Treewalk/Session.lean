import Treewalk.Binding
import Treewalk.Disk
import Treewalk.Evaluation
import Treewalk.Tree.Source

/-!
# Sessions

A session runs texts and files one after the other. All of them share one store, one collector of
diagnostics and one counter of references, so that tables of bindings of different files never
disagree. Each file is read once, and a file that ran to its end is a `Module` that others import
names from. Imports are fetched while the names of the importing file are bound, before any of it
runs.
-/

namespace Treewalk

/-- Settings that hold for all files of a session. -/
structure Config where
  /-- The most calls that may be open at a time. -/
  maxDepth : Nat := 512
  /-- What the names of files end in; an import may leave it out. -/
  extension : String := "vuel"
deriving DecidableEq, Repr, Inhabited

/-- A file that ran to its end. -/
structure Module where
  path : Path
  /-- How reports name the file. -/
  name : String
  /-- The names that others may import. -/
  exports : List String
  globals : Nat
  bindings : Bindings
deriving Inhabited

/-- What can go wrong between files. -/
inductive ModuleFault where
  | unreadable (module : String) (e : DiskError)
  | cycle (names : List String)
  | failed (module : String)
  | notExposed (name module : String)
  | undeclared (name : String)
deriving DecidableEq, Repr

/-- The wording of a fault. -/
def ModuleFault.message : ModuleFault → String
  | .unreadable module e => "Can't read module '" ++ module ++ "': " ++ e.message
  | .cycle names => "Import cycle detected: " ++ " -> ".intercalate names ++ "."
  | .failed module => "Module '" ++ module ++ "' failed to load."
  | .notExposed name module => "'" ++ name ++ "' is not exposed by '" ++ module ++ "'."
  | .undeclared name => "Can't expose undeclared name '" ++ name ++ "'."

/-- Everything that lasts from one text to the next. -/
structure Session where
  config : Config := {}
  disk : Disk := {}
  /-- The directory that entry files and imports of nameless texts are looked up in, as written. -/
  root : String
  world : World := {}
  diagnostics : Diagnostics := {}
  /-- The id of the next reference. -/
  nextRef : Nat := 0
  /-- The trees of all files read so far, with faults or without. -/
  parsed : Table Path (List Stmt) := {}
  modules : Table Path Module := {}
  /-- Files that could not be loaded. -/
  failed : List Path := []
  /-- Files whose names are being bound, outermost first. -/
  loading : List Path := []
deriving Inhabited

/-- A run of a session ends without a result only when its steps are used up. -/
structure OutOfSteps where
deriving DecidableEq, Repr

/-- A step of a session. -/
abbrev Load := EStateM OutOfSteps Session

namespace Session

/-- A session with the root directory `root`: its one path if it is there, and as written if not. -/
def new (config : Config) (disk : Disk) (root : String) : Session :=
  let root := match disk.locate root with
    | .ok p => p.text
    | .error _ => root
  { config, disk, root }

/-- How reports name a file: by its path from the root directory on, or in full outside of it. -/
def displayName (s : Session) (p : Path) : String := p.textFrom (Path.names s.root)

/-- An interpreter with a global scope of its own, in which `clock` is defined. -/
def newInterpreter (s : Session) : Interpreter × Session :=
  let h := s.world.heap
  let g := h.scopes.next
  let scopes := h.scopes.addRoot.define g "clock" (.callable (.native h.natives.size))
  ({ globals := g, scope := g, bindings := {}, depth := 0 },
    { s with world.heap := { h with scopes, natives := h.natives.push .clock } })

/-- The value of a global of an interpreter. -/
def getGlobal (s : Session) (i : Interpreter) (name : String) : Option Value :=
  s.world.heap.scopes.here? i.globals name

/-- Sets a global of an interpreter. -/
def defineGlobal (s : Session) (i : Interpreter) (name : String) (v : Value) : Session :=
  { s with world.heap.scopes := s.world.heap.scopes.define i.globals name v }

/-- Adds a function of the host and makes it a global of an interpreter. -/
def defineNative (s : Session) (i : Interpreter) (f : Native) : Session :=
  let slot := s.world.heap.natives.size
  { s with world.heap.natives := s.world.heap.natives.push f }.defineGlobal i f.name
    (.callable (.native slot))

/-- The value of a global of a module. -/
def moduleValue (s : Session) (m : Module) (name : String) : Option Value :=
  s.world.heap.scopes.here? m.globals name

end Session

namespace Load

/-- Reports a fault between files. -/
def report (at_ : Token) (f : ModuleFault) : Load Unit := modify fun s =>
  { s with diagnostics := s.diagnostics.reportAt .binding (.token at_) f.message }

/-- Runs a step of an interpreter. What it leaves counts, whether it fails or not. -/
def perform {α : Type} (i : Interpreter) (p : Eval α) :
    Load (Except Fault α × Interpreter) := fun s =>
  match p (Machine.ofParts s.world i s.config.maxDepth) with
  | .ok a m => .ok (.ok a, m.interpreter) { s with world := m.world }
  | .error (.fault f) m => .ok (.error f, m.interpreter) { s with world := m.world }
  | .error .exhausted m => .error {} { s with world := m.world }

/-- Makes an interpreter. -/
def newInterpreter : Load Interpreter := modifyGet Session.newInterpreter

/-- Reads a text that belongs to `file`, and reports what is wrong with it. -/
def readText (file : Option String) (text : String) : Load (List Stmt) := modifyGet fun s =>
  let (program, diagnostics) := Source.read file text s.nextRef s.diagnostics
  (program.body, { s with diagnostics, nextRef := program.nextId })

/-- The trees of a file. A file is read only the first time. -/
def readFile (path : Path) (name text : String) : Load (List Stmt) := do
  match (← get).parsed.get? path with
  | some body => return body
  | none =>
    let body ← readText (some name) text
    modify fun s => { s with parsed := s.parsed.insert path body }
    return body

/-- Sets the file that reports about a text go to, and answers the one before. -/
def setFile (file : Option String) : Load (Option String) := modifyGet fun s =>
  (s.diagnostics.file, { s with diagnostics := s.diagnostics.inFile file })

/-- The number of reports so far. -/
def reports : Load Nat := return (← get).diagnostics.size

end Load

/-- A file whose names are being bound: its interpreter, the names it declares outside of all
scopes, and those it wants to expose. -/
structure Pending where
  interpreter : Interpreter
  declared : List String := []
  exposed : List Token := []
deriving Inhabited

namespace Pending

/-- Enters a reference into the table of bindings. -/
def bind (p : Pending) (id distance : Nat) : Pending :=
  { p with interpreter.bindings := p.interpreter.bindings.insert id distance }

/-- Adds a name declared outside of all scopes. -/
def declare (p : Pending) (name : String) : Pending :=
  if p.declared.contains name then p else { p with declared := name :: p.declared }

end Pending

namespace Load

/-- Makes the names that an import asks for globals of the importing file. A name that the module
does not expose is reported. -/
def takeNames (decl : ImportDecl) (m : Module) : List Token → Pending → Load Pending
  | [], p => return p
  | name :: names, p => do
    if m.exports.contains name.lexeme then
      modify fun s =>
        match s.moduleValue m name.lexeme with
        | some v => s.defineGlobal p.interpreter name.lexeme v
        | none => s
      takeNames decl m names (p.declare name.lexeme)
    else
      report name (.notExposed name.lexeme decl.module)
      takeNames decl m names p

/-- The names exposed by a file that are declared in it. The others are reported. -/
def exportsOf (declared : List String) : List Token → List String → Load (List String)
  | [], acc => return acc.reverse
  | name :: names, acc => do
    if declared.contains name.lexeme then
      exportsOf declared names (if acc.contains name.lexeme then acc else name.lexeme :: acc)
    else
      report name (.undeclared name.lexeme)
      exportsOf declared names acc

/-- The file name that an import means. -/
def fileName (config : Config) (module : String) : String :=
  let suffix := "." ++ config.extension
  if suffix.toList.isSuffixOf module.toList then module else module ++ suffix

mutual

/-- Acts on what binding the names of a file in the directory `dir` has found, in order. -/
def settle : Nat → String → List Finding → Pending → Load Pending
  | 0, _, _, _ => throw {}
  | _ + 1, _, [], p => return p
  | n + 1, dir, .local id d :: fs, p => settle n dir fs (p.bind id d)
  | n + 1, dir, .fault at_ f :: fs, p => do
    modify fun s =>
      { s with diagnostics := s.diagnostics.reportAt .binding (.token at_) f.message }
    settle n dir fs p
  | n + 1, dir, .declared name :: fs, p => settle n dir fs (p.declare name)
  | n + 1, dir, .exposed names :: fs, p =>
    settle n dir fs { p with exposed := p.exposed ++ names }
  | n + 1, dir, .required decl :: fs, p => do
    match ← fetch n dir decl with
    | some m =>
      let p ← takeNames decl m decl.names p
      settle n dir fs
        { p with interpreter.bindings := p.interpreter.bindings ∪ m.bindings }
    | none => settle n dir fs p

/-- Binds the names of a file or text for an interpreter, and answers what it exposes. -/
def bindNames : Nat → String → List Stmt → Interpreter → Load (List String × Interpreter)
  | 0, _, _, _ => throw {}
  | n + 1, dir, body, i => do
    let p ← settle n dir (findings body) { interpreter := i }
    let exports ← exportsOf p.declared p.exposed []
    return (exports, p.interpreter)

/-- The module that an import in the directory `dir` means, which runs now if it has not yet.
Nothing, and a report, if it cannot be had. -/
def fetch : Nat → String → ImportDecl → Load (Option Module)
  | 0, _, _ => throw {}
  | n + 1, dir, decl => do
    let s ← get
    match s.disk.locate (Path.join dir (fileName s.config decl.module)) with
    | .error e =>
      report decl.path (.unreadable decl.module e)
      return none
    | .ok path =>
      if s.loading.contains path then
        let around := s.loading.dropWhile (· != path)
        report decl.path (.cycle ((around ++ [path]).map s.displayName))
        return none
      else
        match s.modules.get? path with
        | some m => return some m
        | none =>
          if s.failed.contains path then
            report decl.path (.failed decl.module)
            return none
          else
            match s.disk.read path with
            | .error e =>
              report decl.path (.unreadable decl.module e)
              return none
            | .ok text => process n path text

/-- Reads, binds and runs a file, up to the first of these that reports something. -/
def process : Nat → Path → String → Load (Option Module)
  | 0, _, _ => throw {}
  | n + 1, path, text => do
    let name := (← get).displayName path
    let before ← setFile (some name)
    let result ← processHere n path name text
    let _ ← setFile before
    if result.isNone then modify fun s => { s with failed := path :: s.failed }
    return result

/-- Reads, binds and runs a file that reports already go to. -/
def processHere : Nat → Path → String → String → Load (Option Module)
  | 0, _, _, _ => throw {}
  | n + 1, path, name, text => do
    let before ← reports
    let body ← readFile path name text
    if before < (← reports) then return none
    else
      let i ← newInterpreter
      modify fun s => { s with loading := s.loading ++ [path] }
      let (exports, i) ← bindNames n (Path.text path.dropLast) body i
      modify fun s => { s with loading := s.loading.dropLast }
      if before < (← reports) then return none
      else
        let (result, i) ← perform i (Eval.run n body)
        match result with
        | .error f =>
          modify fun s => { s with diagnostics := s.diagnostics.reportFault f }
          return none
        | .ok () =>
          let m : Module := { path, name, exports, globals := i.globals, bindings := i.bindings }
          modify fun s => { s with modules := s.modules.insert path m }
          return some m

end

/-- Runs an entry file. Only that the file itself cannot be read is an error; all else is
reported, and nothing is answered if the file did not run to its end. -/
def runFile (n : Nat) (path : String) : Load (Except DiskError (Option Module)) := do
  let s ← get
  match s.disk.locate (Path.join s.root path) with
  | .error e => return .error e
  | .ok path =>
    match s.modules.get? path with
    | some m => return .ok (some m)
    | none =>
      match s.disk.read path with
      | .error e => return .error e
      | .ok text => return .ok (← process n path text)

/-- Binds and runs a text that was read when there were `before` reports, up to the first of these
that reports something. -/
def runRead (n before : Nat) (body : List Stmt) (i : Interpreter) : Load Interpreter := do
  if before < (← reports) then return i
  else
    let (_, i) ← bindNames n (← get).root body i
    if before < (← reports) then return i
    else
      let (result, i) ← perform i (Eval.run n body)
      match result with
      | .error f => modify fun s => { s with diagnostics := s.diagnostics.reportFault f }
      | .ok () => pure ()
      return i

/-- Runs a text that belongs to no file. What it declares stays in the interpreter. -/
def runSource (n : Nat) (name : Option String) (text : String) (i : Interpreter) :
    Load Interpreter := do
  let file ← setFile name
  let before ← reports
  let body ← readText name text
  let i ← runRead n before body i
  let _ ← setFile file
  return i

/-- Forgets all reports and keeps the modules. -/
def resetErrors : Load Unit := modify fun s => { s with diagnostics := s.diagnostics.clear }

end Load

end Treewalk
